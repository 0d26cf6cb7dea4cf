import SchemaCompiler.Schema.Basic
import SchemaCompiler.Value.Basic

/-! Writing schemas as documents. What is absent or empty is left out. -/

namespace SchemaCompiler

namespace Value

/-- A field for something that is there. -/
def field (key : String) (v : Value) : List (Value × Value) := [(text key, v)]

def fieldIfSome {α : Type} (key : String) (write : α → Value) : Option α → List (Value × Value)
  | some a => field key (write a)
  | none => []

def fieldIfAny {α : Type} (key : String) (write : List α → Value) : List α → List (Value × Value)
  | [] => []
  | as => field key (write as)

def texts (ss : List String) : Value := seq (ss.map text)

end Value

def GroupVersionKind.toValue (g : GroupVersionKind) : Value :=
  .map [(.text "group", .text g.group), (.text "version", .text g.version),
    (.text "kind", .text g.kind)]

namespace Schema

open Value

mutual

def toValue : Schema → Value
  | ⟨type, format, description, properties, required, items, additional, reference, allOf, kinds,
      preserveUnknown, intOrString, namespaced⟩ =>
    .map (
      fieldIfSome "type" text type ++
      fieldIfSome "format" text format ++
      fieldIfSome "description" text description ++
      fieldIfAny "properties" Value.map (propertyEntries properties) ++
      fieldIfAny "required" texts required ++
      itemsField items ++
      additionalField additional ++
      fieldIfSome "$ref" text reference ++
      fieldIfAny "allOf" Value.seq (allToValue allOf) ++
      fieldIfAny "x-kubernetes-group-version-kind" Value.seq (kinds.map GroupVersionKind.toValue) ++
      fieldIfSome "x-kubernetes-preserve-unknown-fields" Value.bool preserveUnknown ++
      fieldIfSome "x-kubernetes-int-or-string" Value.bool intOrString ++
      fieldIfSome "x-scoped" Value.bool namespaced)

def propertyEntries : List (String × Schema) → List (Value × Value)
  | [] => []
  | (name, s) :: rest => (text name, toValue s) :: propertyEntries rest

def itemsField : Option Schema → List (Value × Value)
  | some s => field "items" (toValue s)
  | none => []

def additionalField : Option (Additional Schema) → List (Value × Value)
  | some (.flag allowed) => field "additionalProperties" (.bool allowed)
  | some (.schema s) => field "additionalProperties" (toValue s)
  | none => []

def allToValue : List Schema → List Value
  | [] => []
  | s :: rest => toValue s :: allToValue rest

end

end Schema

end SchemaCompiler
