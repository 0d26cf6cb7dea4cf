import SchemaCompiler.Schema.Basic
import SchemaCompiler.Value.Decoding

/-! Reading schemas off trees. -/

namespace SchemaCompiler

namespace GroupVersionKind

def fieldNames : List String := ["group", "version", "kind"]

def ofValue? (d : Dialect) (room : Nat) (v : Value) : Option GroupVersionKind := do
  let fields ← v.record? d fieldNames room
  let group ← fields.optional "group" "" Value.text?
  let version ← fields.require "version" Value.text?
  let kind ← fields.require "kind" Value.text?
  some { group, version, kind }

end GroupVersionKind

namespace Schema

def fieldNames : List String := [
  "type", "format", "description", "properties", "required", "items", "additionalProperties", "$ref",
  "allOf", "x-kubernetes-group-version-kind", "x-kubernetes-preserve-unknown-fields",
  "x-kubernetes-int-or-string", "x-scoped"]

/-- Reads a map with text keys, of which a later entry replaces an earlier one. -/
def table? {α : Type} (d : Dialect) (room : Nat) (read : Value → Option α) (v : Value) :
    Option (Table String α) := do
  let entries ← v.entries? d room
  let entries ← entries.mapM fun (k, v) => do some (← k.text?, ← read v)
  some (Table.ofEntries entries)

def list? {α : Type} (d : Dialect) (room : Nat) (read : Value → Option α) (v : Value) :
    Option (List α) :=
  (v.items? d room).bind (·.mapM read)

/-- Reads a schema whose containers nest at most `room` deep. -/
def decode (d : Dialect) : Nat → Value → Option Schema
  | 0, _ => none
  | room + 1, v => do
    let nested : Value → Option Schema := match room with
      | 0 => fun _ => none
      | inner + 1 => decode d inner
    let fields ← v.record? d fieldNames (room + 1)
    let type ← fields.option "type" Value.text?
    let format ← fields.option "format" Value.text?
    let description ← fields.option "description" Value.text?
    let properties ← fields.optional "properties" [] (table? d room nested)
    let required ← fields.optional "required" [] (Value.texts? d room)
    let items ← fields.option "items" (decode d room)
    let additional ← fields.option "additionalProperties" fun v =>
      (v.content? room).bind fun
        | .bool allowed => some (.flag allowed)
        | v => (decode .exact room v).map .schema
    let reference ← fields.option "$ref" Value.text?
    let allOf ← fields.optional "allOf" [] (list? d room nested)
    let kinds ← fields.optional "x-kubernetes-group-version-kind" []
      (list? d room (GroupVersionKind.ofValue? d (room - 1)))
    let preserveUnknown ← fields.option "x-kubernetes-preserve-unknown-fields" Value.bool?
    let intOrString ← fields.option "x-kubernetes-int-or-string" Value.bool?
    let namespaced ← fields.option "x-scoped" Value.bool?
    some { type, format, description, properties, required, items, additional, reference, allOf,
           kinds, preserveUnknown, intOrString, namespaced }

/-- Reads a schema off a tree of any depth. -/
def ofValue? (v : Value) : Option Schema :=
  decode .exact (v.depth + 1) v

end Schema

end SchemaCompiler
