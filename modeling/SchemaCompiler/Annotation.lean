import SchemaCompiler.Config
import SchemaCompiler.Schema.Decoding

/-! Annotations: what a user wants changed about single properties of the imported types. A property
can be dropped, given another schema, or be named differently. -/

namespace SchemaCompiler

structure PropertyPatch where
  schema : Option Schema := none
  fieldName : Option String := none
  /-- The name of the type that the property's own object becomes. -/
  typeName : Option String := none
deriving Repr

inductive PropertyOverride where
  | delete
  | patch (p : PropertyPatch)
deriving Repr

/-- Overrides of one type by property. -/
abbrev TypeOverrides := Table String PropertyOverride

/-- Overrides by type. -/
abbrev Annotations := Table String TypeOverrides

namespace PropertyPatch

def names : List String := ["$ref", "type", "items", "snake_name", "type_name"]

/-- The schema that a patch describes. A reference beside the type "array" is the array's item. -/
def schemaOf (reference type : Option String) (items : Option Schema) : Option Schema :=
  match reference, type, items with
  | some path, some type, _ =>
    if type == "array" then some { type := some type, items := some (Schema.toReference path) }
    else some (Schema.toReference path)
  | some path, none, _ => some (Schema.toReference path)
  | none, some type, items => some { type := some type, items }
  | none, none, some items => some { type := some "array", items := some items }
  | none, none, none => none

def ofValue? (room : Nat) (v : Value) : Option PropertyPatch := do
  let fields ← v.record? .exact names room
  let reference ← fields.option "$ref" Value.text?
  let type ← fields.option "type" Value.text?
  let items ← fields.option "items" (Schema.decode .exact (room - 1))
  let fieldName ← fields.option "snake_name" Value.text?
  let typeName ← fields.option "type_name" Value.text?
  some { schema := schemaOf reference type items, fieldName, typeName }

end PropertyPatch

namespace PropertyOverride

/-- Reads what is written for a property: false drops it, true leaves it alone, a text is a
reference to its schema, and a record describes a patch. -/
def ofValue? (room : Nat) (v : Value) : Option (Option PropertyOverride) := do
  match ← v.content? room with
  | .bool true => some none
  | .bool false => some (some .delete)
  | .text path => some (some (.patch { schema := some (Schema.toReference path) }))
  | v => (PropertyPatch.ofValue? room v).map fun p => some (.patch p)

end PropertyOverride

namespace Annotations

/-- What one document says, with nothing where a property is left alone. -/
abbrev Document := Table String (Table String (Option PropertyOverride))

def Document.ofText? (text : String) : Option Document :=
  if text.toList.all Text.isBlank then some []
  else do
    let room := Yaml.nesting
    let v ← Yaml.document? text
    Schema.table? .written room
      (Schema.table? .written (room - 1) (PropertyOverride.ofValue? (room - 2))) v

def mergeType (overrides : TypeOverrides) (said : Table String (Option PropertyOverride)) :
    TypeOverrides :=
  said.foldl (fun os (property, o) => match o with
    | some o => Table.insert property o os
    | none => os) overrides

/-- Adds a document. What it says about a property replaces what was said before. -/
def merge (a : Annotations) (d : Document) : Annotations :=
  d.foldl (fun a (type, said) => Table.alter type [] (mergeType · said) a) a

def ofText (text : String) : Except Error Annotations :=
  match Document.ofText? text with
  | some d => .ok (merge [] d)
  | none => .error .unreadYaml

/-- The overrides under the first of the keys that is there. -/
def forType (a : Annotations) (keys : List String) : Option TypeOverrides :=
  keys.findSome? (Table.get? · a)

end Annotations

end SchemaCompiler
