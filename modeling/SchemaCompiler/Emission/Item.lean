import SchemaCompiler.Emission.TypeText
import SchemaCompiler.Model.Dependency

/-! The items of a module: a synonym or a record for each type of a group. -/

namespace SchemaCompiler

structure Field where
  name : String
  type : TypeText
  optional : Bool
  /-- The name in documents where it differs from the field's. -/
  rename : Option String
  description : Option String
deriving DecidableEq, Repr

inductive ItemBody where
  | synonym (target : TypeText)
  | record (fields : List Field) (resource : Option ApiResource)
deriving DecidableEq, Repr

structure Item where
  id : TypeId
  name : String
  description : Option String
  body : ItemBody
deriving DecidableEq, Repr

namespace Spelling

def field (s : Spelling) (current : TypeId) (p : Property) : Field :=
  { name := p.fieldName
    type := s.typeText current true p.type
    optional := !p.required
    rename := if p.fieldName == p.name then none else some p.name
    description := p.description }

def itemBody (s : Spelling) (current : TypeId) (t : TypeEntry) : ItemBody :=
  match t.kind with
  | .synonym target => .synonym (s.typeText current true target)
  | .apiResource info => .record (t.properties.map (s.field current)) (some info)
  | _ => .record (t.properties.map (s.field current)) none

def item? (s : Spelling) (id : TypeId) : Option Item :=
  (s.model.types[id]?).map fun t =>
    { id, name := t.name, description := t.description, body := s.itemBody id t }

def items (s : Spelling) : List Item :=
  s.placed.filterMap s.item?

end Spelling

end SchemaCompiler
