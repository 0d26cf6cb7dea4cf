import SchemaCompiler.Table

/-! Raw schemas, the part of JSON Schema that API definitions and custom resources use. -/

namespace SchemaCompiler

/-- The schema for the properties that are not listed, or whether they are allowed at all. -/
inductive Additional (σ : Type) where
  | flag (allowed : Bool)
  | schema (value : σ)
deriving Repr

/-- A kind that a definition declares to be served as. -/
structure GroupVersionKind where
  group : String
  version : String
  kind : String
deriving DecidableEq, Repr

structure Schema where
  type : Option String := none
  format : Option String := none
  description : Option String := none
  properties : List (String × Schema) := []
  required : List String := []
  items : Option Schema := none
  additional : Option (Additional Schema) := none
  reference : Option String := none
  allOf : List Schema := []
  kinds : List GroupVersionKind := []
  preserveUnknown : Option Bool := none
  intOrString : Option Bool := none
  namespaced : Option Bool := none
deriving Repr

namespace Schema

def toReference (path : String) : Schema := { reference := some path }

/-- Whether the schema admits everything. -/
def isUnconstrained (s : Schema) : Bool :=
  s.type.isNone && s.reference.isNone && s.allOf.isEmpty && s.properties.isEmpty &&
    s.intOrString.isNone && s.preserveUnknown.isNone

def hasValueSchema (s : Schema) : Bool :=
  match s.additional with
  | some (.schema _) => true
  | _ => false

/-- Whether a definition becomes a type with fields rather than a synonym. -/
def isRecord (s : Schema) : Bool :=
  !s.properties.isEmpty || (s.type == some "object" && !s.hasValueSchema)

end Schema

end SchemaCompiler
