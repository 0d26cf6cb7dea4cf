import SchemaCompiler.Model.Basic

/-! How one type refers to another: as itself, by name within its group, through the module of another
group, or by a qualified name that the model does not know. -/

namespace SchemaCompiler

inductive TypeRef where
  | itself (name : String)
  | sameGroup (name : String)
  | external (moduleName : String) (name : String)
  | canonical (name : QualifiedName)
deriving DecidableEq, Repr

namespace Model

/-- A live type of a group by the name it bears now. -/
def typeNamed? (m : Model) (key : GroupKey) (name : String) : Option TypeEntry :=
  ((m.liveTypes key).filterMap (m.types[·]?)).find? (·.name == name)

/-- The reference to `target` within `current`; both must be registered. -/
def refer (m : Model) (target current : TypeId) : Option TypeRef := do
  let target := m.resolve target
  let current := m.resolve current
  let t ← m.types[target]?
  let c ← m.types[current]?
  if target == current then some (.itself t.name)
  else if t.group == c.group then some (.sameGroup t.name)
  else some (.external t.group.moduleName t.name)

/-- The reference to a type by name within `current`. -/
def referByName (m : Model) (name : QualifiedName) (current : TypeId) : Option TypeRef :=
  match (m.group? (GroupKey.of name)).bind fun g => Table.get? name.name g.named with
  | some id => m.refer id current
  | none => some (.canonical name)

end Model

end SchemaCompiler
