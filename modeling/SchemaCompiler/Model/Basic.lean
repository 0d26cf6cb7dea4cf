import SchemaCompiler.Model.Expr
import SchemaCompiler.Naming.Field
import SchemaCompiler.Naming.Module
import SchemaCompiler.Naming.Type
import SchemaCompiler.Table

/-! The model of a set of types. Every type has a number, which never changes, and belongs to a group.
A named type is found by its name; an object without a name of its own is filed under a short name
that it may have to share until its group is finalized. -/

namespace SchemaCompiler

/-- An API group with its version, or without one where custom resources have none. -/
structure GroupKey where
  group : String
  version : Option String
deriving DecidableEq, Repr

namespace GroupKey

def of (q : QualifiedName) : GroupKey := ⟨q.group, q.version⟩

def display (k : GroupKey) : String :=
  match k.version with
  | some version => k.group ++ "." ++ version
  | none => k.group

def moduleName (k : GroupKey) : String := Naming.moduleName k.group k.version

def order (a b : GroupKey) : Ordering :=
  (compare a.group b.group).then (optionOrder a.version b.version)

instance : Ord GroupKey := ⟨order⟩

/-- The full name of a type in this group. -/
def qualify (k : GroupKey) (name : String) : String := k.display ++ "." ++ name

end GroupKey

structure Property where
  name : String
  type : TypeExpr
  required : Bool
  description : Option String := none
  /-- A field name that replaces the derived one. -/
  given : Option String := none
deriving DecidableEq, Repr

namespace Property

def fieldName (p : Property) : String := p.given.getD (Naming.fieldName p.name)

/-- Required properties come first, then names decide. -/
def order (a b : Property) : Ordering :=
  (compare b.required a.required).then (compare a.name b.name)

def sort (ps : List Property) : List Property :=
  ps.mergeSort fun a b => order a b != .gt

end Property

/-- What a type that is served as a resource says about itself. -/
structure ApiResource where
  apiVersion : String
  kind : String
  namespaced : Bool
  plural : Option String
deriving DecidableEq, Repr

inductive TypeKind where
  | synonym (target : TypeExpr)
  | resource
  | apiResource (info : ApiResource)
  /-- The object declared under a property of another type. -/
  | anonymous (parent : TypeId) (property : String)
deriving DecidableEq, Repr

structure TypeEntry where
  /-- The name to be emitted. -/
  name : String
  /-- The names of the types above it and its own, put together. -/
  fullName : String
  /-- The full name within all groups. -/
  qualified : String
  group : GroupKey
  description : Option String := none
  properties : List Property := []
  kind : TypeKind
  /-- The equal type that stands for this one. -/
  mergedInto : Option TypeId := none
deriving DecidableEq, Repr

namespace TypeEntry

def isAnonymous (t : TypeEntry) : Bool :=
  match t.kind with
  | .anonymous _ _ => true
  | _ => false

def apiResource? (t : TypeEntry) : Option ApiResource :=
  match t.kind with
  | .apiResource info => some info
  | _ => none

def property? (t : TypeEntry) (name : String) : Option Property :=
  t.properties.find? (·.name == name)

/-- The expressions in a type: what it is a synonym of, and the types of its properties. -/
def exprs (t : TypeEntry) : List TypeExpr :=
  (match t.kind with
    | .synonym target => [target]
    | _ => []) ++ t.properties.map Property.type

end TypeEntry

/-- What an output needs to know about a group. -/
structure FinalizedGroup where
  /-- The types of the group, each after those it is made of. -/
  types : List TypeId := []
  /-- Other groups that the types mention. -/
  refs : List GroupKey := []
  generics : List String := []
  baseTypes : List String := []
deriving DecidableEq, Repr

structure Group where
  named : Table String TypeId := []
  /-- Objects without a name of their own, by short name. -/
  anonymous : Table String (List TypeId) := []
  finalized : Option FinalizedGroup := none

/-- Where a named type is registered. -/
structure Registration where
  group : GroupKey
  qualified : String
  id : TypeId

structure Model where
  types : Array TypeEntry := #[]
  groups : Table GroupKey Group := []
  index : List Registration := []

namespace Model

def find? (m : Model) (group : GroupKey) (qualified : String) : Option TypeId :=
  (m.index.find? fun r => r.group == group && r.qualified == qualified).map Registration.id

def group? (m : Model) (key : GroupKey) : Option Group := Table.get? key m.groups

def keys (m : Model) : List GroupKey := Table.keys m.groups

def finalized? (m : Model) (key : GroupKey) : Option FinalizedGroup :=
  (m.group? key).bind Group.finalized

/-- Changes one group, which begins empty, and gives up what was computed about it. -/
def alterGroup (m : Model) (key : GroupKey) (f : Group → Group) : Model :=
  { m with groups := Table.alter key {} (fun g => { f g with finalized := none }) m.groups }

/-- Registers a named type. A name that its group has already keeps its type. -/
def registerNamed (m : Model) (group : GroupKey) (name : String) (kind : TypeKind)
    (description : Option String) : TypeId × Model :=
  let qualified := group.qualify name
  match m.find? group qualified with
  | some id => (id, m)
  | none =>
    let id := m.types.size
    let entry : TypeEntry := { name, fullName := name, qualified, group, description, kind }
    let m : Model :=
      { m with types := m.types.push entry, index := m.index ++ [⟨group, qualified, id⟩] }
    (id, m.alterGroup group fun g => { g with named := Table.insert name id g.named })

/-- Registers the object declared under a property. It is called after the property unless it is
given a name, and directly below a named type that type's name stands in front. Nothing can be
registered below a type that does not exist. -/
def registerAnonymous (m : Model) (parent : TypeId) (property : String) (typeName : Option String)
    (description : Option String) : TypeId × Model :=
  let id := m.types.size
  match m.types[parent]? with
  | none => (id, m)
  | some above =>
    let own := typeName.getD (Naming.typeName property)
    let name := if above.isAnonymous || typeName.isSome then own else above.name ++ own
    let fullName := above.fullName ++ own
    let entry : TypeEntry :=
      { name, fullName, qualified := above.group.qualify fullName, group := above.group, description,
        kind := .anonymous parent property }
    let m := { m with types := m.types.push entry }
    (id, m.alterGroup above.group fun g =>
      { g with anonymous := Table.alter name [] (· ++ [id]) g.anonymous })

def setProperties (m : Model) (id : TypeId) (properties : List Property) : Model :=
  { m with types := m.types.modify id fun t => { t with properties := Property.sort properties } }

def setKind (m : Model) (id : TypeId) (kind : TypeKind) : Model :=
  { m with types := m.types.modify id fun t => { t with kind } }

def isLive (m : Model) (id : TypeId) : Bool :=
  (m.types[id]?).all (·.mergedInto.isNone)

/-- The types of a group that stand for themselves. -/
def liveTypes (m : Model) (key : GroupKey) : List TypeId :=
  match m.group? key with
  | some g => (Table.values g.named ++ (Table.values g.anonymous).flatten).filter m.isLive
  | none => []

def follow (m : Model) : Nat → TypeId → TypeId
  | 0, id => id
  | steps + 1, id =>
    match (m.types[id]?).bind TypeEntry.mergedInto with
    | some next => m.follow steps next
    | none => id

/-- The type that stands for `id`. No chain of merged types is longer than the model. -/
def resolve (m : Model) (id : TypeId) : TypeId := m.follow m.types.size id

end Model

end SchemaCompiler
