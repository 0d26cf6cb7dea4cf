import SchemaCompiler.Model.Basic

/-! Dependencies between types. Within a group, types are put in an order in which each comes after
those it is made of, as far as there is one; references that lead out of the group are collected. -/

namespace SchemaCompiler

namespace Model

def groupOf? (m : Model) (id : TypeId) : Option GroupKey :=
  (m.types[id]?).map TypeEntry.group

def named? (m : Model) (key : GroupKey) (name : String) : Option TypeId :=
  (m.group? key).bind fun g => Table.get? name g.named

/-- The type of the group `key` that a leaf of an expression refers to. -/
def localTarget? (m : Model) (key : GroupKey) : TypeExpr → Option TypeId
  | .type id => if m.groupOf? (m.resolve id) == some key then some (m.resolve id) else none
  | .ref q => if GroupKey.of q == key then m.named? key q.name else none
  | _ => none

/-- The group other than `key` that a leaf of an expression refers to. -/
def foreignGroup? (m : Model) (key : GroupKey) : TypeExpr → Option GroupKey
  | .type id => (m.groupOf? (m.resolve id)).filter (· != key)
  | .ref q => if GroupKey.of q == key then none else some (GroupKey.of q)
  | _ => none

def exprsOf (m : Model) (id : TypeId) : List TypeExpr :=
  ((m.types[id]?).map TypeEntry.exprs).getD []

def leavesOf (m : Model) (id : TypeId) : List TypeExpr :=
  (m.exprsOf id).flatMap TypeExpr.leaves

def dependencies (m : Model) (key : GroupKey) (id : TypeId) : List TypeId :=
  (m.leavesOf id).filterMap (m.localTarget? key)

/-- The types reached so far, and those of them that are in place. -/
structure Walk where
  seen : List TypeId := []
  placed : List TypeId := []

/-- Places `id` after its dependencies unless it was reached before. Each level of `depth` reaches
a further type. -/
def visit (m : Model) (key : GroupKey) : Nat → Walk → TypeId → Walk
  | 0, w, _ => w
  | depth + 1, w, id =>
    let id := m.resolve id
    if w.seen.contains id then w
    else
      let below := (m.dependencies key id).foldl (m.visit key depth) { w with seen := id :: w.seen }
      { below with placed := below.placed ++ [id] }

def nameOrder (m : Model) (a b : TypeId) : Ordering :=
  match m.types[a]?, m.types[b]? with
  | some s, some t => (compare s.name t.name).then (compare s.qualified t.qualified)
  | _, _ => .eq

/-- The live types of a group, dependencies first, and otherwise by name. -/
def dependencyOrder (m : Model) (key : GroupKey) : List TypeId :=
  let candidates := (m.liveTypes key).mergeSort fun a b => m.nameOrder a b != .gt
  (candidates.foldl (m.visit key (m.types.size + 1)) {}).placed

/-- The trait of the base module that a resource needs. -/
def scopeName (namespaced : Bool) : String :=
  if namespaced then "NamespacedResource" else "ClusterResource"

def baseNamesOf (m : Model) (id : TypeId) : List String :=
  (((m.types[id]?).bind TypeEntry.apiResource?).map fun r => scopeName r.namespaced).toList ++
    (m.leavesOf id).filterMap TypeExpr.wellKnownName?

/-- What the output needs to know about a group, given the order of its types. -/
def viewOf (m : Model) (key : GroupKey) (types : List TypeId) : FinalizedGroup :=
  { types
    refs := setOf (types.flatMap fun id => (m.leavesOf id).filterMap (m.foreignGroup? key))
    generics := setOf (types.flatMap fun id => (m.exprsOf id).flatMap TypeExpr.generics)
    baseTypes := setOf (types.flatMap m.baseNamesOf) }

end Model

end SchemaCompiler
