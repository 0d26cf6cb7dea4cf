import SchemaCompiler.Model.Basic

/-! Merging equal objects. Objects filed under one short name are one type if their properties agree
in name, type and being required, where types that were merged count as the same. Merging nested
objects can make the objects around them equal, so it is repeated until nothing changes. -/

namespace SchemaCompiler

/-- What makes objects equal. -/
abbrev Structure := List (String × TypeExpr × Bool)

namespace Model

def structureOf (m : Model) (id : TypeId) : Structure :=
  match m.types[id]? with
  | some t => t.properties.map fun p => (p.name, p.type.mapIds m.resolve, p.required)
  | none => []

def fullNameOf (m : Model) (id : TypeId) : String :=
  ((m.types[id]?).map TypeEntry.fullName).getD ""

def precedes (m : Model) (a b : TypeId) : Bool :=
  ((compare (m.fullNameOf a) (m.fullNameOf b)).then (compare a b)) == .lt

/-- The one of `ids` that stands for all of them, by full name and then by number. -/
def retainedOf (m : Model) (ids : List TypeId) (id : TypeId) : TypeId :=
  ids.foldl (fun best i => if m.precedes i best then i else best) id

def redirect (m : Model) (id target : TypeId) : Model :=
  { m with types := m.types.modify id fun t => { t with mergedInto := some target } }

/-- Redirects each live object of a bucket to the one that stands for its equals. -/
def mergeBucket (m : Model) (members : List TypeId) : Model :=
  let keyed := (members.filter m.isLive).map fun id => (id, m.structureOf id)
  keyed.foldl (fun merged (id, s) =>
    let equals := (keyed.filter fun e => e.2 == s).map Prod.fst
    let retained := m.retainedOf equals id
    if retained == id then merged else merged.redirect id retained) m

def mergeRound (m : Model) (buckets : List (List TypeId)) : Model :=
  buckets.foldl mergeBucket m

def liveCount (m : Model) (ids : List TypeId) : Nat :=
  ids.countP m.isLive

/-- Merges until a round changes nothing. Every other round takes a live object away. -/
def mergeRounds (buckets : List (List TypeId)) : Nat → Model → Model
  | 0, m => m
  | rounds + 1, m =>
    let merged := m.mergeRound buckets
    if merged.liveCount buckets.flatten == m.liveCount buckets.flatten then merged
    else mergeRounds buckets rounds merged

/-- A merged object takes the full name of the one that stands for it. -/
def shareQualified (m : Model) (id : TypeId) : Model :=
  if m.isLive id then m
  else
    match m.types[m.resolve id]? with
    | some retained =>
      { m with types := m.types.modify id fun t => { t with qualified := retained.qualified } }
    | none => m

def mergeEquals (m : Model) (buckets : List (List TypeId)) : Model :=
  buckets.flatten.foldl shareQualified (mergeRounds buckets buckets.flatten.length m)

end Model

end SchemaCompiler
