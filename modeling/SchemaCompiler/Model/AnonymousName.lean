import SchemaCompiler.Model.Merging

/-! Names for objects without one. Within a bucket the largest class of equal objects takes the short
name if it is free. Another class takes the full name if all its members share it, or a number after
the short name. -/

namespace SchemaCompiler

def structureOrder : Structure → Structure → Ordering
  | [], [] => .eq
  | [], _ :: _ => .lt
  | _ :: _, [] => .gt
  | (n, t, r) :: as, (n', t', r') :: bs =>
    (compare n n').then ((t.order t').then ((compare r r').then (structureOrder as bs)))

/-- Equal objects of a bucket. -/
structure AnonymousClass where
  retained : TypeId
  size : Nat
  /-- Whether all members have the same full name. -/
  uniform : Bool
  fullName : String
  content : Structure

/-- Which of two classes is named first. -/
def AnonymousClass.order (a b : AnonymousClass) : Ordering :=
  (compare b.size a.size).then ((compare b.uniform a.uniform).then
    ((compare a.fullName b.fullName).then ((structureOrder a.content b.content).then
      (compare a.retained b.retained))))

/-- `base` with the least number from two on that makes it a new name. One of the first
`taken.length + 1` numbers does. -/
def numbered (base : String) (taken : List String) : String :=
  let names := (List.range (taken.length + 1)).map fun n => base ++ Nat.repr (n + 2)
  (names.find? (!taken.contains ·)).getD base

/-- The name of a class; `first` says that it is the first of its bucket and `only` that there is no
other. -/
def AnonymousClass.nameIn (c : AnonymousClass) (short : String) (taken : List String)
    (first only : Bool) : String :=
  if first && !taken.contains short then short
  else if (only || c.uniform) && !taken.contains c.fullName then c.fullName
  else numbered short taken

namespace Model

def classOf (m : Model) (members : List TypeId) (retained : TypeId) : AnonymousClass :=
  let equals := members.filter (m.resolve · == retained)
  let fullName := m.fullNameOf retained
  { retained, size := equals.length, uniform := equals.all (m.fullNameOf · == fullName), fullName,
    content := m.structureOf retained }

def classesOf (m : Model) (members : List TypeId) : List AnonymousClass :=
  ((setOf (members.map m.resolve)).map (m.classOf members)).mergeSort fun a b => a.order b != .gt

def setName (m : Model) (id : TypeId) (name : String) : Model :=
  { m with types := m.types.modify id fun t => { t with name } }

/-- The names in use so far, and the model with them. -/
abbrev NamesInUse := List String × Model

def nameClass (short : String) (only first : Bool) (n : NamesInUse) (c : AnonymousClass) : NamesInUse :=
  let name := c.nameIn short n.1 first only
  (name :: n.1, n.2.setName c.retained name)

def nameClasses (short : String) (n : NamesInUse) : List AnonymousClass → NamesInUse
  | [] => n
  | c :: rest =>
    rest.foldl (nameClass short false false) (nameClass short rest.isEmpty true n c)

def nameBucket (n : NamesInUse) (bucket : String × List TypeId) : NamesInUse :=
  nameClasses bucket.1 n (n.2.classesOf bucket.2)

/-- Names the objects of all buckets of a group whose named types have the names `taken`. -/
def nameAnonymous (m : Model) (taken : List String) (buckets : Table String (List TypeId)) : Model :=
  (buckets.foldl nameBucket (taken, m)).2

end Model

end SchemaCompiler
