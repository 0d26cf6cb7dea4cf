import SchemaCompiler.QualifiedName

/-! Type expressions, the types of properties. An expression is equal to another or comes before or
after it in one order, by the kind of expression first and then by its parts. -/

namespace SchemaCompiler

/-- The place of a type in its model. -/
abbrev TypeId := Nat

inductive Primitive where
  | string
  | integer
  | float
  | boolean
  | any
deriving DecidableEq, Repr

def Primitive.rank : Primitive → Nat
  | string => 0
  | integer => 1
  | float => 2
  | boolean => 3
  | any => 4

/-- Types that every output has ready-made. -/
inductive WellKnown where
  | time
  | quantity
  | intOrString
  | base64
  | idnHostname
deriving DecidableEq, Repr

namespace WellKnown

def name : WellKnown → String
  | time => "Time"
  | quantity => "Quantity"
  | intOrString => "IntOrString"
  | base64 => "Base64"
  | idnHostname => "IDNHostname"

def all : List WellKnown := [time, quantity, intOrString, base64, idnHostname]

def rank : WellKnown → Nat
  | time => 0
  | quantity => 1
  | intOrString => 2
  | base64 => 3
  | idnHostname => 4

end WellKnown

/-- Absent texts come before present ones. -/
def optionOrder : Option String → Option String → Ordering
  | none, none => .eq
  | none, some _ => .lt
  | some _, none => .gt
  | some a, some b => compare a b

def QualifiedName.order (a b : QualifiedName) : Ordering :=
  (compare a.name b.name).then ((compare a.group b.group).then (optionOrder a.version b.version))

inductive TypeExpr where
  | primitive (p : Primitive)
  | wellKnown (w : WellKnown)
  /-- A type of the model. -/
  | type (id : TypeId)
  /-- A type by name, in the model or not. -/
  | ref (name : QualifiedName)
  | bareList
  | list (item : TypeExpr)
  | bareMap
  | map (value : TypeExpr)
  | union (members : List TypeExpr)
deriving Repr

namespace TypeExpr

def rank : TypeExpr → Nat
  | primitive _ => 0
  | wellKnown _ => 1
  | type _ => 2
  | ref _ => 3
  | bareList => 4
  | list _ => 5
  | bareMap => 6
  | map _ => 7
  | union _ => 8

mutual

def order : TypeExpr → TypeExpr → Ordering
  | primitive p, primitive q => compare p.rank q.rank
  | wellKnown v, wellKnown w => compare v.rank w.rank
  | type i, type j => compare i j
  | ref a, ref b => a.order b
  | list a, list b => order a b
  | map a, map b => order a b
  | union as, union bs => orderAll as bs
  | a, b => compare a.rank b.rank

def orderAll : List TypeExpr → List TypeExpr → Ordering
  | [], [] => .eq
  | [], _ :: _ => .lt
  | _ :: _, [] => .gt
  | a :: as, b :: bs => (order a b).then (orderAll as bs)

end

mutual

def same : TypeExpr → TypeExpr → Bool
  | primitive p, primitive q => decide (p = q)
  | wellKnown v, wellKnown w => decide (v = w)
  | type i, type j => decide (i = j)
  | ref a, ref b => decide (a = b)
  | bareList, bareList => true
  | list a, list b => same a b
  | bareMap, bareMap => true
  | map a, map b => same a b
  | union as, union bs => sameAll as bs
  | _, _ => false

def sameAll : List TypeExpr → List TypeExpr → Bool
  | [], [] => true
  | a :: as, b :: bs => same a b && sameAll as bs
  | _, _ => false

end

mutual

theorem same_iff : ∀ a b : TypeExpr, same a b = true ↔ a = b
  | primitive _, b => by cases b <;> simp [same]
  | wellKnown _, b => by cases b <;> simp [same]
  | type _, b => by cases b <;> simp [same]
  | ref _, b => by cases b <;> simp [same]
  | bareList, b => by cases b <;> simp [same]
  | list a, b => by cases b <;> simp [same, same_iff a]
  | bareMap, b => by cases b <;> simp [same]
  | map a, b => by cases b <;> simp [same, same_iff a]
  | union as, b => by cases b <;> simp [same, sameAll_iff as]

theorem sameAll_iff : ∀ as bs : List TypeExpr, sameAll as bs = true ↔ as = bs
  | [], bs => by cases bs <;> simp [sameAll]
  | a :: as, bs => by cases bs <;> simp [sameAll, same_iff a, sameAll_iff as]

end

instance : DecidableEq TypeExpr := fun a b => decidable_of_iff _ (same_iff a b)

mutual

/-- The expression with every type of the model put through `f`. -/
def mapIds (f : TypeId → TypeId) : TypeExpr → TypeExpr
  | type id => type (f id)
  | list item => list (mapIds f item)
  | map value => map (mapIds f value)
  | union members => union (mapAllIds f members)
  | e => e

def mapAllIds (f : TypeId → TypeId) : List TypeExpr → List TypeExpr
  | [] => []
  | e :: es => mapIds f e :: mapAllIds f es

end

mutual

/-- The parts of an expression that are no list, map or union, from left to right. -/
def leaves : TypeExpr → List TypeExpr
  | bareList => []
  | list item => leaves item
  | bareMap => []
  | map value => leaves value
  | union members => allLeaves members
  | e => [e]

def allLeaves : List TypeExpr → List TypeExpr
  | [] => []
  | e :: es => leaves e ++ allLeaves es

end

mutual

/-- The wrappers that occur in an expression. -/
def generics : TypeExpr → List String
  | bareList => ["List"]
  | list item => "List" :: generics item
  | bareMap => ["Dict"]
  | map value => "Dict" :: generics value
  | union members => "Union" :: allGenerics members
  | _ => []

def allGenerics : List TypeExpr → List String
  | [] => []
  | e :: es => generics e ++ allGenerics es

end

def wellKnownName? : TypeExpr → Option String
  | wellKnown w => some w.name
  | _ => none

end TypeExpr

end SchemaCompiler
