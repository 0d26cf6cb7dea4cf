import SchemaCompiler.Yaml.Plain

/-! Reading typed data off a tree. Sources differ in a few rules, collected in a `Dialect`; scalars
without quotes, which only some trees still have, are read as what the field asks for. -/

namespace SchemaCompiler

structure Dialect where
  /-- A record may be written as the list of its fields, or name them by position. -/
  positional : Bool
  /-- Null stands for an empty list, map or record. -/
  nullIsEmpty : Bool

namespace Dialect

/-- JSON, and the parts of other texts whose form depends on what they hold. -/
def exact : Dialect := ⟨true, false⟩

/-- YAML read as it is written. -/
def written : Dialect := ⟨false, false⟩

/-- YAML with its scalars settled first. -/
def loose : Dialect := ⟨false, true⟩

end Dialect

namespace Value

def text? : Value → Option String
  | text s => some s
  | plain s => some s
  | _ => none

def bool? : Value → Option Bool
  | bool b => some b
  | plain s => Yaml.bool? s
  | _ => none

/-- A whole number of at most 64 bits, written without quotes. -/
def count? : Value → Option Nat
  | number (.int (.ofNat n)) => if Number.fits 64 n then some n else none
  | plain s => (Yaml.natural? s.toList).filter (Number.fits 64)
  | _ => none

def isAbsent : Value → Bool
  | null => true
  | plain s => s == "" || Yaml.isNull s
  | _ => false

/-- Whether the tree stands for an empty list or map without saying so. -/
def isVoid (d : Dialect) : Value → Bool
  | null => d.nullIsEmpty
  | plain s => s == ""
  | _ => false

/-- The items of a list with room for `room` containers, the list included. -/
def items? (d : Dialect) (room : Nat) (v : Value) : Option (List Value) :=
  match v with
  | seq items => if room = 0 then none else some items
  | v => if v.isVoid d then some [] else none

def entries? (d : Dialect) (room : Nat) (v : Value) : Option (List (Value × Value)) :=
  match v with
  | map entries => if room = 0 then none else some entries
  | v => if v.isVoid d then some [] else none

/-- The fields of a record that are present, by name. -/
abbrev Fields := List (String × Value)

/-- The name of the field that a key stands for; a key of another record is none of `names`. -/
def fieldName? (d : Dialect) (names : List String) : Value → Option String
  | number (.int (.ofNat n)) =>
    if d.positional && Number.fits 64 n then some (names[n]?.getD "") else none
  | v => v.text?

/-- The known fields among the entries, none of which may come twice. -/
def namedFields? (d : Dialect) (names : List String) : List (Value × Value) → Option Fields
  | [] => some []
  | (k, v) :: rest => do
    let name ← fieldName? d names k
    let fields ← namedFields? d names rest
    if !names.contains name then some fields
    else if fields.any (·.1 == name) then none
    else some ((name, v) :: fields)

def record? (d : Dialect) (names : List String) (room : Nat) (v : Value) : Option Fields :=
  match v with
  | seq items =>
    if d.positional && room ≠ 0 && items.length ≤ names.length then some (names.zip items) else none
  | v => (v.entries? d room).bind (namedFields? d names)

namespace Fields

/-- A field that must be there. -/
def require {α : Type} (fields : Fields) (name : String) (read : Value → Option α) : Option α :=
  (fields.lookup name).bind read

/-- A field that stands for `default` when it is not there. -/
def optional {α : Type} (fields : Fields) (name : String) (default : α) (read : Value → Option α) :
    Option α :=
  match fields.lookup name with
  | some v => read v
  | none => some default

/-- A field that may be absent or null. -/
def option {α : Type} (fields : Fields) (name : String) (read : Value → Option α) :
    Option (Option α) :=
  fields.optional name none fun v => if v.isAbsent then some none else (read v).map some

end Fields

def texts? (d : Dialect) (room : Nat) (v : Value) : Option (List String) :=
  (v.items? d room).bind (·.mapM text?)

/-- The tree as a part of a text whose form depends on what it holds: settled, and usable
throughout within `room` containers. -/
def content? (room : Nat) (v : Value) : Option Value :=
  let v := v.settled
  if v.isUsable && v.depth ≤ room then some v else none

end Value

end SchemaCompiler
