/-! Documents as trees: what is left of a text once its spelling is gone. A tree keeps the order of
entries and every repeated key; who decodes it decides what a repetition means. -/

namespace SchemaCompiler

inductive Number where
  | int (n : Int)
  /-- The number `mantissa * 10 ^ exponent`, with a mantissa that ten does not divide. -/
  | decimal (mantissa : Int) (exponent : Int)
  | infinite (negative : Bool)
  | notANumber
deriving DecidableEq, Repr

inductive Value where
  | null
  | bool (b : Bool)
  | number (n : Number)
  | text (s : String)
  /-- A scalar written without quotes, whose meaning is still open. -/
  | plain (s : String)
  | seq (items : List Value)
  | map (entries : List (Value × Value))
  /-- Something that may be skipped but not used: text with an escape that names no character, a
  number out of range, or a node that contains itself. -/
  | unusable
deriving Repr

namespace Value

mutual

def beq : Value → Value → Bool
  | null, null => true
  | bool a, bool b => a == b
  | number a, number b => a == b
  | text a, text b => a == b
  | plain a, plain b => a == b
  | seq a, seq b => beqItems a b
  | map a, map b => beqEntries a b
  | unusable, unusable => true
  | _, _ => false

def beqItems : List Value → List Value → Bool
  | [], [] => true
  | a :: as, b :: bs => beq a b && beqItems as bs
  | _, _ => false

def beqEntries : List (Value × Value) → List (Value × Value) → Bool
  | [], [] => true
  | (k, v) :: as, (l, w) :: bs => beq k l && beq v w && beqEntries as bs
  | _, _ => false

end

instance : BEq Value := ⟨beq⟩

mutual

/-- How many containers lie inside each other at most. -/
def depth : Value → Nat
  | seq items => itemsDepth items + 1
  | map entries => entriesDepth entries + 1
  | _ => 0

def itemsDepth : List Value → Nat
  | [] => 0
  | v :: vs => max (depth v) (itemsDepth vs)

def entriesDepth : List (Value × Value) → Nat
  | [] => 0
  | (k, v) :: es => max (max (depth k) (depth v)) (entriesDepth es)

end

mutual

/-- Whether every part can be used. -/
def isUsable : Value → Bool
  | unusable => false
  | seq items => areUsable items
  | map entries => entriesUsable entries
  | _ => true

def areUsable : List Value → Bool
  | [] => true
  | v :: vs => isUsable v && areUsable vs

def entriesUsable : List (Value × Value) → Bool
  | [] => true
  | (k, v) :: es => isUsable k && isUsable v && entriesUsable es

end

def repeatsKey : List (Value × Value) → Bool
  | [] => false
  | (k, _) :: es => es.any (fun e => e.1 == k) || repeatsKey es

mutual

/-- Whether no mapping in the tree has a key twice. -/
def keysDistinct : Value → Bool
  | seq items => itemsDistinct items
  | map entries => !repeatsKey entries && entriesDistinct entries
  | _ => true

def itemsDistinct : List Value → Bool
  | [] => true
  | v :: vs => keysDistinct v && itemsDistinct vs

def entriesDistinct : List (Value × Value) → Bool
  | [] => true
  | (k, v) :: es => keysDistinct k && keysDistinct v && entriesDistinct es

end

/-- The value under a text key. -/
def get? (key : String) : Value → Option Value
  | map entries => (entries.find? fun e => e.1 == text key).map Prod.snd
  | _ => none

end Value

end SchemaCompiler
