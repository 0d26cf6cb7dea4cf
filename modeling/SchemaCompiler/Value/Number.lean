import SchemaCompiler.Value.Basic

/-! Numbers written with digits. A decimal beyond the range of double precision is no number. -/

namespace SchemaCompiler.Number

def digitValue (c : Char) : Nat :=
  if c.isDigit then c.toNat - '0'.toNat
  else if 'a' ≤ c && c ≤ 'z' then c.toNat - 'a'.toNat + 10
  else if 'A' ≤ c && c ≤ 'Z' then c.toNat - 'A'.toNat + 10
  else 36

/-- The number that digits of a base spell, none without digits or with one too large. -/
def natural? (base : Nat) (digits : List Char) : Option Nat :=
  if digits.isEmpty || digits.any (fun c => base ≤ digitValue c) then none
  else some (digits.foldl (fun n c => base * n + digitValue c) 0)

/-- Whether a number without a sign can be held in `bits` bits. -/
def fits (bits : Nat) (n : Nat) : Bool := n < Nat.pow 2 bits

/-- Whether an integer can be held in `bits` bits, with a sign only if it is negative. -/
def fitsSigned (bits : Nat) : Int → Bool
  | .ofNat n => fits bits n
  | .negSucc n => fits (bits - 1) n

/-- Moves the zeros at the end of the mantissa into the exponent. -/
def normal : Nat → Int → Int → Int × Int
  | fuel + 1, m, e => if m % 10 == 0 then normal fuel (m / 10) (e + 1) else (m, e)
  | 0, m, e => (m, e)

/-- Whether `m * 10 ^ e` rounds to a finite double. The least number that does not is half a step
beyond the greatest double. -/
def inRange (m : Nat) (e : Int) : Bool :=
  let size : Int := (Nat.toDigits 10 m).length + e
  if m == 0 || size < 300 then true
  else if size > 310 then false
  else
    let bound := Nat.pow 2 1024 - Nat.pow 2 970
    if e < 0 then m < bound * Nat.pow 10 (-e).toNat else m * Nat.pow 10 e.toNat < bound

/-- The decimal with the given digits before and after the point. -/
def decimal? (negative : Bool) (whole fraction : List Char) (exponent : Int) : Option Number :=
  match natural? 10 (whole ++ fraction) with
  | none => none
  | some m =>
    let e := exponent - fraction.length
    if !inRange m e then none
    else if m == 0 then some (.decimal 0 0)
    else
      let (m', e') := normal (whole.length + fraction.length) (if negative then -m else m) e
      some (.decimal m' e')

end SchemaCompiler.Number
