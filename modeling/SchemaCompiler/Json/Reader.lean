import SchemaCompiler.Value.Number

/-! Reading JSON. The reader keeps repeated keys and does not limit nesting; both are judged when the
value is decoded. -/

namespace SchemaCompiler.Json

def isSpace (c : Char) : Bool :=
  c == ' ' || c == '\t' || c == '\n' || c == '\r'

def skipSpace (cs : List Char) : List Char :=
  cs.dropWhile isSpace

/-- Four hexadecimal digits and what follows them. -/
def unit? : List Char → Option (Nat × List Char)
  | a :: b :: c :: d :: rest => (Number.natural? 16 [a, b, c, d]).map (·, rest)
  | _ => none

def shortEscape? (c : Char) : Option Char :=
  match c with
  | '"' => some '"'
  | '\\' => some '\\'
  | '/' => some '/'
  | 'b' => some '\x08'
  | 'f' => some '\x0c'
  | 'n' => some '\n'
  | 'r' => some '\r'
  | 't' => some '\t'
  | _ => none

/-- What a string literal stands for: its characters in reverse, or nothing once an escape in it has
named half of a surrogate pair. -/
abbrev Spelled := Option (List Char)

/-- Reads an escape by code unit, with the second half of a surrogate pair if it follows. -/
def unitEscape (written : Spelled) (rest : List Char) : Option (Spelled × List Char) :=
  match unit? rest with
  | none => none
  | some (high, rest) =>
    if 0xD800 ≤ high && high ≤ 0xDBFF then
      match rest with
      | '\\' :: 'u' :: after =>
        match unit? after with
        | none => none
        | some (low, after) =>
          if 0xDC00 ≤ low && low ≤ 0xDFFF then
            let c := Char.ofNat (0x10000 + (high - 0xD800) * 0x400 + (low - 0xDC00))
            some (written.map (c :: ·), after)
          else some (none, after)
      | _ => some (none, rest)
    else if 0xDC00 ≤ high && high ≤ 0xDFFF then some (none, rest)
    else some (written.map (Char.ofNat high :: ·), rest)

/-- The rest of a string literal after its opening quote. `fuel` exceeds the characters left. -/
def stringBody : Nat → Spelled → List Char → Option (Option String × List Char)
  | fuel + 1, written, c :: rest =>
    if c = '"' then some (written.map fun cs => String.ofList cs.reverse, rest)
    else if c = '\\' then
      match rest with
      | 'u' :: rest => (unitEscape written rest).bind fun (w, rest) => stringBody fuel w rest
      | e :: rest => (shortEscape? e).bind fun e => stringBody fuel (written.map (e :: ·)) rest
      | [] => none
    else if c.toNat < 0x20 then none
    else stringBody fuel (written.map (c :: ·)) rest
  | _, _, _ => none

def string? (fuel : Nat) (cs : List Char) : Option (Option String × List Char) :=
  stringBody fuel (some []) cs

def isSign (c : Char) : Bool :=
  c == '+' || c == '-'

def exponent? : List Char → Option (Int × List Char)
  | c :: rest =>
    if c == 'e' || c == 'E' then
      let negative := rest.head? == some '-'
      let rest := if rest.head?.any isSign then rest.drop 1 else rest
      (Number.natural? 10 (rest.takeWhile Char.isDigit)).map fun n =>
        (if negative then -(n : Int) else n, rest.dropWhile Char.isDigit)
    else some (0, c :: rest)
  | [] => some (0, [])

def fraction? : List Char → Option (List Char × List Char)
  | '.' :: rest =>
    let digits := rest.takeWhile Char.isDigit
    if digits.isEmpty then none else some (digits, rest.dropWhile Char.isDigit)
  | cs => some ([], cs)

/-- Whether a number goes on after its whole part. -/
def hasTail (cs : List Char) : Bool :=
  cs.head?.any fun c => c == '.' || c == 'e' || c == 'E'

/-- A number without its sign. -/
def number? (negative : Bool) (cs : List Char) : Option (Value × List Char) := do
  let whole := cs.takeWhile Char.isDigit
  if whole.isEmpty || (whole.head? == some '0' && whole.length > 1) then none
  else
    let after := cs.dropWhile Char.isDigit
    let (fraction, rest) ← fraction? after
    let (exponent, rest) ← exponent? rest
    if hasTail after then
      some (((Number.decimal? negative whole fraction exponent).map Value.number).getD .unusable, rest)
    else
      let n ← Number.natural? 10 whole
      let value := if Number.inRange n 0 then .number (.int (if negative then -n else n)) else .unusable
      some (value, rest)

/-- An object with a key that is no text cannot be used. -/
def object (members : List (Option String × Value)) : Value :=
  match members.mapM fun (k, v) => k.map fun s => (Value.text s, v) with
  | some entries => .map entries
  | none => .unusable

def literal? (word : String) (v : Value) (cs : List Char) : Option (Value × List Char) :=
  (word.toList.isPrefixOf? cs).map (v, ·)

mutual

def value? : Nat → List Char → Option (Value × List Char)
  | 0, _ => none
  | fuel + 1, cs =>
    match skipSpace cs with
    | '"' :: rest => (string? fuel rest).map fun (s, rest) => ((s.map Value.text).getD .unusable, rest)
    | '[' :: rest =>
      match skipSpace rest with
      | ']' :: rest => some (.seq [], rest)
      | rest => (items? fuel rest).map fun (vs, rest) => (.seq vs, rest)
    | '\x7b' :: rest =>
      match skipSpace rest with
      | '\x7d' :: rest => some (.map [], rest)
      | rest => (members? fuel rest).map fun (ms, rest) => (object ms, rest)
    | 'n' :: rest => literal? "ull" .null rest
    | 't' :: rest => literal? "rue" (.bool true) rest
    | 'f' :: rest => literal? "alse" (.bool false) rest
    | '-' :: rest => number? true rest
    | rest => number? false rest

def items? : Nat → List Char → Option (List Value × List Char)
  | 0, _ => none
  | fuel + 1, cs => do
    let (v, rest) ← value? fuel cs
    match skipSpace rest with
    | ',' :: rest =>
      let (vs, rest) ← items? fuel rest
      some (v :: vs, rest)
    | ']' :: rest => some ([v], rest)
    | _ => none

def members? : Nat → List Char → Option (List (Option String × Value) × List Char)
  | 0, _ => none
  | fuel + 1, cs =>
    match skipSpace cs with
    | '"' :: rest => do
      let (k, rest) ← string? fuel rest
      match skipSpace rest with
      | ':' :: rest =>
        let (v, rest) ← value? fuel rest
        match skipSpace rest with
        | ',' :: rest =>
          let (ms, rest) ← members? fuel rest
          some ((k, v) :: ms, rest)
        | '\x7d' :: rest => some ([(k, v)], rest)
        | _ => none
      | _ => none
    | _ => none

end

/-- Reads a whole text, with nothing but white space around the value. -/
def read? (text : String) : Option Value :=
  let cs := text.toList
  match value? (2 * cs.length + 2) cs with
  | some (v, rest) => if (skipSpace rest).isEmpty then some v else none
  | none => none

end SchemaCompiler.Json
