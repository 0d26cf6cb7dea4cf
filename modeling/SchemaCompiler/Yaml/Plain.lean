import SchemaCompiler.Value.Number

/-! What a scalar without quotes means under the core schema: null, a boolean, a number or text. -/

namespace SchemaCompiler.Yaml

def isNull (s : String) : Bool :=
  s == "null" || s == "Null" || s == "NULL" || s == "~"

def bool? (s : String) : Option Bool :=
  if s == "true" || s == "True" || s == "TRUE" then some true
  else if s == "false" || s == "False" || s == "FALSE" then some false
  else none

def dropPlus : List Char → List Char
  | '+' :: rest => rest
  | cs => cs

def dropSign : List Char → List Char
  | '+' :: rest => rest
  | '-' :: rest => rest
  | cs => cs

def startsWithSign (cs : List Char) : Bool :=
  cs.head?.any fun c => c == '+' || c == '-'

/-- Digits after a leading zero spell no number. -/
def isPadded (cs : List Char) : Bool :=
  match dropSign cs with
  | '0' :: rest => !rest.isEmpty && rest.all Char.isDigit
  | _ => false

/-- A digit text with the mark of its base, if it has one. -/
def marked? : List Char → Option Nat
  | '0' :: 'x' :: digits => Number.natural? 16 digits
  | '0' :: 'o' :: digits => Number.natural? 8 digits
  | '0' :: 'b' :: digits => Number.natural? 2 digits
  | _ => none

def natural? (cs : List Char) : Option Nat :=
  let body := dropPlus cs
  match marked? body with
  | some n => some n
  | none => if startsWithSign body || isPadded cs then none else Number.natural? 10 body

def negative? : List Char → Option Nat
  | '-' :: body =>
    match marked? body with
    | some n => some n
    | none => if isPadded body then none else Number.natural? 10 body
  | _ => none

def integer? (cs : List Char) : Option Int :=
  match natural? cs with
  | some n => some n
  | none => (negative? cs).map fun n => -(n : Int)

def exponent? : List Char → Option Int
  | [] => some 0
  | c :: rest =>
    if c == 'e' || c == 'E' then
      let n := Number.natural? 10 (dropSign rest)
      n.map fun n => if rest.head? == some '-' then -(n : Int) else n
    else none

def finite? (cs : List Char) : Option Number :=
  let body := dropSign cs
  let whole := body.takeWhile Char.isDigit
  match body.dropWhile Char.isDigit with
  | '.' :: rest =>
    let fraction := rest.takeWhile Char.isDigit
    (exponent? (rest.dropWhile Char.isDigit)).bind fun e =>
      Number.decimal? (cs.head? == some '-') whole fraction e
  | rest => (exponent? rest).bind fun e => Number.decimal? (cs.head? == some '-') whole [] e

def decimal? (cs : List Char) : Option Number :=
  let body := dropPlus cs
  if body.length < cs.length && startsWithSign body then none
  else
    let s := String.ofList body
    if s == ".inf" || s == ".Inf" || s == ".INF" then some (.infinite false)
    else if s == "-.inf" || s == "-.Inf" || s == "-.INF" then some (.infinite true)
    else if s == ".nan" || s == ".NaN" || s == ".NAN" then some .notANumber
    else if isPadded cs then none
    else finite? body

/-- Integers of up to 64 bits are numbers. Wider ones of up to 128 bits are beyond what a document
can hold, and still wider ones are decimals. -/
def meaning (s : String) : Value :=
  if s == "" || isNull s then .null
  else
    match bool? s with
    | some b => .bool b
    | none =>
      match integer? s.toList with
      | some n =>
        if Number.fitsSigned 64 n then .number (.int n)
        else if Number.fitsSigned 128 n then .unusable
        else ((decimal? s.toList).map Value.number).getD (.text s)
      | none => ((decimal? s.toList).map Value.number).getD (.text s)

end SchemaCompiler.Yaml

namespace SchemaCompiler.Value

mutual

/-- The tree with every scalar without quotes replaced by what it means. -/
def settled : Value → Value
  | plain s => Yaml.meaning s
  | seq items => seq (settledItems items)
  | map entries => map (settledEntries entries)
  | v => v

def settledItems : List Value → List Value
  | [] => []
  | v :: vs => settled v :: settledItems vs

def settledEntries : List (Value × Value) → List (Value × Value)
  | [] => []
  | (k, v) :: es => (settled k, settled v) :: settledEntries es

end

end SchemaCompiler.Value
