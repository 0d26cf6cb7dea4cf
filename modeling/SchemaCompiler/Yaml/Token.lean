import SchemaCompiler.Yaml.Scalar

/-! Tokens of a text. Indentation becomes explicit, with a token where a block opens and one where it
closes. That a scalar was a key shows only at the colon after it, so a slot is kept in front of
everything that may turn out to be one. -/

namespace SchemaCompiler.Yaml

inductive Token where
  | documentStart
  | documentEnd
  | blockSequence
  | blockMapping
  | blockEnd
  | flowSequence
  | flowSequenceEnd
  | flowMapping
  | flowMappingEnd
  | entry
  | separator
  | key
  | value
  | anchor (name : String)
  | reference (name : String)
  | scalar (plain : Bool) (text : String)
deriving DecidableEq, Repr

/-- A place where a key may have begun. A required one stands at the indentation of a mapping. -/
structure KeyPlace where
  slot : Nat
  required : Bool
  index : Nat
  line : Nat
  column : Nat

structure Scanner where
  cursor : Cursor
  /-- More than the characters of the whole text. -/
  fuel : Nat
  indent : Int := -1
  outerIndents : List Int := []
  keyPlace : Option KeyPlace := none
  /-- One entry for each bracket that is open. -/
  outerPlaces : List (Option KeyPlace) := []
  keyAllowed : Bool := true
  slots : Array (List Token) := #[]

namespace Scanner

def inFlow (s : Scanner) : Bool := !s.outerPlaces.isEmpty

def put (s : Scanner) (t : Token) : Scanner :=
  { s with slots := s.slots.push [t] }

/-- Passes white space, comments and line breaks. A line break outside brackets lets a key begin. -/
def skipGap (s : Scanner) : Nat → Scanner
  | 0 => s
  | fuel + 1 =>
    let c := s.cursor.skipWhile fun ch => ch == ' ' || (ch == '\t' && (s.inFlow || !s.keyAllowed))
    let c := if c.next? == some '#' then c.skipWhile (!isBreak ·) else c
    if c.atBreak then
      skipGap { s with cursor := c.skipLine, keyAllowed := s.keyAllowed || !s.inFlow } fuel
    else { s with cursor := c }

/-- Whether the key that may have begun at `p` can no longer be one: it must end on its line and
within 1024 characters. -/
def KeyPlace.isStale (p : KeyPlace) (c : Cursor) : Bool :=
  p.line < c.line || p.index + 1024 < c.index

def freshPlace (c : Cursor) : Option KeyPlace → Option (Option KeyPlace)
  | some p => if KeyPlace.isStale p c then (if p.required then none else some none) else some (some p)
  | none => some none

def dropStale (s : Scanner) : Option Scanner := do
  let keyPlace ← freshPlace s.cursor s.keyPlace
  let outerPlaces ← s.outerPlaces.mapM (freshPlace s.cursor)
  some { s with keyPlace, outerPlaces }

def forgetKey (s : Scanner) : Option Scanner :=
  if s.keyPlace.any (·.required) then none else some { s with keyPlace := none }

/-- Keeps a slot if a key may begin here. -/
def noteKey (s : Scanner) : Option Scanner :=
  if s.keyAllowed then do
    let s ← s.forgetKey
    let c := s.cursor
    let required := !s.inFlow && s.indent == c.column
    let place : KeyPlace := ⟨s.slots.size, required, c.index, c.line, c.column⟩
    some { s with keyPlace := some place, slots := s.slots.push [] }
  else some s

/-- Opens a block at `column` if it lies deeper than the current one. -/
def openBlock (s : Scanner) (column : Nat) : Bool × Scanner :=
  if !s.inFlow && s.indent < column then
    (true, { s with indent := column, outerIndents := s.indent :: s.outerIndents })
  else (false, s)

def openBlockHere (s : Scanner) (t : Token) : Scanner :=
  let (opened, s) := s.openBlock s.cursor.column
  if opened then s.put t else s

def closeBlocksFrom (column : Int) (s : Scanner) : List Int → Scanner
  | [] => s
  | outer :: rest =>
    if column < s.indent then
      closeBlocksFrom column { s.put .blockEnd with indent := outer, outerIndents := rest } rest
    else s

/-- Closes every block that lies deeper than `column`. -/
def closeBlocks (s : Scanner) (column : Int) : Scanner :=
  if s.inFlow then s else closeBlocksFrom column s s.outerIndents

def documentMark (s : Scanner) (t : Token) : Option Scanner := do
  let s ← (s.closeBlocks (-1)).forgetKey
  some { s.put t with keyAllowed := false, cursor := s.cursor.skipMany 3 }

def openBracket (s : Scanner) (t : Token) : Option Scanner := do
  let s ← s.noteKey
  some { s.put t with
    outerPlaces := s.keyPlace :: s.outerPlaces
    keyPlace := none
    keyAllowed := true
    cursor := s.cursor.skip }

def closeBracket (s : Scanner) (t : Token) : Option Scanner := do
  let s ← s.forgetKey
  let s := match s.outerPlaces with
    | place :: rest => { s with keyPlace := place, outerPlaces := rest }
    | [] => s
  some { s.put t with keyAllowed := false, cursor := s.cursor.skip }

def separate (s : Scanner) : Option Scanner := do
  let s ← s.forgetKey
  some { s.put .separator with keyAllowed := true, cursor := s.cursor.skip }

def sequenceEntry (s : Scanner) : Option Scanner :=
  if !s.inFlow && !s.keyAllowed then none
  else do
    let s ← (s.openBlockHere .blockSequence).forgetKey
    some { s.put .entry with keyAllowed := true, cursor := s.cursor.skip }

def explicitKey (s : Scanner) : Option Scanner :=
  if !s.inFlow && !s.keyAllowed then none
  else do
    let s ← (s.openBlockHere .blockMapping).forgetKey
    some { s.put .key with keyAllowed := !s.inFlow, cursor := s.cursor.skip }

/-- A colon turns the place before it into a key, or stands for a value without one. -/
def mappingValue (s : Scanner) : Option Scanner :=
  match s.keyPlace with
  | some p =>
    let (opened, s) := s.openBlock p.column
    let filled := if opened then [Token.blockMapping, .key] else [.key]
    let s := { s with slots := s.slots.setIfInBounds p.slot filled, keyPlace := none }
    some { s.put .value with keyAllowed := false, cursor := s.cursor.skip }
  | none =>
    if !s.inFlow && !s.keyAllowed then none
    else
      let s := s.openBlockHere .blockMapping
      some { s.put .value with keyAllowed := !s.inFlow, cursor := s.cursor.skip }

def isNameChar (c : Char) : Bool :=
  c.isAlphanum || c == '-' || c == '_'

def endsName (cs : List Char) : Bool :=
  opensGap cs || cs.head?.any (['?', ':', ',', ']', '\x7d', '%', '@', '\x60'].contains ·)

/-- An anchor or a reference to one. -/
def nameToken (s : Scanner) (make : String → Token) : Option Scanner := do
  let s ← s.noteKey
  let c := s.cursor.skip
  let name := c.rest.takeWhile isNameChar
  let c := c.skipMany name.length
  if name.isEmpty || !endsName c.rest then none
  else some { s.put (make (String.ofList name)) with keyAllowed := false, cursor := c }

def quotedToken (s : Scanner) (single : Bool) : Option Scanner := do
  let s ← s.noteKey
  let (text, cursor) ← Scalar.quoted? s.fuel single s.cursor
  some { s.put (.scalar false text) with keyAllowed := false, cursor }

def blockToken (s : Scanner) (folded : Bool) : Option Scanner := do
  let s ← s.forgetKey
  let (text, cursor) ← Scalar.block? s.fuel folded s.indent s.cursor
  some { s.put (.scalar false text) with keyAllowed := true, cursor }

def plainToken (s : Scanner) : Option Scanner := do
  let s ← s.noteKey
  let (text, broken, cursor) ← Scalar.plain? s.fuel s.inFlow (s.indent + 1) s.cursor
  some { s.put (.scalar true text) with keyAllowed := broken, cursor }

def signs : List Char :=
  ['-', '?', ':', ',', '[', ']', '\x7b', '\x7d', '#', '&', '*', '!', '|', '>', '\'', '"', '%', '@',
    '\x60']

/-- Whether a plain scalar may start with `c` before `rest`. -/
def startsPlain (flow : Bool) (c : Char) (rest : List Char) : Bool :=
  (!signs.contains c && !isSpace c) || (c == '-' && !rest.head?.any isSpace) ||
    (!flow && (c == '?' || c == ':') && !opensGap rest)

/-- The token that starts with `c` before `rest`. Directives and tags are not understood. -/
def token (s : Scanner) (c : Char) (rest : List Char) : Option Scanner :=
  if s.cursor.column == 0 && c == '%' then none
  else if s.cursor.atMark '-' then s.documentMark .documentStart
  else if s.cursor.atMark '.' then s.documentMark .documentEnd
  else if c == '[' then s.openBracket .flowSequence
  else if c == '\x7b' then s.openBracket .flowMapping
  else if c == ']' then s.closeBracket .flowSequenceEnd
  else if c == '\x7d' then s.closeBracket .flowMappingEnd
  else if c == ',' then s.separate
  else if c == '-' && opensGap rest then s.sequenceEntry
  else if c == '?' && (s.inFlow || opensGap rest) then s.explicitKey
  else if c == ':' && (s.inFlow || opensGap rest) then s.mappingValue
  else if c == '*' then s.nameToken .reference
  else if c == '&' then s.nameToken .anchor
  else if c == '|' && !s.inFlow then s.blockToken false
  else if c == '>' && !s.inFlow then s.blockToken true
  else if c == '\'' then s.quotedToken true
  else if c == '"' then s.quotedToken false
  else if startsPlain s.inFlow c rest then s.plainToken
  else none

def finish (s : Scanner) : Option (List Token) := do
  let s ← (s.closeBlocks (-1)).forgetKey
  some s.slots.toList.flatten

def run : Nat → Scanner → Option (List Token)
  | 0, _ => none
  | fuel + 1, s => do
    let s ← (s.skipGap s.fuel).dropStale
    let s := s.closeBlocks s.cursor.column
    match s.cursor.rest with
    | [] => s.finish
    | c :: rest => run fuel (← s.token c rest)

end Scanner

/-- The tokens of a text. A byte order mark in front is passed over. -/
def Token.ofText? (text : String) : Option (List Token) :=
  let cs := match text.toList with
    | c :: rest => if c.toNat == 0xFEFF then rest else c :: rest
    | [] => []
  let fuel := cs.length + 1
  if cs.all isAdmitted then Scanner.run fuel { cursor := Cursor.start cs, fuel } else none

end SchemaCompiler.Yaml
