import SchemaCompiler.Text.Uppercase

/-! Type names: what an object declared under a property is called. The name is cut at separators,
each piece is put into the singular and capitalized, and the pieces are joined. -/

namespace SchemaCompiler.Naming

/-- Words that end in "s" in the singular. -/
def singularWords : List String := [
  "status", "tls", "kerberos", "dns", "os", "ingress", "egress", "alias", "canvas", "https",
  "sds", "vs", "gis", "cors"]

/-- Abbreviations that type names begin with in capitals. -/
def acronyms : List (List Char) := [['t', 'l', 's'], ['i', 'p', 'a', 'm'], ['a', 'p', 'i']]

def byteLength (cs : List Char) : Nat :=
  cs.foldl (fun n c => n + c.utf8Size) 0

def lowered (cs : List Char) : List Char :=
  cs.map Char.toLower

/-- Whether `word` ends in `ending`, an ASCII text in lower case, in either case. -/
def endsIn (ending : String) (word : List Char) : Bool :=
  ending.toList.isSuffixOf (lowered word)

def dropLast (n : Nat) (word : List Char) : List Char :=
  word.take (word.length - n)

def singular (word : List Char) : List Char :=
  if singularWords.contains (String.ofList (lowered word)) || endsIn "ss" word || endsIn "us" word
  then word
  else if endsIn "ies" word && byteLength word > 3 then dropLast 3 word ++ ['y']
  else if (endsIn "sses" word || endsIn "xes" word) && byteLength word > 3 then dropLast 2 word
  else if endsIn "s" word && byteLength word > 1 then dropLast 1 word
  else word

def capitalize : List Char → List Char
  | [] => []
  | c :: rest => Text.uppercase c ++ rest

/-- A word of at most three bytes is taken for an abbreviation. -/
def typeWord (word : List Char) : List Char :=
  if byteLength word ≤ 3 then word.map Char.toUpper
  else
    match acronyms.find? fun a => a.isPrefixOf (lowered word) with
    | some a => a.map Char.toUpper ++ capitalize (word.drop a.length)
    | none => capitalize word

def isSeparator (c : Char) : Bool :=
  c == '-' || c == '_' || c == '.' || c == '/'

/-- The non-empty pieces between separators. -/
def segments (name : List Char) : List (List Char) :=
  (name.splitOnP isSeparator).filter (!·.isEmpty)

def dropDollars (name : List Char) : List Char :=
  name.dropWhile (· == '$')

def segmentName (segment : List Char) : List Char :=
  match dropDollars segment with
  | [] => []
  | word => typeWord (singular word)

def typeLetters (name : List Char) : List Char :=
  match segments (dropDollars name) with
  | [word] => typeWord (singular word)
  | words => words.flatMap segmentName

def typeName (property : String) : String :=
  String.ofList (typeLetters property.toList)

end SchemaCompiler.Naming
