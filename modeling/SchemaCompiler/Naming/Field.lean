import SchemaCompiler.Naming.Reserved

/-! Field names: a property name in lower case with underscores between its words. Letters and
digits are the ASCII ones; every other character only separates words. -/

namespace SchemaCompiler.Naming

/-- Whether what follows a capital begins with a plural "s", one that no lower-case letter follows. -/
def pluralTail : List Char → Bool
  | 's' :: next :: _ => !next.isLower
  | ['s'] => true
  | _ => false

/-- Whether a capital after `previous` and before `rest` opens a new word. Within a run of capitals
only the last one does, and only if a word follows it and not a plural "s". -/
def opensWord (previous : Char) (rest : List Char) : Bool :=
  if previous.isLower || previous.isDigit then true
  else if !previous.isUpper then false
  else
    match rest with
    | next :: _ => next.isLower && !pluralTail rest
    | [] => false

/-- One character of the name, written in front of the field name built so far in reverse. -/
def fieldStep (previous : Option Char) (c : Char) (rest written : List Char) : List Char :=
  if c.isUpper then
    let opens := previous.any (opensWord · rest) && written.head? != some '_'
    c.toLower :: (if opens then '_' :: written else written)
  else if c.isAlphanum then c :: written
  else if written.isEmpty || written.head? == some '_' then written
  else '_' :: written

def fieldLetters (previous : Option Char) : List Char → List Char → List Char
  | [], written => (written.dropWhile (· == '_')).reverse
  | c :: rest, written => fieldLetters (some c) rest (fieldStep previous c rest written)

/-- The field name of a property. A leading dollar sign, which marks a property of the schema
language itself, leaves a trailing underscore, and so does a reserved word. -/
def fieldName (name : String) : String :=
  match name.toList with
  | '$' :: body => String.ofList (fieldLetters none body [] ++ ['_'])
  | body => stepAside (String.ofList (fieldLetters none body []))

end SchemaCompiler.Naming
