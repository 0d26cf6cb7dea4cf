import SchemaCompiler.Naming.Reserved

/-! Module names: a group and its version as one identifier of the emitted language. -/

namespace SchemaCompiler.Naming

/-- ASCII letters and digits in lower case, and one underscore for each stretch of others. -/
def moduleLetters : List Char → List Char → List Char
  | [], written => written
  | c :: rest, written =>
    if c.isAlphanum then moduleLetters rest (c.toLower :: written)
    else if written.head? == some '_' then moduleLetters rest written
    else moduleLetters rest ('_' :: written)

def dropUnderscores (cs : List Char) : List Char :=
  cs.dropWhile (· == '_')

def moduleName (group : String) (version : Option String) : String :=
  let full := match version with
    | some v => group ++ "_" ++ v
    | none => group
  stepAside (String.ofList (dropUnderscores (dropUnderscores (moduleLetters full.toList [])).reverse))

end SchemaCompiler.Naming
