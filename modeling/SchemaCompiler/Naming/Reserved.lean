/-! The words of the emitted language that cannot be names. -/

namespace SchemaCompiler.Naming

def reservedWords : List String := [
  "abstract", "as", "async", "await", "become", "box", "break", "const", "continue", "crate",
  "do", "dyn", "else", "enum", "extern", "false", "final", "fn", "for", "gen", "if", "impl",
  "in", "let", "loop", "macro", "match", "mod", "move", "mut", "override", "priv", "pub", "ref",
  "return", "self", "static", "struct", "super", "trait", "true", "try", "type", "typeof",
  "unsafe", "unsized", "use", "virtual", "where", "while", "yield"]

def isReserved (name : String) : Bool :=
  reservedWords.contains name

/-- A reserved word steps aside by a trailing underscore. -/
def stepAside (name : String) : String :=
  if isReserved name then name.push '_' else name

end SchemaCompiler.Naming
