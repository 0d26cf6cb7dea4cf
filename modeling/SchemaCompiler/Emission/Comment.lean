import SchemaCompiler.Text.Basic

/-! Descriptions as comments, one comment line for each line of the trimmed text. -/

namespace SchemaCompiler

def commentLine (indent : Nat) (line : List Char) : String :=
  let text := Text.trimEnd line
  String.ofList (List.replicate indent ' ' ++ ['/', '/', '/'] ++
    if text.isEmpty then [] else ' ' :: text)

def commentLines (indent : Nat) : Option String → List String
  | some description => (Text.lines (Text.trim description.toList)).map (commentLine indent)
  | none => []

end SchemaCompiler
