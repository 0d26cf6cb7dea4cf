import SchemaCompiler.CommandLine.Run
import SchemaCompiler.Files.Tree

/-! Runs as functions: on a tree of files, with what is said as text. -/

namespace SchemaCompiler

structure Session where
  files : FileTree := []
  output : String := ""
  warnings : String := ""

namespace Session

def ask {α : Type} (question : FileTree → α) : StateM Session α := do
  pure (question (← get).files)

/-- A change that fails leaves the files as they are. -/
def change (act : FileTree → Except FileError FileTree) : StateM Session (Except FileError Unit) := do
  let s ← get
  match act s.files with
  | .ok files =>
    set { s with files }
    pure (.ok ())
  | .error cause => pure (.error cause)

end Session

instance : Host (StateM Session) where
  isPresent := fun path => Session.ask (·.isPresent path)
  isDirectory := fun path => Session.ask (·.isDirectory path)
  read := fun path => Session.ask (·.read path)
  filesBelow := fun directory => Session.ask (·.filesBelow directory)
  makeDirectory := fun path => Session.change (·.makeDirectory path)
  write := fun path text => Session.change (·.write path text)
  say := fun text => modify fun s => { s with output := s.output ++ text }
  warn := fun text => modify fun s => { s with warnings := s.warnings ++ text }

end SchemaCompiler
