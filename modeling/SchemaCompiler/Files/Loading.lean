import SchemaCompiler.Annotation
import SchemaCompiler.CustomResource
import SchemaCompiler.Files.Path
import SchemaCompiler.Files.Store
import SchemaCompiler.OpenApi

/-! Loading what a run works on from its files. -/

namespace SchemaCompiler

variable {m : Type → Type} [Monad m] [FileStore m]

/-- What a store answers, with the fault that a failure amounts to. -/
def loaded {α : Type} (fault : FileError → ReadFault) (answer : m (Except FileError α)) :
    ExceptT Error m α := do
  match ← answer with
  | .ok a => pure a
  | .error cause => throw (.unread (fault cause))

def loadText (fault : FileError → ReadFault) (path : String) : ExceptT Error m String :=
  loaded fault (FileStore.read path)

/-- The files to be read below a directory. -/
def documentsBelow (directory : String) : ExceptT Error m (List String) := do
  let files ← loaded (.walk directory) (FileStore.filesBelow directory)
  pure (files.filter Path.holdsDocument)

namespace Config

def load (path : String) : ExceptT Error m Config := do
  match ofText (← loadText (.config path) path) with
  | .ok config => pure config
  | .error _ => throw (.unread (.configNotYaml path))

end Config

namespace Annotations

def addFile (a : Annotations) (path : String) : ExceptT Error m Annotations := do
  match Document.ofText? (← loadText (.annotations path) path) with
  | some d => pure (a.merge d)
  | none => throw (.unread (.annotationsNotYaml path))

/-- Annotations from a file, or from all files below a directory, of which a later one replaces
what an earlier one says. -/
def load (path : String) : ExceptT Error m Annotations := do
  if ← (FileStore.isDirectory path : m Bool) then (← documentsBelow path).foldlM addFile []
  else addFile [] path

end Annotations

namespace OpenApiDocument

def load (path : String) : ExceptT Error m OpenApiDocument := do
  let text ← loadText (.document path) path
  MonadExcept.ofExcept (if Path.isYaml path then ofYaml text else ofJson text)

end OpenApiDocument

namespace CustomResource

def loadFile (path : String) : ExceptT Error m (List CustomResource) := do
  MonadExcept.ofExcept (ofText (← loadText (.manifest path) path))

/-- The definitions in a file, or in all files below a directory. In a directory, files that cannot
be read or have another form are passed over. -/
def load (path : String) : ExceptT Error m (List CustomResource) := do
  if ← (FileStore.isDirectory path : m Bool) then
    let found ← (← documentsBelow path).mapM fun file => tryCatch (loadFile file) fun _ => pure []
    pure found.flatten
  else loadFile path

def loadAll (paths : List String) : ExceptT Error m (List CustomResource) := do
  pure (← paths.mapM load).flatten

end CustomResource

end SchemaCompiler
