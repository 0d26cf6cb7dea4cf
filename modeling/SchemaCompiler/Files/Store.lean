import SchemaCompiler.Error
import SchemaCompiler.Files.Path

/-! What a run needs of the files around it. Reading and writing may fail; questions about what is
there cannot. -/

namespace SchemaCompiler

class FileStore (m : Type → Type) where
  /-- Whether something is found under the path. -/
  isPresent (path : String) : m Bool
  isDirectory (path : String) : m Bool
  read (path : String) : m (Except FileError String)
  /-- The files below a directory at any depth. They come by name, those of an inner directory in
  the place of that directory. -/
  filesBelow (directory : String) : m (Except FileError (List String))
  /-- Makes a directory in one that is there. -/
  makeDirectory (path : String) : m (Except FileError Unit)
  write (path : String) (text : String) : m (Except FileError Unit)

namespace FileStore

variable {m : Type → Type} [Monad m] [FileStore m]

/-- What became of making a directory, where one that is there already will do. -/
def orPresent (path : String) (made : Except FileError Unit) : m (Except FileError Unit) := do
  match made with
  | .ok () => pure (.ok ())
  | .error cause => if ← isDirectory path then pure (.ok ()) else pure (.error cause)

/-- Makes a directory and at most `depth` of those above it, as far as they are missing. -/
def makeDirectoriesTo : Nat → String → m (Except FileError Unit)
  | 0, _ => pure (.ok ())
  | depth + 1, path =>
    if path.isEmpty then pure (.ok ())
    else do
      match ← makeDirectory path with
      | .error .missing =>
        match ← makeDirectoriesTo depth (Path.parent path) with
        | .ok () => orPresent path (← makeDirectory path)
        | .error cause => pure (.error cause)
      | made => orPresent path made

/-- Makes a directory and those above it, as far as they are missing. -/
def makeDirectories (path : String) : m (Except FileError Unit) :=
  makeDirectoriesTo ((Path.segments path).length + 1) path

end FileStore

end SchemaCompiler
