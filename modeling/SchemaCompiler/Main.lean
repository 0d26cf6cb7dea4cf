import SchemaCompiler.CommandLine.Run

/-! The program: runs on the files of the system. -/

namespace SchemaCompiler

namespace SystemFiles

/-- The number of a system error, which may come negated. -/
def systemNumber (code : UInt32) : Nat :=
  if code < 0x80000000 then code.toNat else (-code).toNat

def faultOf : IO.Error → FileError
  | .noFileOrDirectory _ _ _ => .missing
  | .alreadyExists _ _ _ => .exists
  | .inappropriateType _ code details =>
    if systemNumber code = 20 then .notADirectory
    else if systemNumber code = 21 then .isADirectory
    else .other details
  | .invalidArgument _ code details =>
    if systemNumber code = 36 then .nameTooLong else .other details
  | .permissionDenied _ code _ =>
    .other ("Permission denied (os error " ++ toString (systemNumber code) ++ ")")
  | e => .other (toString e)

def answer {α : Type} (act : IO α) : IO (Except FileError α) := do
  match ← act.toBaseIO with
  | .ok a => pure (.ok a)
  | .error e => pure (.error (faultOf e))

def read (path : String) : IO (Except FileError String) := do
  match ← answer (IO.FS.readBinFile path) with
  | .ok bytes => pure ((String.fromUTF8? bytes).elim (.error .notText) .ok)
  | .error e => pure (.error e)

def isPresent (path : String) : IO Bool := do
  match ← (IO.FS.realPath path).toBaseIO with
  | .ok place => place.pathExists
  | .error _ => pure false

def isDirectory (path : String) : IO Bool := do
  match ← (IO.FS.realPath path).toBaseIO with
  | .ok place => place.isDir
  | .error _ => pure false

partial def filesBelow (directory : String) : IO (List String) := do
  let entries ← (← IO.FS.realPath directory).readDir
  let sorted := entries.toList.mergeSort fun a b => a.fileName ≤ b.fileName
  let found ← sorted.mapM fun entry => do
    match (← entry.path.symlinkMetadata).type with
    | .dir => filesBelow (Path.join directory entry.fileName)
    | .file => pure [Path.join directory entry.fileName]
    | _ => pure []
  pure found.flatten

end SystemFiles

instance : Host IO where
  isPresent := SystemFiles.isPresent
  isDirectory := SystemFiles.isDirectory
  read := SystemFiles.read
  filesBelow := fun directory => SystemFiles.answer (SystemFiles.filesBelow directory)
  makeDirectory := fun path => SystemFiles.answer (IO.FS.createDir path)
  write := fun path text => SystemFiles.answer (IO.FS.writeFile path text)
  say := fun text => do (← IO.getStdout).putStr text
  warn := fun text => do (← IO.getStderr).putStr text

end SchemaCompiler

def main (arguments : List String) : IO UInt32 :=
  SchemaCompiler.runProgram arguments
