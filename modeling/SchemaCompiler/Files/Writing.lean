import SchemaCompiler.Emission.FixedModule
import SchemaCompiler.Files.Path
import SchemaCompiler.Files.Store
import SchemaCompiler.Model.Finalize

/-! Writing the modules of a finalized model: one for each group in the order of the groups, then the
base module and the index. -/

namespace SchemaCompiler

variable {m : Type → Type} [Monad m] [FileStore m]

structure ModuleText where
  name : String
  text : Except Error String

namespace Model

/-- The modules of a model, with the reason where one has no text. -/
def modules (model : Model) (apiModule : String) : List ModuleText :=
  let groups := model.finalizedGroups.map Prod.fst
  groups.map (fun key => ⟨key.moduleName, Emission.groupText model apiModule key⟩) ++
    [⟨"base", .ok Emission.baseText⟩,
      ⟨"mod", .ok (Emission.indexText (groups.map GroupKey.moduleName))⟩]

/-- The first group that has not been finalized. -/
def unfinished? (model : Model) : Option GroupKey :=
  model.keys.find? fun key => (model.finalized? key).isNone

end Model

/-- What a store answers to a change, with the fault that a failure amounts to. -/
def stored (fault : FileError → OutputFault) (answer : m (Except FileError Unit)) :
    ExceptT Error m Unit := do
  match ← answer with
  | .ok () => pure ()
  | .error cause => throw (.unwritten (fault cause))

namespace ModuleText

def path (directory : String) (t : ModuleText) : String :=
  Path.join directory (t.name ++ ".rs")

/-- Writes a module and gives the path of its file. -/
def write (directory : String) (t : ModuleText) : ExceptT Error m String := do
  match t.text with
  | .error e => throw e
  | .ok text =>
    stored (.file (t.path directory)) (FileStore.write (t.path directory) text)
    pure (t.path directory)

end ModuleText

/-- Writes the modules of a model into a directory, up to the first that cannot be written, and
gives the paths of the files. -/
def Model.write (model : Model) (apiModule directory : String) : ExceptT Error m (List String) := do
  match model.unfinished? with
  | some key => throw (.unwritten (.unfinished key.display))
  | none =>
    stored .directory (FileStore.makeDirectories directory)
    (model.modules apiModule).mapM (ModuleText.write directory)

end SchemaCompiler
