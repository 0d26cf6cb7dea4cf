import SchemaCompiler.Files.Loading
import SchemaCompiler.Proofs.Annotation

/-! Annotations from files. The files are read one after the other, and what is loaded is merged from
well-formed documents, one for each file. -/

namespace SchemaCompiler.Annotations

variable {m : Type → Type} [Monad m] [FileStore m]

def Document.load (path : String) : ExceptT Error m {d : Document // d.WellFormed} := do
  let text ← loadText (.annotations path) path
  match h : Document.ofText? text with
  | some d => pure ⟨d, Document.wellFormed_ofText? h⟩
  | none => throw (.unread (.annotationsNotYaml path))

/-- The files that annotations are read from, in order. -/
def filesOf (path : String) : ExceptT Error m (List String) := do
  if ← (FileStore.isDirectory path : m Bool) then documentsBelow path else pure [path]

variable [LawfulMonad m]

theorem addFile_eq (a : Annotations) (path : String) :
    (addFile a path : ExceptT Error m Annotations) = (fun d => a.merge d.1) <$> Document.load path := by
  rw [addFile, Document.load, map_bind]
  refine bind_congr fun text => ?_
  split
  · next d hd =>
    split
    · next d' hd' => simp [Option.some.inj (hd'.symm.trans hd)]
    · next hd' => cases hd'.symm.trans hd
  · next hd =>
    split
    · next d' hd' => cases hd'.symm.trans hd
    · exact ExceptT.ext (by simp)

theorem foldlM_addFile (paths : List String) (a : Annotations) :
    (paths.foldlM addFile a : ExceptT Error m Annotations) =
      (fun docs => docs.unattach.foldl merge a) <$> paths.mapM Document.load := by
  induction paths generalizing a with
  | nil => simp
  | cons path paths ih =>
    rw [List.foldlM_cons, List.mapM_cons, addFile_eq]
    simp [ih]

theorem load_eq (path : String) :
    (load path : ExceptT Error m Annotations) = (fun docs => docs.unattach.foldl merge []) <$>
      (filesOf path >>= List.mapM Document.load) := by
  rw [load, filesOf, bind_assoc, map_bind]
  refine bind_congr fun directory => ?_
  cases directory with
  | true => simp [foldlM_addFile]
  | false => simp [addFile_eq]

/-- The last file that gives an override for a property decides. -/
theorem inEffect?_load (path type property : String) :
    ((inEffect? · type property) <$> load path : ExceptT Error m (Option PropertyOverride)) =
      (fun docs => lastGiven? docs.unattach type property) <$>
        (filesOf path >>= List.mapM Document.load) := by
  rw [load_eq, Functor.map_map]
  refine map_congr fun docs => ?_
  have hdocs : ∀ d ∈ docs.unattach, d.WellFormed := fun d hd => (List.mem_unattach.mp hd).1
  rw [inEffect?_merged hdocs]
  exact Option.or_none

end SchemaCompiler.Annotations
