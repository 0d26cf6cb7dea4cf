import SchemaCompiler.Proofs.Import.Queue
import SchemaCompiler.Proofs.Model.Resolve

/-! How deep references are followed. A definition that becomes a synonym is remembered before the
references in it are followed, so that every further level meets a further definition. -/

namespace SchemaCompiler

namespace Importer

variable {c : ImportSettings} {i j : Importer}

/-- How many definitions have not been met yet. -/
def unresolved (c : ImportSettings) (i : Importer) : Nat :=
  (Table.keys c.definitions).countP fun key => (Table.get? key i.resolved).isNone

theorem unresolved_le (c : ImportSettings) (i : Importer) : unresolved c i ≤ c.definitions.length := by
  have hlength : (Table.keys c.definitions).length = c.definitions.length := by simp [Table.keys]
  rw [← hlength]
  exact List.countP_le_length

theorem isNone_of_remember {key k : String} {e : TypeExpr}
    (h : (Table.get? k (i.remember key e).resolved).isNone = true) :
    k ≠ key ∧ (Table.get? k i.resolved).isNone = true := by
  simp only [remember, Table.get?_insert] at h
  split at h
  · cases h
  · next hne => exact ⟨hne, h⟩

theorem unresolved_remember_le (key : String) (e : TypeExpr) :
    unresolved c (i.remember key e) ≤ unresolved c i :=
  List.countP_mono_left fun _ _ hk => (isNone_of_remember hk).2

theorem unresolved_remember_lt {key : String} {definition : Schema}
    (hdefined : Table.get? key c.definitions = some definition)
    (hnew : Table.get? key i.resolved = none) (e : TypeExpr) :
    unresolved c (i.remember key e) < unresolved c i := by
  have hmem : key ∈ Table.keys c.definitions :=
    List.mem_map_of_mem (f := Prod.fst) (Table.mem_of_get? hdefined)
  refine countP_lt_countP (fun _ _ hk => (isNone_of_remember hk).2) hmem ?_ (by simp [hnew])
  simp [remember, Table.get?_insert]

/-! Ways to lead on from a reference that agree wherever fewer definitions are left. -/

variable {follow follow' : Importer → String → Except Error TypeExpr × Importer}

theorem importWith_congr (h : ∀ path, follow i path = follow' i path) (parent : TypeId)
    (property : String) (typeName : Option String) (schema : Schema) :
    importWith c follow i parent property typeName schema =
      importWith c follow' i parent property typeName schema := by
  simp only [importWith, h]

theorem importDefinition_congr
    (h : ∀ j path, unresolved c j < unresolved c i → follow j path = follow' j path) {key : String}
    {definition : Schema} (hdefined : Table.get? key c.definitions = some definition)
    (hnew : Table.get? key i.resolved = none) (q : QualifiedName) :
    importDefinition c follow i key q definition = importDefinition c follow' i key q definition := by
  rw [importDefinition, importDefinition]
  split
  · rfl
  · simp only
    split
    · rfl
    · rw [importWith_congr fun path => h _ path ?_]
      exact unresolved_remember_lt (i := { i with model := _ }) hdefined hnew _

theorem importReference_congr
    (h : ∀ j path, unresolved c j < unresolved c i → follow j path = follow' j path)
    (reference : String) :
    importReference c follow i reference = importReference c follow' i reference := by
  rw [importReference, importReference]
  split
  · rfl
  · next hnew =>
    split
    · rfl
    · split
      · rfl
      · rfl
      · next definition _ hdefined => exact importDefinition_congr h hdefined hnew _

/-- It makes no difference how deep references may be followed once it is deeper than there are
definitions left to be met. -/
theorem followRef_depth {depth depth' : Nat} (h : unresolved c i < depth)
    (h' : unresolved c i < depth') (reference : String) :
    followRef c depth i reference = followRef c depth' i reference := by
  induction depth generalizing depth' i reference with
  | zero => exact absurd h (Nat.not_lt_zero _)
  | succ depth ih =>
    cases depth' with
    | zero => exact absurd h' (Nat.not_lt_zero _)
    | succ depth' =>
      rw [followRef, followRef]
      refine importReference_congr (fun j path hj => ih ?_ ?_ path) reference
      · omega
      · omega

theorem followRef_eq_importRef {depth : Nat} (h : c.definitions.length < depth) (i : Importer)
    (reference : String) : followRef c depth i reference = i.importRef c reference := by
  have hle := unresolved_le c i
  exact followRef_depth (by omega) (by omega) reference

end Importer

end SchemaCompiler
