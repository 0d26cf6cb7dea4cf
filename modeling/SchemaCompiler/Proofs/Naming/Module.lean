import SchemaCompiler.Naming.Module
import SchemaCompiler.Proofs.Naming.Letter

/-! The characters of module names, and names that step aside of reserved words. -/

namespace SchemaCompiler.Naming

/-- A letter or digit of ASCII, or an underscore. -/
def IsModuleChar (c : Char) : Prop := c.isAlphanum = true ∨ c = '_'

instance (c : Char) : Decidable (IsModuleChar c) := inferInstanceAs (Decidable (_ ∨ _))

theorem isModuleChar_moduleLetters {cs written : List Char} (hw : ∀ c ∈ written, IsModuleChar c) :
    ∀ c ∈ moduleLetters cs written, IsModuleChar c := by
  induction cs generalizing written with
  | nil => exact hw
  | cons d rest ih =>
    rw [moduleLetters]
    split
    · next hd =>
      exact ih (List.forall_mem_cons.mpr ⟨.inl (isAlphanum_toLower hd), hw⟩)
    · split
      · exact ih hw
      · exact ih (List.forall_mem_cons.mpr ⟨.inr rfl, hw⟩)

theorem stepAside_eq (cs : List Char) : stepAside (String.ofList cs) =
    String.ofList (cs ++ if isReserved (String.ofList cs) then ['_'] else []) := by
  rw [stepAside]
  split
  · rw [← String.toList_inj]
    simp
  · simp

theorem isModuleChar_moduleName (group : String) (version : Option String) :
    ∀ c ∈ (moduleName group version).toList, IsModuleChar c := by
  have hdrop : ∀ {cs : List Char}, (∀ c ∈ cs, IsModuleChar c) →
      ∀ c ∈ dropUnderscores cs, IsModuleChar c :=
    fun h c hc => h c ((List.dropWhile_sublist _).subset hc)
  have haside : ∀ {name : String}, (∀ c ∈ name.toList, IsModuleChar c) →
      ∀ c ∈ (stepAside name).toList, IsModuleChar c := by
    intro name h c hc
    rw [stepAside] at hc
    split at hc
    · rw [String.toList_push, List.mem_append, List.mem_singleton] at hc
      exact hc.elim (h c) .inr
    · exact h c hc
  refine haside ?_
  rw [String.toList_ofList]
  refine hdrop fun c hc => ?_
  rw [List.mem_reverse] at hc
  exact hdrop (isModuleChar_moduleLetters (by simp)) c hc

end SchemaCompiler.Naming
