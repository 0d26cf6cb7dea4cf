import Mathlib.Logic.ExistsUnique
import SchemaCompiler.Version

/-! The order of versions is total, whatever the texts are, and no two versions stand level in it. Sorting
versions and looking for the most stable one have one outcome each. -/

namespace SchemaCompiler.Version

variable {a b : String} {versions : List String}

/-- What is compared, in this order. A version without a mark is the more stable one, so the marks are
compared the other way round. -/
theorem order_eq_compareLex : order = compareLex (compareOn fun v => (parts v).major)
    (compareLex (fun a b => compareOn (fun v => (parts v).marked) b a) compare) := rfl

instance : Std.TransCmp order := by
  have hmarked : Std.TransCmp fun a b => compareOn (fun v => (parts v).marked) b a :=
    Std.TransCmp.opposite
  rw [order_eq_compareLex]
  infer_instance

instance : Std.LawfulEqCmp order where
  compare_self := Std.ReflCmp.compare_self
  eq_of_compare := by
    intro a b h
    rw [order_eq_compareLex] at h
    obtain ⟨-, hrest⟩ := Ordering.then_eq_eq.mp h
    obtain ⟨-, htext⟩ := Ordering.then_eq_eq.mp hrest
    exact Std.LawfulEqCmp.eq_of_compare htext

/-- A version is more stable than another one by its number, then by having no mark, then by its text. -/
theorem order_eq_gt_iff : order a b = .gt ↔ (parts b).major < (parts a).major ∨
    (parts a).major = (parts b).major ∧ ((parts a).marked = false ∧ (parts b).marked = true ∨
      (parts a).marked = (parts b).marked ∧ b < a) := by
  have hmajor : compare (parts a).major (parts b).major = .gt ↔ (parts b).major < (parts a).major :=
    Nat.compare_eq_gt
  have hlevel : compare (parts a).major (parts b).major = .eq ↔ (parts a).major = (parts b).major :=
    Nat.compare_eq_eq
  have htext : compare a b = .gt ↔ b < a := Std.OrientedCmp.gt_iff_lt.trans compareOfLessAndEq_eq_lt
  have hmarked : ∀ p q : Bool, (compare q p = .gt ↔ p = false ∧ q = true) ∧ (compare q p = .eq ↔ p = q) := by
    decide
  rw [order_eq_compareLex, compareLex, compareLex, Ordering.then_eq_gt, Ordering.then_eq_gt]
  simp only [compareOn, hmajor, hlevel, htext, hmarked]

theorem isLE_total (a b : String) : (order a b).isLE = true ∨ (order b a).isLE = true := by
  have hswap : order b a = (order a b).swap := Std.OrientedCmp.eq_swap
  rw [hswap]
  cases order a b <;> simp

theorem eq_of_isLE (hab : (order a b).isLE = true) (hba : (order b a).isLE = true) : a = b :=
  Std.LawfulEqCmp.eq_of_compare (Std.OrientedCmp.isLE_antisymm hab hba)

theorem existsUnique_sorted (versions : List String) : ∃! sorted : List String,
    sorted.Perm versions ∧ sorted.Pairwise fun v w => (order v w).isLE = true := by
  have hsorted : (versions.mergeSort fun v w => (order v w).isLE).Pairwise
      fun v w => (order v w).isLE = true :=
    List.pairwise_mergeSort (fun _ _ _ => Std.TransCmp.isLE_trans)
      (fun v w => Bool.or_eq_true_iff.mpr (isLE_total v w)) versions
  have hperm := List.mergeSort_perm versions fun v w => (order v w).isLE
  refine ⟨_, ⟨hperm, hsorted⟩, fun other ⟨hother, hordered⟩ => ?_⟩
  exact (hother.trans hperm.symm).eq_of_pairwise (fun _ _ _ _ => eq_of_isLE) hordered hsorted

/-- Of any versions there is one that no other is more stable than. -/
theorem exists_mostStable (h : versions ≠ []) :
    ∃ v ∈ versions, ∀ w ∈ versions, (order w v).isLE = true := by
  induction versions with
  | nil => exact absurd rfl h
  | cons u rest ih =>
    have hself : (order u u).isLE = true := Std.ReflCmp.isLE_rfl
    by_cases hrest : rest = []
    · exact ⟨u, List.mem_cons_self, by simp [hrest, hself]⟩
    obtain ⟨v, hv, hmost⟩ := ih hrest
    rcases isLE_total u v with huv | hvu
    · exact ⟨v, List.mem_cons_of_mem _ hv, List.forall_mem_cons.mpr ⟨huv, hmost⟩⟩
    · exact ⟨u, List.mem_cons_self,
        List.forall_mem_cons.mpr ⟨hself, fun w hw => Std.TransCmp.isLE_trans (hmost w hw) hvu⟩⟩

/-- Whatever the texts are, swapping two versions turns the outcome round, being more stable is
transitive, and only a version itself is level with it. So any versions can be sorted in one way only,
and just one of them is the most stable. -/
theorem order_strict_total (a b c : String) (versions : List String) :
    (order a b = .gt ↔ (parts b).major < (parts a).major ∨
      (parts a).major = (parts b).major ∧ ((parts a).marked = false ∧ (parts b).marked = true ∨
        (parts a).marked = (parts b).marked ∧ b < a)) ∧
      order b a = (order a b).swap ∧
      (order a b = .gt → order b c = .gt → order a c = .gt) ∧
      ((order a b).isLE = true → (order b c).isLE = true → (order a c).isLE = true) ∧
      (order a b = .eq ↔ a = b) ∧
      (∃! sorted : List String, sorted.Perm versions ∧
        sorted.Pairwise fun v w => (order v w).isLE = true) ∧
      (versions ≠ [] → ∃! v, v ∈ versions ∧ ∀ w ∈ versions, (order w v).isLE = true) := by
  refine ⟨order_eq_gt_iff, Std.OrientedCmp.eq_swap, Std.TransCmp.gt_trans,
    Std.TransCmp.isLE_trans, Std.LawfulEqCmp.compare_eq_iff_eq, existsUnique_sorted versions, fun hne => ?_⟩
  obtain ⟨v, hv, hmost⟩ := exists_mostStable hne
  exact ⟨v, ⟨hv, hmost⟩, fun w ⟨hw, hstable⟩ => eq_of_isLE (hmost w hw) (hstable v hv)⟩

/-- A number beyond 64 bits counts as zero, and so does none. -/
example : order "v18446744073709551615" "v2" = .gt ∧ order "v18446744073709551616" "v2beta1" = .lt ∧
    order "stable" "v0alpha" = .gt := by decide

end SchemaCompiler.Version
