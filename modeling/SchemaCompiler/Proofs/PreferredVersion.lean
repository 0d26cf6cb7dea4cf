import Mathlib.Data.List.Induction
import Mathlib.Data.List.Nodup
import SchemaCompiler.CustomResource
import SchemaCompiler.Proofs.Version

/-! The version that a custom resource is compiled from. It is the most stable one of those that are served
and have a schema, so that other versions do not matter, nor does the order of versions where no two of
these share a name. -/

namespace SchemaCompiler.CustomResource

variable {v w : ResourceVersion} {versions : List ResourceVersion}

/-- None of the versions is more stable than `v`, which is one of them. -/
structure IsMostStable (versions : List ResourceVersion) (v : ResourceVersion) : Prop where
  mem : v ∈ versions
  stable : ∀ w ∈ versions, Version.order w.name v.name ≠ .gt

theorem mostStable?_concat (versions : List ResourceVersion) (v : ResourceVersion) :
    mostStable? (versions ++ [v]) = some (match mostStable? versions with
      | some b => if Version.order b.name v.name == .gt then b else v
      | none => v) := by
  have hfold : mostStable? (versions ++ [v]) = match mostStable? versions with
      | some b => if Version.order b.name v.name == .gt then some b else some v
      | none => some v := by
    rw [mostStable?, List.foldl_append]
    rfl
  rw [hfold]
  cases mostStable? versions with
  | none => rfl
  | some b => exact (apply_ite some _ _ _).symm

theorem mostStable?_eq_none_iff : mostStable? versions = none ↔ versions = [] := by
  cases versions using List.reverseRecOn with
  | nil => exact iff_of_true rfl rfl
  | append_singleton versions v =>
    rw [mostStable?_concat]
    simp

/-- One version more, which counts if no other one is more stable. -/
theorem IsMostStable.concat (h : IsMostStable versions w) (v : ResourceVersion) :
    IsMostStable (versions ++ [v]) (if Version.order w.name v.name == .gt then w else v) := by
  have hall : ∀ {p : ResourceVersion → Prop}, (∀ u ∈ versions, p u) → p v →
      ∀ u ∈ versions ++ [v], p u := by
    intro p hold hnew u hu
    rcases List.mem_append.mp hu with hu | hu
    · exact hold u hu
    · exact List.mem_singleton.mp hu ▸ hnew
  split
  · next hw =>
    refine ⟨List.mem_append_left _ h.mem, hall h.stable fun hgt => ?_⟩
    rw [Std.OrientedCmp.gt_iff_lt, eq_of_beq hw] at hgt
    cases hgt
  · next hw =>
    have hself : Version.order v.name v.name = .eq := Std.ReflCmp.compare_self
    refine ⟨by simp, hall (fun u hu hgt => ?_) (by simp [hself])⟩
    -- What is more stable than `v` would be more stable than `w` too.
    have hle : (Version.order w.name v.name).isLE = true := by
      rw [Ordering.isLE_iff_ne_gt]
      simpa using hw
    have hlt : Version.order v.name u.name = .lt := Std.OrientedCmp.gt_iff_lt.mp hgt
    exact h.stable u hu (Std.OrientedCmp.gt_of_lt (Std.TransCmp.lt_of_isLE_of_lt hle hlt))

theorem isMostStable_of_mostStable? (h : mostStable? versions = some v) : IsMostStable versions v := by
  induction versions using List.reverseRecOn generalizing v with
  | nil => cases h
  | append_singleton versions u ih =>
    rw [mostStable?_concat] at h
    obtain rfl := Option.some.inj h
    cases hbest : mostStable? versions with
    | none =>
      have hself : Version.order u.name u.name = .eq := Std.ReflCmp.compare_self
      rw [mostStable?_eq_none_iff.mp hbest]
      exact ⟨by simp, by simp [hself]⟩
    | some w => exact (ih hbest).concat u

theorem IsMostStable.name_eq (hv : IsMostStable versions v) (hw : IsMostStable versions w) :
    v.name = w.name := by
  have hle := hw.stable v hv.mem
  have hge := hv.stable w hw.mem
  rw [ne_eq, Std.OrientedCmp.gt_iff_lt] at hge
  cases horder : Version.order v.name w.name with
  | lt => exact absurd horder hge
  | eq => exact Std.LawfulEqCmp.eq_of_compare horder
  | gt => exact absurd horder hle

/-- The versions that a resource can be compiled from. -/
def eligible (r : CustomResource) : List ResourceVersion := r.versions.filter isEligible

theorem mem_eligible {r : CustomResource} :
    v ∈ r.eligible ↔ v ∈ r.versions ∧ v.served = true ∧ v.schema.isSome = true := by
  rw [eligible, List.mem_filter, isEligible, Bool.and_eq_true]

/-- A resource is compiled from a version that is served and has a schema, if there is one, and from one
that none of these is more stable than. Where no two of these share a name, it is the only such version,
and it stays the same as long as they do: in whatever order they are listed, and whichever versions are
listed that are not served or have no schema. -/
theorem preferredVersion?_mostStable (r : CustomResource) :
    (r.preferredVersion?.isSome = true ↔
      ∃ v ∈ r.versions, v.served = true ∧ v.schema.isSome = true) ∧
    (∀ v, r.preferredVersion? = some v → IsMostStable r.eligible v) ∧
    ((r.eligible.map ResourceVersion.name).Nodup →
      (∀ v, r.preferredVersion? = some v ↔ IsMostStable r.eligible v) ∧
      ∀ r' : CustomResource, (∀ v, v ∈ r'.eligible ↔ v ∈ r.eligible) →
        r'.preferredVersion? = r.preferredVersion?) := by
  have hsome : ∀ r : CustomResource, r.preferredVersion?.isSome = true ↔ ∃ v, v ∈ r.eligible := by
    intro r
    rw [Option.isSome_iff_ne_none, preferredVersion?, ne_eq, mostStable?_eq_none_iff, ← eligible,
      List.eq_nil_iff_forall_not_mem, not_forall_not]
  have hstable : ∀ {r : CustomResource} {v}, r.preferredVersion? = some v → IsMostStable r.eligible v :=
    isMostStable_of_mostStable?
  refine ⟨(hsome r).trans (exists_congr fun v => mem_eligible), fun v => hstable, fun hnodup => ?_⟩
  have hunique : ∀ v, IsMostStable r.eligible v → r.preferredVersion? = some v := by
    intro v hv
    obtain ⟨w, hw⟩ := Option.isSome_iff_exists.mp ((hsome r).mpr ⟨v, hv.mem⟩)
    rw [hw, List.inj_on_of_nodup_map hnodup hv.mem (hstable hw).mem (hv.name_eq (hstable hw))]
  refine ⟨fun v => ⟨hstable, hunique v⟩, fun r' hsame => ?_⟩
  cases hr' : r'.preferredVersion? with
  | some v =>
    obtain ⟨hmem, hmost⟩ := hstable hr'
    exact (hunique v ⟨(hsame v).mp hmem, fun w hw => hmost w ((hsame w).mpr hw)⟩).symm
  | none =>
    cases hr : r.preferredVersion? with
    | none => rfl
    | some v =>
      have hv : r'.preferredVersion?.isSome = true :=
        (hsome r').mpr ⟨v, (hsame v).mpr (hstable hr).mem⟩
      rw [hr'] at hv
      cases hv

end SchemaCompiler.CustomResource
