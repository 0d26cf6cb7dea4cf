import Mathlib.Data.List.Induction
import SchemaCompiler.Proofs.Model.LeavesFirst

/-! The views of finalized groups. Adding a type to a group gives its view up, and its objects are
merged by nothing but finalizing it, which makes a new view, so a view that is there lists the types
that its group has now. -/

namespace SchemaCompiler

def Change.Finalizes (key : GroupKey) : Change → Prop
  | .finalizeGroup k => k = key
  | .finalize => True
  | _ => False

namespace Model

variable {m m' : Model} {key : GroupKey} {types : List TypeId}

/-- The types of a group that stand for themselves, each once. -/
structure ListsLive (m : Model) (key : GroupKey) (types : List TypeId) : Prop where
  mem : ∀ u, u ∈ types ↔ u ∈ m.liveTypes key
  live : ∀ u, u ∈ types ↔ m.groupOf? u = some key ∧ m.isLive u = true
  nodup : types.Nodup

theorem LeavesFirst.listsLive (h : m.LeavesFirst key types) (hm : m.WellFormed) :
    m.ListsLive key types :=
  ⟨fun u => (h.mem u).trans hm.mem_liveTypes.symm, h.mem, h.nodup⟩

/-- The group `key` has a type in `m'` that it has not in `m`. -/
def Grows (m m' : Model) (key : GroupKey) : Prop :=
  ∃ u, m'.groupOf? u = some key ∧ m.groupOf? u ≠ some key

/-- The group `key` has the same types in both models, and the same of them stand for themselves. -/
structure SameLive (key : GroupKey) (m m' : Model) : Prop where
  group : ∀ u, m'.groupOf? u = some key ↔ m.groupOf? u = some key
  live : ∀ u, m.groupOf? u = some key → m'.isLive u = m.isLive u

theorem SameLive.refl (key : GroupKey) (m : Model) : SameLive key m m :=
  ⟨fun _ => Iff.rfl, fun _ _ => rfl⟩

theorem SameLive.not_grows (h : SameLive key m m') : ¬m.Grows m' key := by
  rintro ⟨u, hu, hnot⟩
  exact hnot ((h.group u).mp hu)

theorem ListsLive.congr (h : m.ListsLive key types) (hm' : m'.WellFormed)
    (hsame : SameLive key m m') : m'.ListsLive key types := by
  have hlive : ∀ u, u ∈ types ↔ m'.groupOf? u = some key ∧ m'.isLive u = true := by
    intro u
    rw [h.live, hsame.group]
    refine and_congr_right fun hu => ?_
    rw [hsame.live u hu]
  exact ⟨fun u => (hlive u).trans hm'.mem_liveTypes.symm, hlive, h.nodup⟩

theorem Spares.sameLive (h : Spares key m m') : SameLive key m m' :=
  ⟨fun u => by rw [h.groupOf?], fun _ => h.isLive⟩

theorem sameLive_amend {id : TypeId} {f : TypeEntry → TypeEntry} (hgroup : ∀ t, (f t).group = t.group)
    (hmerged : ∀ t, (f t).mergedInto = t.mergedInto) : SameLive key m (m.amend id f) := by
  refine ⟨fun u => by rw [groupOf?_amend hgroup], fun u _ => ?_⟩
  rw [Bool.eq_iff_iff, isLive_iff, isLive_iff, mergedInto?_amend hmerged]

theorem sameLive_push {t : TypeEntry} (h : m'.types = m.types.push t) (hne : t.group ≠ key) :
    SameLive key m m' := by
  have hnew : m.groupOf? m.types.size = none := by simp [groupOf?]
  constructor
  · intro u
    rw [groupOf?_push h]
    by_cases hu : u = m.types.size
    · rw [if_pos hu, hu, hnew]
      simp [hne]
    · rw [if_neg hu]
  · intro u hu
    have hold : u ≠ m.types.size := by
      rintro rfl
      rw [hnew] at hu
      cases hu
    rw [isLive, h, Array.getElem?_push, if_neg hold, isLive]

theorem grows_push {t : TypeEntry} (h : m'.types = m.types.push t) : m.Grows m' t.group :=
  ⟨m.types.size, by rw [groupOf?_push h, if_pos rfl], by simp [groupOf?]⟩

/-- What a change does to the view of a group. -/
inductive ViewStep (m : Model) (key : GroupKey) (c : Change) : Prop
  | made {view : FinalizedGroup} (hc : c.Finalizes key) (hkey : key ∈ m.keys)
      (hview : (m.change c).finalized? key = some view)
      (hlists : (m.change c).ListsLive key view.types)
  | kept (hc : ¬(c.Finalizes key ∧ key ∈ m.keys))
      (hview : (m.change c).finalized? key = m.finalized? key)
      (hsame : SameLive key m (m.change c))
  | lost (hc : ¬c.Finalizes key) (hview : (m.change c).finalized? key = none)
      (hgrows : m.Grows (m.change c) key)

theorem viewStep_of_eq {c : Change} (hc : ¬(c.Finalizes key ∧ key ∈ m.keys))
    (hm : m.change c = m) : m.ViewStep key c :=
  .kept hc (by rw [hm]) (by rw [hm]; exact .refl key m)

theorem finalized?_alterGroup {f : Group → Group} (group k : GroupKey) :
    (m.alterGroup group f).finalized? k = if k = group then none else m.finalized? k := by
  rw [finalized?, group?_alterGroup]
  split <;> rfl

/-- A type that is added to a group leaves the views of other groups alone. -/
theorem viewStep_push {c : Change} {t : TypeEntry} (hc : ¬c.Finalizes key)
    (htypes : (m.change c).types = m.types.push t)
    (hview : (m.change c).finalized? key = if key = t.group then none else m.finalized? key) :
    m.ViewStep key c := by
  by_cases hk : key = t.group
  · subst hk
    exact .lost hc (hview.trans (if_pos rfl)) (grows_push htypes)
  · refine .kept (fun h => hc h.1) (hview.trans (if_neg hk)) ?_
    exact sameLive_push htypes fun h => hk h.symm

theorem WellFormed.view_finalizeGroup (h : m.WellFormed) {g : Group} (hg : m.group? key = some g) :
    ∃ view, (m.finalizeGroup key).finalized? key = some view ∧
      (m.finalizeGroup key).ListsLive key view.types := by
  have hreconcile := h.reconcile hg
  have hlists := (hreconcile.leavesFirst_dependencyOrder key).listsLive hreconcile
  have hfinal := h.finalizeGroup key
  rw [finalizeGroup_eq hg] at hfinal ⊢
  refine ⟨(m.reconcile g).viewOf key ((m.reconcile g).dependencyOrder key), ?_, ?_⟩
  · rw [finalized?, group?_setFinalized, if_pos rfl]
    rfl
  · exact hlists.congr hfinal ⟨fun _ => Iff.rfl, fun _ _ => rfl⟩

theorem WellFormed.not_mem_keys (h : m.WellFormed) (hg : m.group? key = none) : key ∉ m.keys := by
  rw [h.mem_keys, hg]
  simp

theorem WellFormed.viewStep_finalizeGroup (h : m.WellFormed) (key k : GroupKey) :
    m.ViewStep key (.finalizeGroup k) := by
  by_cases hk : k = key
  · subst hk
    cases hg : m.group? k with
    | none =>
      exact viewStep_of_eq (fun hc => h.not_mem_keys hg hc.2) (finalizeGroup_absent hg)
    | some g =>
      obtain ⟨view, hview, hlists⟩ := h.view_finalizeGroup hg
      exact .made rfl (h.mem_keys.mpr ⟨g, hg⟩) hview hlists
  · have hspares := finalizeGroup_spares h hk
    exact .kept (fun hc => hk hc.1) hspares.finalized? hspares.sameLive

theorem WellFormed.viewStep_finalize (h : m.WellFormed) (key : GroupKey) :
    m.ViewStep key .finalize := by
  by_cases hkey : key ∈ m.keys
  · -- The view is made when the turn of the group comes, and the groups after it leave it alone.
    obtain ⟨before, g, hbefore, hg, -, hafter⟩ := h.finalized_group hkey
    obtain ⟨view, hview, hlists⟩ := hbefore.view_finalizeGroup hg
    exact .made trivial hkey (hafter.finalized?.trans hview)
      (hlists.congr h.finalize hafter.sameLive)
  · have hspares := foldl_finalizeGroup_spares h hkey
    exact .kept (fun hc => hkey hc.2) hspares.finalized? hspares.sameLive

theorem WellFormed.viewStep (h : m.WellFormed) (key : GroupKey) (c : Change) :
    m.ViewStep key c := by
  cases c with
  | registerNamed group name kind description =>
    cases hf : m.find? group (group.qualify name) with
    | some id =>
      refine viewStep_of_eq (fun hc => hc.1) ?_
      rw [Model.change, registerNamed_known hf]
    | none =>
      refine viewStep_push (fun hc => hc) (types_registerNamed_new hf kind description) ?_
      rw [Model.change, registerNamed_new hf]
      exact finalized?_alterGroup group key
  | registerAnonymous parent property typeName description =>
    cases hp : m.types[parent]? with
    | none =>
      refine viewStep_of_eq (fun hc => hc.1) ?_
      rw [Model.change, registerAnonymous_orphan hp]
    | some above =>
      refine viewStep_push (fun hc => hc)
        (types_registerAnonymous_new hp property typeName description) ?_
      rw [Model.change, registerAnonymous_new hp]
      exact finalized?_alterGroup _ key
  | setProperties id properties =>
    exact .kept (fun hc => hc.1) rfl (sameLive_amend (fun _ => rfl) fun _ => rfl)
  | setKind id kind =>
    exact .kept (fun hc => hc.1) rfl (sameLive_amend (fun _ => rfl) fun _ => rfl)
  | finalizeGroup k => exact h.viewStep_finalizeGroup key k
  | finalize => exact h.viewStep_finalize key

/-- There is a view once its group is finalized, and until a type is added to the group. -/
theorem WellFormed.isSome_view_change (h : m.WellFormed) (key : GroupKey) (c : Change) :
    ((m.change c).finalized? key).isSome = true ↔ c.Finalizes key ∧ key ∈ m.keys ∨
      (m.finalized? key).isSome = true ∧ ¬m.Grows (m.change c) key := by
  cases h.viewStep key c with
  | made hc hkey hview _ => simp [hc, hkey, hview]
  | kept hc hview hsame => simp [hc, hview, hsame.not_grows]
  | lost hc hview hgrows => simp [hc, hview, hgrows]

theorem listsLive_view (cs : List Change) {key : GroupKey} {view : FinalizedGroup}
    (hview : (ofChanges cs).finalized? key = some view) :
    (ofChanges cs).ListsLive key view.types := by
  induction cs using List.reverseRecOn generalizing view with
  | nil => simp [ofChanges, finalized?, group?, Table.get?] at hview
  | append_singleton cs c ih =>
    have hwf := wellFormed_ofChanges cs
    rw [ofChanges_append] at hview ⊢
    cases hwf.viewStep key c with
    | @made made _ _ hmade hlists =>
      obtain rfl : made = view := Option.some.inj (hmade.symm.trans hview)
      exact hlists
    | kept _ hkept hsame => exact (ih (hkept.symm.trans hview)).congr (hwf.change c) hsame
    | lost _ hlost _ => cases hlost.symm.trans hview

/-- Whatever was registered, filled in and finalized, the view of a group lists the group's live types
and no others, each once, and is there from when the group is finalized until it gets a new type. -/
theorem ofChanges_view_current (cs : List Change) (key : GroupKey) :
    (∀ view, (ofChanges cs).finalized? key = some view →
      (ofChanges cs).ListsLive key view.types) ∧
    ∀ c, ((ofChanges (cs ++ [c])).finalized? key).isSome = true ↔
      c.Finalizes key ∧ key ∈ (ofChanges cs).keys ∨
        ((ofChanges cs).finalized? key).isSome = true ∧
          ¬(ofChanges cs).Grows (ofChanges (cs ++ [c])) key := by
  refine ⟨fun view hview => listsLive_view cs hview, fun c => ?_⟩
  rw [ofChanges_append]
  exact (wellFormed_ofChanges cs).isSome_view_change key c

/-- The view of a group after its types and another group were changed. -/
theorem ofChanges_view_current_kept :
    let apps : GroupKey := ⟨"apps", some "v1"⟩
    let core : GroupKey := ⟨"core", some "v1"⟩
    let registered : List Change :=
      [.registerNamed apps "DaemonSet" .resource none, .registerNamed apps "Deployment" .resource none,
        .registerAnonymous 0 "spec" (some "Spec") none, .registerAnonymous 1 "spec" (some "Spec") none,
        .registerNamed core "Pod" .resource none]
    let cs := registered ++ [.finalizeGroup apps] ++ [.finalizeGroup core,
      .setProperties 3 [{ name := "pod", type := .type 4, required := true }]]
    ∃ view, (ofChanges cs).finalized? apps = some view ∧
      (ofChanges cs).ListsLive apps view.types := by
  intro apps core registered cs
  have hmade := ((ofChanges_view_current registered apps).2 (.finalizeGroup apps)).mpr
    (.inl ⟨rfl, by decide⟩)
  obtain ⟨view, hview⟩ := Option.isSome_iff_exists.mp hmade
  have hkept : (ofChanges cs).finalized? apps = some view := by
    have hwf := wellFormed_ofChanges (registered ++ [.finalizeGroup apps])
    rw [ofChanges_append]
    generalize ofChanges (registered ++ [.finalizeGroup apps]) = m at hview hwf ⊢
    have hspares : Spares apps m (m.finalizeGroup core) := finalizeGroup_spares hwf (by decide)
    exact hspares.finalized?.trans hview
  exact ⟨view, hkept, (ofChanges_view_current cs apps).1 view hkept⟩

end Model

end SchemaCompiler
