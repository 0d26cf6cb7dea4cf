import SchemaCompiler.Model.Finalize
import SchemaCompiler.Proofs.Model.MergeLoop
import SchemaCompiler.Proofs.Model.Registration
import SchemaCompiler.Proofs.Model.Rename

/-! Finalizing a group changes its own objects and nothing else, so that of all the groups that are
finalized in a row, each keeps what its own turn gave it. -/

namespace SchemaCompiler

/-- All objects of a group. -/
def Group.objects (g : Group) : List TypeId := (Table.values g.anonymous).flatten

namespace Model

variable {m : Model} {key : GroupKey} {g : Group}

theorem bucket_of_group? (hg : m.group? key = some g) (short : String) :
    m.bucket key short = (Table.get? short g.anonymous).getD [] := by
  simp [bucket, hg]

theorem WellFormed.mem_values (h : m.WellFormed) (hg : m.group? key = some g)
    {members : List TypeId} (hm : members ∈ Table.values g.anonymous) :
    ∃ short, m.bucket key short = members := by
  obtain ⟨short, hs⟩ := (h.anonymous_ordered hg).mem_values.mp hm
  exact ⟨short, by rw [bucket_of_group? hg, hs, Option.getD_some]⟩

theorem WellFormed.mem_objects (h : m.WellFormed) (hg : m.group? key = some g) {id : TypeId} :
    id ∈ g.objects ↔ ∃ short, id ∈ m.bucket key short := by
  constructor
  · intro hid
    obtain ⟨members, hmem, hid⟩ := List.mem_flatten.mp hid
    obtain ⟨short, rfl⟩ := h.mem_values hg hmem
    exact ⟨short, hid⟩
  · rintro ⟨short, hid⟩
    rw [bucket_of_group? hg] at hid
    cases hs : Table.get? short g.anonymous with
    | none => simp [hs] at hid
    | some members =>
      rw [hs, Option.getD_some] at hid
      have hmem : members ∈ Table.values g.anonymous :=
        (h.anonymous_ordered hg).mem_values.mpr ⟨short, hs⟩
      exact List.mem_flatten.mpr ⟨members, hmem, hid⟩

theorem MergesTo.mono {ids ids' : List TypeId} {m' : Model} (h : MergesTo ids m m')
    (hsub : ∀ i ∈ ids, i ∈ ids') : MergesTo ids' m m' :=
  { h with outside := fun i hi => h.outside i fun hn => hi (hsub i hn) }

/-- A bucket of a group may be merged whatever was merged in its group before. -/
theorem WellFormed.mergeBucket_objects (h : m.WellFormed) (hg : m.group? key = some g) {m' : Model}
    (hm : MergesTo g.objects m m') {members : List TypeId}
    (hmem : members ∈ Table.values g.anonymous) :
    MergesTo g.objects m' (m'.mergeBucket members) := by
  obtain ⟨short, rfl⟩ := h.mem_values hg hmem
  have hbucket : ∀ i ∈ m.bucket key short, i ∈ m'.bucket key short := by
    intro i hi
    rwa [hm.bucket]
  refine (hm.wellFormed.mergeBucket hbucket).1.mono fun i hi => ?_
  exact List.mem_flatten.mpr ⟨_, hmem, hi⟩

theorem WellFormed.mergeRounds (h : m.WellFormed) (hg : m.group? key = some g) (n : Nat) :
    MergesTo g.objects m (Model.mergeRounds (Table.values g.anonymous) n m) := by
  refine mergeRounds_induction ?_ n (MergesTo.refl h _)
  intro m' hm members hmem
  exact hm.trans (h.mergeBucket_objects hg hm hmem)

/-- The model in which a group's equal objects are merged. -/
def merging (m : Model) (g : Group) : Model :=
  mergeRounds (Table.values g.anonymous) g.objects.length m

/-- The model in which a group's objects have their names too. -/
def reconcile (m : Model) (g : Group) : Model :=
  (m.mergeEquals (Table.values g.anonymous)).nameAnonymous (Table.keys g.named) g.anonymous

theorem finalizeGroup_absent (hg : m.group? key = none) : m.finalizeGroup key = m := by
  rw [finalizeGroup, hg]

theorem finalizeGroup_eq (hg : m.group? key = some g) :
    m.finalizeGroup key = (m.reconcile g).setFinalized key g
      ((m.reconcile g).viewOf key ((m.reconcile g).dependencyOrder key)) := by
  rw [finalizeGroup, hg]
  rfl

theorem types_finalizeGroup (hg : m.group? key = some g) :
    (m.finalizeGroup key).types = (m.reconcile g).types := by
  rw [finalizeGroup_eq hg]
  rfl

theorem WellFormed.merging (h : m.WellFormed) (hg : m.group? key = some g) :
    MergesTo g.objects m (m.merging g) :=
  h.mergeRounds hg _

/-- The namings of a group's objects. -/
def namings (m : Model) (g : Group) : List (TypeId × String) :=
  (m.mergeEquals (Table.values g.anonymous)).groupNames (Table.keys g.named) g.anonymous

theorem mergeEquals_renames (m : Model) (g : Group) :
    RenamesTo g.objects (m.merging g) (m.mergeEquals (Table.values g.anonymous)) :=
  shareQualified_renames _ fun _ hi => hi

theorem reconcile_eq (m : Model) (g : Group) :
    m.reconcile g = (m.mergeEquals (Table.values g.anonymous)).assignNames (m.namings g) :=
  nameAnonymous_eq _ _ _

theorem MergesTo.getElem?_outside {ids : List TypeId} {m' : Model} (h : MergesTo ids m m')
    {i : TypeId} (hi : i ∉ ids) : m'.types[i]? = m.types[i]? := by
  have hentry := h.entries i
  have hmerged := h.outside i hi
  rw [mergedInto?, mergedInto?] at hmerged
  cases ht : m.types[i]? with
  | none => simpa [ht] using hentry
  | some t =>
    obtain ⟨t', ht', he⟩ := Option.map_eq_some_iff.mp (hentry.trans (by rw [ht, Option.map_some]))
    simp only [ht, ht', Option.bind_some] at hmerged
    have hboth : t' = { t'.unmerged with mergedInto := t'.mergedInto } := rfl
    rw [ht', hboth, he, hmerged]
    rfl

theorem mem_namings {id : TypeId} :
    id ∈ (m.namings g).map Prod.fst ↔ ∃ i ∈ g.objects, (m.merging g).resolve i = id := by
  have hresolve := (m.mergeEquals_renames g).resolve
  rw [namings, groupNames_ids, List.mem_flatMap]
  constructor
  · rintro ⟨b, hb, hid⟩
    obtain ⟨i, hi, rfl⟩ := mem_classesOf.mp hid
    exact ⟨i, List.mem_flatten.mpr ⟨b.2, List.mem_map_of_mem hb, hi⟩, (hresolve i).symm⟩
  · rintro ⟨i, hi, rfl⟩
    obtain ⟨members, hmem, hi⟩ := List.mem_flatten.mp hi
    obtain ⟨b, hb, rfl⟩ := List.mem_map.mp hmem
    exact ⟨b, hb, mem_classesOf.mpr ⟨i, hi, hresolve i⟩⟩

theorem WellFormed.resolve_objects (h : m.WellFormed) (hg : m.group? key = some g) {id : TypeId}
    (hid : id ∈ g.objects) : (m.merging g).resolve id ∈ g.objects := by
  have hmerging := h.merging hg
  obtain ⟨short, hb⟩ := (h.mem_objects hg).mp hid
  rw [← hmerging.bucket] at hb
  have hr := hmerging.wellFormed.resolve_mem hb
  rw [hmerging.bucket] at hr
  exact (h.mem_objects hg).mpr ⟨short, hr⟩

theorem WellFormed.reconcile_renames (h : m.WellFormed) (hg : m.group? key = some g) :
    RenamesTo g.objects (m.merging g) (m.reconcile g) := by
  refine (m.mergeEquals_renames g).trans ?_
  rw [reconcile_eq]
  refine assignNames_renames _ fun e he => ?_
  obtain ⟨i, hi, hr⟩ := mem_namings.mp (List.mem_map_of_mem he)
  rw [← hr]
  exact h.resolve_objects hg hi

theorem WellFormed.reconcile (h : m.WellFormed) (hg : m.group? key = some g) :
    (m.reconcile g).WellFormed := by
  have hmerging := h.merging hg
  refine (h.reconcile_renames hg).wellFormed hmerging.wellFormed fun i hi => ?_
  obtain ⟨short, hb⟩ := (h.mem_objects hg).mp hi
  exact ⟨key, short, by rwa [hmerging.bucket]⟩

theorem WellFormed.group?_reconcile (h : m.WellFormed) (hg : m.group? key = some g)
    (k : GroupKey) : (m.reconcile g).group? k = m.group? k := by
  rw [group?, (h.reconcile_renames hg).groups, (h.merging hg).groups, group?]

/-! Keeping what was computed about a group. -/

section SetFinalized

variable {view : FinalizedGroup}

theorem group?_setFinalized (k : GroupKey) : (m.setFinalized key g view).group? k =
    if k = key then some { g with finalized := some view } else m.group? k :=
  Table.get?_insert _ _ _ _

theorem named?_setFinalized (hg : m.group? key = some g) (k : GroupKey) (name : String) :
    (m.setFinalized key g view).named? k name = m.named? k name := by
  rw [named?, group?_setFinalized]
  by_cases hk : k = key
  · simp [hk, named?, hg]
  · simp [hk, named?]

theorem bucket_setFinalized (hg : m.group? key = some g) (k : GroupKey) (short : String) :
    (m.setFinalized key g view).bucket k short = m.bucket k short := by
  rw [bucket, group?_setFinalized]
  by_cases hk : k = key
  · simp [hk, bucket, hg]
  · simp [hk, bucket]

theorem resolve_setFinalized (i : TypeId) :
    (m.setFinalized key g view).resolve i = m.resolve i := by
  apply resolve_congr
  · rfl
  · exact fun _ => rfl

theorem TablesOrdered.setFinalized (h : m.TablesOrdered) (hg : m.group? key = some g) :
    (m.setFinalized key g view).TablesOrdered := by
  have hgroup : ∀ k g', (m.setFinalized key g view).group? k = some g' →
      Table.Ordered g'.named ∧ Table.Ordered g'.anonymous := by
    intro k g' hg'
    rw [group?_setFinalized] at hg'
    by_cases hk : k = key
    · rw [if_pos hk] at hg'
      obtain rfl := Option.some.inj hg'
      have hnamed := h.named hg
      have hanonymous := h.anonymous hg
      exact ⟨hnamed, hanonymous⟩
    · rw [if_neg hk] at hg'
      exact ⟨h.named hg', h.anonymous hg'⟩
  refine ⟨?_, fun hg => (hgroup _ _ hg).1, fun hg => (hgroup _ _ hg).2⟩
  simp only [Model.setFinalized]
  apply Table.Ordered.insert
  exact h.groups

theorem WellFormed.setFinalized (h : m.WellFormed) (hg : m.group? key = some g) :
    (m.setFinalized key g view).WellFormed :=
  h.congr (h.tablesOrdered.setFinalized hg) (fun _ _ => rfl) (named?_setFinalized hg)
    (bucket_setFinalized hg) (fun _ => rfl) (fun _ => rfl) (fun _ => rfl) fun _ => rfl

end SetFinalized

theorem WellFormed.finalizeGroup (h : m.WellFormed) (key : GroupKey) :
    (m.finalizeGroup key).WellFormed := by
  cases hg : m.group? key with
  | none => rwa [finalizeGroup_absent hg]
  | some g =>
    rw [finalizeGroup_eq hg]
    exact (h.reconcile hg).setFinalized ((h.group?_reconcile hg key).trans hg)

theorem WellFormed.foldl_wellFormed (h : m.WellFormed) (keys : List GroupKey) :
    (keys.foldl Model.finalizeGroup m).WellFormed := by
  induction keys generalizing m with
  | nil => exact h
  | cons key keys ih => exact ih (h.finalizeGroup key)

theorem WellFormed.finalize (h : m.WellFormed) : m.finalize.WellFormed :=
  h.foldl_wellFormed m.keys

/-! What finalizing leaves alone. -/

/-- `m'` comes from `m` without a change to the group `key`. -/
structure Spares (key : GroupKey) (m m' : Model) : Prop where
  wellFormed : m'.WellFormed
  group? : m'.group? key = m.group? key
  groupOf? : ∀ i, m'.groupOf? i = m.groupOf? i
  types : ∀ i : TypeId, m.groupOf? i = some key → m'.types[i]? = m.types[i]?

theorem Spares.refl (h : m.WellFormed) (key : GroupKey) : Spares key m m :=
  ⟨h, rfl, fun _ => rfl, fun _ _ => rfl⟩

theorem Spares.trans {m₁ m₂ m₃ : Model} (h : Spares key m₁ m₂) (h' : Spares key m₂ m₃) :
    Spares key m₁ m₃ where
  wellFormed := h'.wellFormed
  group? := h'.group?.trans h.group?
  groupOf? := fun i => (h'.groupOf? i).trans (h.groupOf? i)
  types := fun i hi => (h'.types i ((h.groupOf? i).trans hi)).trans (h.types i hi)

/-- The types of a spared group stand for each other as before. -/
theorem Spares.resolve {m' : Model} (h : Spares key m m') (hm : m.WellFormed) {id : TypeId}
    (hid : m.groupOf? id = some key) : m'.resolve id = m.resolve id := by
  have hmerged : ∀ i, m.groupOf? i = some key → m'.mergedInto? i = m.mergedInto? i := by
    intro i hi
    rw [mergedInto?, h.types i hi, mergedInto?]
  induction id using hm.induction_on with
  | live id hl => rw [resolve_of_live hl, resolve_of_live ((hmerged id hid).trans hl)]
  | merged id r hr ih =>
    obtain ⟨k, short, hi, hr', -⟩ := hm.merged hr
    have hk := (hm.filed hi).symm.trans hid
    rw [hm.resolve_of_merged hr, h.wellFormed.resolve_of_merged ((hmerged id hid).trans hr)]
    exact ih ((hm.filed hr').trans hk)

theorem Spares.isLive {m' : Model} (h : Spares key m m') {id : TypeId}
    (hid : m.groupOf? id = some key) : m'.isLive id = m.isLive id := by
  rw [Model.isLive, h.types id hid, Model.isLive]

theorem Spares.named? {m' : Model} (h : Spares key m m') (name : String) :
    m'.named? key name = m.named? key name := by
  rw [Model.named?, h.group?, Model.named?]

theorem Spares.finalized? {m' : Model} (h : Spares key m m') :
    m'.finalized? key = m.finalized? key := by
  rw [Model.finalized?, h.group?, Model.finalized?]

theorem WellFormed.groupOf?_reconcile (h : m.WellFormed) (hg : m.group? key = some g)
    (i : TypeId) : (m.reconcile g).groupOf? i = m.groupOf? i :=
  ((h.reconcile_renames hg).groupOf? i).trans ((h.merging hg).groupOf? i)

theorem WellFormed.groupOf?_finalizeGroup (h : m.WellFormed) (k : GroupKey) (i : TypeId) :
    (m.finalizeGroup k).groupOf? i = m.groupOf? i := by
  cases hg : m.group? k with
  | none => rw [finalizeGroup_absent hg]
  | some g =>
    rw [finalizeGroup_eq hg]
    exact h.groupOf?_reconcile hg i

theorem finalizeGroup_spares (h : m.WellFormed) {k : GroupKey} (hk : k ≠ key) :
    Spares key m (m.finalizeGroup k) := by
  cases hg : m.group? k with
  | none =>
    rw [finalizeGroup_absent hg]
    exact Spares.refl h key
  | some g =>
    refine ⟨h.finalizeGroup k, ?_, h.groupOf?_finalizeGroup k, ?_⟩
    · rw [finalizeGroup_eq hg, group?_setFinalized, if_neg hk.symm]
      exact h.group?_reconcile hg key
    · intro i hi
      have hout : i ∉ g.objects := by
        intro hn
        obtain ⟨short, hb⟩ := (h.mem_objects hg).mp hn
        exact hk (Option.some.inj ((h.filed hb).symm.trans hi))
      rw [finalizeGroup_eq hg]
      exact ((h.reconcile_renames hg).outside i hout).trans ((h.merging hg).getElem?_outside hout)

theorem foldl_finalizeGroup_spares {keys : List GroupKey} (h : m.WellFormed) (hk : key ∉ keys) :
    Spares key m (keys.foldl finalizeGroup m) := by
  induction keys generalizing m with
  | nil => exact Spares.refl h key
  | cons k keys ih =>
    have hfirst := finalizeGroup_spares h (List.ne_of_not_mem_cons hk).symm
    exact hfirst.trans (ih hfirst.wellFormed (List.not_mem_of_not_mem_cons hk))

theorem WellFormed.mem_keys (h : m.WellFormed) : key ∈ m.keys ↔ ∃ g, m.group? key = some g :=
  h.ordered.mem_keys

theorem WellFormed.finalize_split (h : m.WellFormed) (hkey : key ∈ m.keys) :
    ∃ pre post, m.keys = pre ++ key :: post ∧ key ∉ pre ∧ key ∉ post ∧
      Spares key m (pre.foldl Model.finalizeGroup m) ∧
      Spares key ((pre.foldl Model.finalizeGroup m).finalizeGroup key) m.finalize := by
  obtain ⟨pre, post, hsplit⟩ := List.append_of_mem hkey
  have hnodup : m.keys.Nodup := h.ordered.nodup_keys
  rw [hsplit] at hnodup
  obtain ⟨-, hrest, hapart⟩ := List.nodup_append.mp hnodup
  have hpre : key ∉ pre := fun hn => hapart key hn key List.mem_cons_self rfl
  have hpost : key ∉ post := (List.nodup_cons.mp hrest).1
  have hbefore := foldl_finalizeGroup_spares h hpre
  refine ⟨pre, post, hsplit, hpre, hpost, hbefore, ?_⟩
  rw [Model.finalize, hsplit, List.foldl_append, List.foldl_cons]
  exact foldl_finalizeGroup_spares (hbefore.wellFormed.finalizeGroup key) hpost

/-- What finalizing makes of one group stands at the end. -/
theorem WellFormed.finalized_group (h : m.WellFormed) (hkey : key ∈ m.keys) :
    ∃ before g, before.WellFormed ∧ before.group? key = some g ∧
      Spares key m before ∧ Spares key (before.finalizeGroup key) m.finalize := by
  obtain ⟨pre, -, -, -, -, hbefore, hafter⟩ := h.finalize_split hkey
  obtain ⟨g, hg⟩ := h.mem_keys.mp hkey
  exact ⟨_, g, hbefore.wellFormed, hbefore.group?.trans hg, hbefore, hafter⟩

theorem WellFormed.groupOf?_foldl (h : m.WellFormed) (keys : List GroupKey) (i : TypeId) :
    (keys.foldl Model.finalizeGroup m).groupOf? i = m.groupOf? i := by
  induction keys generalizing m with
  | nil => rfl
  | cons key keys ih => rw [List.foldl_cons, ih (h.finalizeGroup key), h.groupOf?_finalizeGroup]

theorem WellFormed.groupOf?_finalize (h : m.WellFormed) (i : TypeId) :
    m.finalize.groupOf? i = m.groupOf? i :=
  h.groupOf?_foldl m.keys i

theorem WellFormed.key_mem (h : m.WellFormed) {i : TypeId} (hi : m.groupOf? i = some key) :
    key ∈ m.keys := by
  obtain ⟨t, ht, rfl⟩ := Option.map_eq_some_iff.mp hi
  have hplaced := h.placed ht
  refine h.mem_keys.mpr ?_
  cases hg : m.group? t.group with
  | none => simp [named?, bucket, hg] at hplaced
  | some g => exact ⟨g, rfl⟩

end Model

end SchemaCompiler
