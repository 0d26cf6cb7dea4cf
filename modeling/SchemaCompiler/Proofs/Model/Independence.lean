import SchemaCompiler.Proofs.Model.Correspondence
import SchemaCompiler.Proofs.Model.Integrity

/-! Groups are finalized independently of each other. What finalizing makes of a group depends only on
the group if the properties of its objects lead to no objects of others, and finalizing it again changes
nothing; so the groups may be finalized in any order and any number of times. -/

namespace SchemaCompiler

namespace TypeExpr

mutual

theorem mapIds_congr {f g : TypeId → TypeId} :
    ∀ e : TypeExpr, (∀ x, .type x ∈ e.leaves → f x = g x) → e.mapIds f = e.mapIds g
  | primitive _, _ => rfl
  | wellKnown _, _ => rfl
  | type x, h => by rw [mapIds, mapIds, h x (by simp [leaves])]
  | ref _, _ => rfl
  | bareList, _ => rfl
  | list e, h => by rw [mapIds, mapIds, mapIds_congr e h]
  | bareMap, _ => rfl
  | map e, h => by rw [mapIds, mapIds, mapIds_congr e h]
  | union es, h => by rw [mapIds, mapIds, mapAllIds_congr es h]

theorem mapAllIds_congr {f g : TypeId → TypeId} :
    ∀ es : List TypeExpr, (∀ x, .type x ∈ allLeaves es → f x = g x) → mapAllIds f es = mapAllIds g es
  | [], _ => rfl
  | e :: es, h => by
    rw [mapAllIds, mapAllIds, mapIds_congr e fun x hx => h x (List.mem_append_left _ hx),
      mapAllIds_congr es fun x hx => h x (List.mem_append_right _ hx)]

end

end TypeExpr

namespace Model

variable {m m' : Model} {key : GroupKey} {g : Group} {short : String} {a i : TypeId}

/-! Models that look the same from a group. -/

theorem Enclosed.congr (h : m.Enclosed) (hbucket : ∀ k short, m'.bucket k short = m.bucket k short)
    (hproperties : ∀ i, m'.propertiesOf i = m.propertiesOf i)
    (hgroup : ∀ i, m'.groupOf? i = m.groupOf? i) : m'.Enclosed := by
  have hfiled : ∀ k i, m'.Filed k i ↔ m.Filed k i := fun k i => by simp only [Filed, hbucket]
  intro key a ha p hp x hx
  rw [hfiled] at ha
  rw [hproperties] at hp
  simp only [hgroup, hfiled]
  exact h key a ha p hp x hx

theorem MergesTo.enclosed {ids : List TypeId} (h : MergesTo ids m m') (hm : m.Enclosed) :
    m'.Enclosed :=
  hm.congr h.bucket h.propertiesOf h.groupOf?

/-- `m'` differs from `m` in other groups only, in what was merged there and how it is called. -/
structure LooksLike (key : GroupKey) (m m' : Model) : Prop extends Spares key m m' where
  source : m.WellFormed
  enclosed : m.Enclosed
  bucket : ∀ k short, m'.bucket k short = m.bucket k short

theorem Spares.fullNameOf (h : Spares key m m') (hi : m.groupOf? i = some key) :
    m'.fullNameOf i = m.fullNameOf i := by
  rw [Model.fullNameOf, h.types i hi, Model.fullNameOf]

theorem LooksLike.structureOf (h : LooksLike key m m') (ha : m.Filed key a) :
    m'.structureOf a = m.structureOf a := by
  have hgroup : m.groupOf? a = some key := by
    obtain ⟨short, hs⟩ := ha
    exact h.source.filed hs
  have hresolve : ∀ p ∈ m.propertiesOf a, ∀ x, .type x ∈ p.type.leaves →
      m'.resolve x = m.resolve x := by
    intro p hp x hx
    rcases h.enclosed key a ha p hp x hx with hk | hunfiled
    · exact h.resolve h.source hk
    · have hunfiled' : ∀ k, ¬m'.Filed k x := by
        rintro k ⟨short, hs⟩
        rw [h.bucket] at hs
        exact hunfiled k ⟨short, hs⟩
      rw [h.source.resolve_unfiled hunfiled, h.wellFormed.resolve_unfiled hunfiled']
  rw [structureOf_eq_map, structureOf_eq_map, h.propertiesOf hgroup]
  refine List.map_congr_left fun p hp => ?_
  rw [TypeExpr.mapIds_congr p.type (hresolve p hp)]

theorem LooksLike.mergeBucket (h : LooksLike key m m') (short : String) :
    LooksLike key (m.mergeBucket (m.bucket key short)) (m'.mergeBucket (m.bucket key short)) := by
  obtain ⟨hm, -⟩ := h.source.mergeBucket fun i (hi : i ∈ m.bucket key short) => hi
  obtain ⟨hm', -⟩ := h.wellFormed.mergeBucket fun i (hi : i ∈ m.bucket key short) => by
    rwa [h.bucket key short]
  have hfiled : ∀ i ∈ m.bucket key short, m.groupOf? i = some key := fun i hi => h.source.filed hi
  have hlive : ∀ i ∈ m.bucket key short, m'.isLive i = m.isLive i := fun i hi =>
    h.isLive (hfiled i hi)
  have hstandIn : ∀ i, m'.standIn (m.bucket key short) i = m.standIn (m.bucket key short) i := by
    intro i
    by_cases hi : i ∈ m.bucket key short
    · refine standIn_correspond (f := id) (by simp) hlive (fun i hi j hj => ?_) (fun i hi j hj => ?_) hi
      · rw [id, id, h.structureOf ⟨short, hi⟩, h.structureOf ⟨short, hj⟩]
      · exact precedes_congr (h.fullNameOf (hfiled i hi)) (h.fullNameOf (hfiled j hj))
    · rw [standIn_of_not fun hn => hi hn.1, standIn_of_not fun hn => hi hn.1]
  refine ⟨⟨hm'.wellFormed, ?_, fun i => ?_, fun i hi => ?_⟩, hm.wellFormed, hm.enclosed h.enclosed,
    fun k s => ?_⟩
  · rw [Model.group?, hm'.groups, Model.group?, hm.groups]
    exact h.group?
  · rw [hm'.groupOf?, hm.groupOf?, h.groupOf?]
  · rw [hm.groupOf?] at hi
    rw [getElem?_mergeBucket, getElem?_mergeBucket, h.types i hi, hstandIn]
  · rw [hm'.bucket, hm.bucket, h.bucket]

theorem LooksLike.merging (h : LooksLike key m m') (hg : m.group? key = some g) :
    LooksLike key (m.merging g) (m'.merging g) := by
  let R : Model → Model → Prop := fun m₁ m₂ => LooksLike key m₁ m₂ ∧ MergesTo g.objects m m₁
  have hR : R (m.merging g) (m'.merging g) := by
    refine mergeRounds_correspond (List.forall₂_same.mpr fun b hb m₁ m₂ hR => ?_) (fun m₁ m₂ hR => ?_) _
      ⟨h, MergesTo.refl h.source _⟩
    · obtain ⟨hl, hm⟩ := hR
      have hnext := h.source.mergeBucket_objects hg hm hb
      obtain ⟨short, rfl⟩ := h.source.mem_values hg hb
      have hbucket : m₁.bucket key short = m.bucket key short := hm.bucket key short
      have hmerged := hl.mergeBucket short
      rw [hbucket] at hmerged
      exact ⟨hmerged, hm.trans hnext⟩
    · obtain ⟨hl, hm⟩ := hR
      refine List.countP_congr fun i hi => ?_
      obtain ⟨short, hs⟩ := (h.source.mem_objects hg).mp hi
      rw [hl.isLive]
      rw [hm.groupOf?, h.source.filed hs]
  exact hR.1

theorem LooksLike.classesOf (h : LooksLike key m m') (short : String) :
    m'.classesOf (m.bucket key short) = m.classesOf (m.bucket key short) := by
  have hresolve : ∀ i ∈ m.bucket key short, m'.resolve i = m.resolve i := fun i hi =>
    h.resolve h.source (h.source.filed hi)
  have hfull : ∀ i ∈ m.bucket key short, m'.fullNameOf i = m.fullNameOf i := fun i hi =>
    h.fullNameOf (h.source.filed hi)
  have hclass : ∀ r ∈ m.bucket key short,
      m'.classOf (m.bucket key short) r = m.classOf (m.bucket key short) r := by
    intro r hr
    have hfilter : (m.bucket key short).filter (m'.resolve · == r) =
        (m.bucket key short).filter (m.resolve · == r) :=
      List.filter_congr fun i hi => by rw [hresolve i hi]
    have huniform : ∀ name : String,
        ((m.bucket key short).filter (m.resolve · == r)).all (m'.fullNameOf · == name) =
          ((m.bucket key short).filter (m.resolve · == r)).all (m.fullNameOf · == name) := by
      intro name
      rw [Bool.eq_iff_iff, List.all_eq_true, List.all_eq_true]
      refine forall₂_congr fun i hi => ?_
      rw [hfull i (List.mem_of_mem_filter hi)]
    simp only [classOf, hfilter, hfull r hr, huniform, h.structureOf ⟨short, hr⟩]
  rw [Model.classesOf, Model.classesOf, List.map_congr_left hresolve]
  congr 1
  refine List.map_congr_left fun r hr => hclass r ?_
  obtain ⟨i, hi, rfl⟩ := List.mem_map.mp (mem_setOf.mp hr)
  exact h.source.resolve_mem hi

theorem LooksLike.namings (h : LooksLike key m m') (hg : m.group? key = some g) :
    m'.namings g = m.namings g :=
  h.source.namings_congr hg (h.merging hg).classesOf

theorem LooksLike.reconcile (h : LooksLike key m m') (hg : m.group? key = some g) :
    Spares key (m.reconcile g) (m'.reconcile g) := by
  have hg' : m'.group? key = some g := h.group?.trans hg
  have hm := h.source.merging hg
  have hmerging := h.merging hg
  refine ⟨h.wellFormed.reconcile hg', ?_, fun i => ?_, fun i hi => ?_⟩
  · rw [h.wellFormed.group?_reconcile hg', h.source.group?_reconcile hg, hg, hg']
  · rw [h.wellFormed.groupOf?_reconcile hg', h.source.groupOf?_reconcile hg, h.groupOf?]
  · have hk : (m.merging g).groupOf? i = some key := by
      rwa [h.source.groupOf?_reconcile hg, ← hm.groupOf?] at hi
    have hr : (m.merging g).groupOf? ((m.merging g).resolve i) = some key := by
      rwa [hm.wellFormed.groupOf?_resolve]
    have hshared : (m'.mergeEquals (Table.values g.anonymous)).types[i]? =
        ((m.mergeEquals (Table.values g.anonymous)).types[i]?).map id := by
      rw [h.wellFormed.getElem?_mergeEquals hg', h.source.getElem?_mergeEquals hg, Option.map_id_fun,
        id, hmerging.types i hk, hmerging.isLive hk, hmerging.resolve hm.wellFormed hk,
        hmerging.types _ hr]
    have hnamed := getElem?_assignNames_correspond (fun _ _ => rfl) Function.injective_id hshared
      (m.namings g)
    rw [Prod.map_id, List.map_id, Option.map_id_fun] at hnamed
    rw [reconcile_eq, reconcile_eq, h.namings hg]
    exact hnamed

/-! What the output needs to know about the group. -/

/-- Models with the same types in a group, which stand for each other alike, have the same view of it. -/
theorem corresponds_id (hm : m.WellFormed) (hm' : m'.WellFormed)
    (hnamed : ∀ name, m'.named? key name = m.named? key name)
    (hgroup : ∀ i, m'.groupOf? i = m.groupOf? i)
    (htypes : ∀ i : TypeId, m.groupOf? i = some key → m'.types[i]? = m.types[i]?)
    (hresolve : ∀ i, m.groupOf? i = some key → m'.resolve i = m.resolve i) :
    Corresponds id key m m' := by
  have hin : ∀ {u}, u ∈ m.liveTypes key → m.groupOf? u = some key := fun hu =>
    (hm.mem_liveTypes.mp hu).1
  have hexprs : ∀ u ∈ m.liveTypes key, m'.exprsOf u = m.exprsOf u := by
    intro u hu
    rw [exprsOf, htypes u (hin hu), exprsOf]
  have hleaves : ∀ u ∈ m.liveTypes key, m'.leavesOf u = m.leavesOf u := by
    intro u hu
    rw [leavesOf, hexprs u hu, leavesOf]
  have hlocal : m'.localTarget? key = m.localTarget? key := by
    funext leaf
    cases leaf with
    | type x =>
      rw [localTarget?, localTarget?, hm'.groupOf?_resolve, hm.groupOf?_resolve, hgroup]
      by_cases hx : m.groupOf? x = some key
      · rw [hresolve x hx]
      · simp [hx]
    | ref q => rw [localTarget?, localTarget?, hnamed]
    | _ => rfl
  have hforeign : m'.foreignGroup? key = m.foreignGroup? key := by
    funext leaf
    cases leaf with
    | type x =>
      rw [foreignGroup?, foreignGroup?, hm'.groupOf?_resolve, hm.groupOf?_resolve, hgroup]
    | _ => rfl
  refine ⟨hm, hm', size_eq_of_map hgroup, fun {u} => ?_, fun _ _ huv => huv, fun u hu => ?_,
    fun u hu => ?_, fun u hu => ?_, fun u hu => ?_⟩
  · simp only [id, exists_eq_right, hm'.mem_liveTypes, hm.mem_liveTypes, hgroup]
    exact and_congr_right fun hk => by rw [isLive, htypes u hk, isLive]
  · rw [List.map_id, dependencies, id, hleaves u hu, hlocal, dependencies]
  · rw [id, hleaves u hu, hforeign]
  · rw [id, hexprs u hu]
  · rw [id, baseNamesOf, htypes u (hin hu), hleaves u hu, baseNamesOf]

theorem Corresponds.viewOf_id (h : Corresponds id key m m') (hnames : m.DistinctNames key)
    (htypes : ∀ i : TypeId, m.groupOf? i = some key → m'.types[i]? = m.types[i]?) :
    m'.viewOf key (m'.dependencyOrder key) = m.viewOf key (m.dependencyOrder key) := by
  have hview := h.viewOf hnames fun u hu => by rw [id, htypes u (h.source.mem_liveTypes.mp hu).1]
  rw [hview, List.map_id]
  rfl

theorem Spares.viewOf (h : Spares key m m') (hm : m.WellFormed) (hnames : m.DistinctNames key) :
    m'.viewOf key (m'.dependencyOrder key) = m.viewOf key (m.dependencyOrder key) :=
  (corresponds_id hm h.wellFormed h.named? h.groupOf? h.types fun _ hi => h.resolve hm hi).viewOf_id
    hnames h.types

theorem WellFormed.viewOf_setFinalized (h : m.WellFormed) (hg : m.group? key = some g)
    (hnames : m.DistinctNames key) (view : FinalizedGroup) :
    (m.setFinalized key g view).viewOf key ((m.setFinalized key g view).dependencyOrder key) =
      m.viewOf key (m.dependencyOrder key) :=
  (corresponds_id h (h.setFinalized hg) (named?_setFinalized hg key) (fun _ => rfl) (fun _ _ => rfl)
    fun i _ => resolve_setFinalized i).viewOf_id hnames fun _ _ => rfl

/-- Finalizing a group does the same to it whatever happened to other groups. -/
theorem LooksLike.finalizeGroup (h : LooksLike key m m') :
    Spares key (m.finalizeGroup key) (m'.finalizeGroup key) := by
  cases hg : m.group? key with
  | none =>
    rw [finalizeGroup_absent hg, finalizeGroup_absent (h.group?.trans hg)]
    exact h.toSpares
  | some g =>
    have hg' : m'.group? key = some g := h.group?.trans hg
    have hreconcile := h.reconcile hg
    have hview := hreconcile.viewOf (h.source.reconcile hg) (h.source.distinctNames_reconcile hg)
    refine ⟨h.wellFormed.finalizeGroup key, ?_, fun i => ?_, fun i hi => ?_⟩
    · rw [finalizeGroup_eq hg, finalizeGroup_eq hg', group?_setFinalized, group?_setFinalized, hview,
        if_pos rfl, if_pos rfl]
    · rw [h.wellFormed.groupOf?_finalizeGroup, h.source.groupOf?_finalizeGroup, h.groupOf?]
    · rw [h.source.groupOf?_finalizeGroup, ← h.source.groupOf?_reconcile hg] at hi
      rw [types_finalizeGroup hg, types_finalizeGroup hg']
      exact hreconcile.types i hi

/-! Finalizing a group again. -/

theorem eq_of_types (htypes : m'.types = m.types) (hgroups : m'.groups = m.groups)
    (hindex : m'.index = m.index) : m' = m := by
  cases m
  cases m'
  simp_all

theorem mergeRounds_eq_self {buckets : List (List TypeId)} (h : ∀ b ∈ buckets, m.mergeBucket b = m)
    (n : Nat) : mergeRounds buckets n m = m := by
  cases n with
  | zero => rfl
  | succ n =>
    rw [mergeRounds, mergeRound_eq_self h]
    simp

theorem assignNames_eq_self {names : List (TypeId × String)}
    (h : ∀ e ∈ names, (m.types[e.1]?).map TypeEntry.name = some e.2) : m.assignNames names = m := by
  induction names with
  | nil => rfl
  | cons e names ih =>
    have hfirst : m.setName e.1 e.2 = m := by
      obtain ⟨t, ht, hname⟩ := Option.map_eq_some_iff.mp (h e List.mem_cons_self)
      have htypes : m.types.modify e.1 (fun t => { t with name := e.2 }) = m.types := by
        refine Array.ext_getElem? fun i => ?_
        rw [Array.getElem?_modify]
        by_cases hi : e.1 = i
        · rw [if_pos hi, ← hi, ht, Option.map_some, ← hname]
        · rw [if_neg hi]
      rw [setName, htypes]
    have hcons : m.assignNames (e :: names) = (m.setName e.1 e.2).assignNames names := rfl
    rw [hcons, hfirst]
    exact ih fun e he => h e (List.mem_cons_of_mem _ he)

theorem fullNameOf_setFinalized {view : FinalizedGroup} :
    (m.setFinalized key g view).fullNameOf = m.fullNameOf := rfl

theorem structureOf_setFinalized {view : FinalizedGroup} :
    (m.setFinalized key g view).structureOf = m.structureOf := by
  funext i
  rw [structureOf_eq_map, structureOf_eq_map, funext resolve_setFinalized]
  rfl

theorem classesOf_setFinalized {view : FinalizedGroup} (members : List TypeId) :
    (m.setFinalized key g view).classesOf members = m.classesOf members := by
  have hclass : (m.setFinalized key g view).classOf members = m.classOf members := by
    funext r
    simp only [classOf, fullNameOf_setFinalized, structureOf_setFinalized, resolve_setFinalized]
  rw [classesOf, classesOf, hclass, funext resolve_setFinalized]

theorem groupNames_setFinalized {view : FinalizedGroup} (taken : List String)
    (t : Table String (List TypeId)) :
    (m.setFinalized key g view).groupNames taken t = m.groupNames taken t := by
  induction t generalizing taken with
  | nil => rfl
  | cons b t ih => simp only [groupNames, classesOf_setFinalized, ih]

/-- No bucket of a finalized group is merged any further. -/
theorem WellFormed.mergeBucket_finalizeGroup (h : m.WellFormed) (hg : m.group? key = some g)
    {members : List TypeId} (hmem : members ∈ Table.values g.anonymous) :
    (m.finalizeGroup key).mergeBucket members = m.finalizeGroup key := by
  have hm := h.merging hg
  have hrenames := h.reconcile_renames hg
  have hlive : ∀ i, (m.finalizeGroup key).isLive i = (m.merging g).isLive i := by
    intro i
    rw [Bool.eq_iff_iff, isLive_iff, isLive_iff, mergedInto?, types_finalizeGroup hg, ← mergedInto?,
      hrenames.mergedInto?]
  have hstructure : ∀ i, (m.finalizeGroup key).structureOf i = (m.merging g).structureOf i := by
    intro i
    rw [finalizeGroup_eq hg, structureOf_setFinalized, hrenames.structureOf]
  have hlt : ∀ i ∈ (Table.values g.anonymous).flatten, i < (m.merging g).types.size := by
    intro i hi
    obtain ⟨short, hs⟩ := (h.mem_objects hg).mp hi
    rw [hm.size_eq]
    exact h.lt_size hs
  rw [mergeBucket_eq, redirectAll_eq_self]
  intro i hi
  obtain ⟨hi, hl⟩ := List.mem_filter.mp hi
  obtain ⟨hs, hsl, hss⟩ := standIn_mem hi hl
  rw [hlive] at hl hsl
  rw [hstructure, hstructure] at hss
  exact eq_of_fixed hlt (h.mergeLoop hg).fixed hmem hs hi hsl hl hss

theorem group?_finalizeGroup (hg : m.group? key = some g) : (m.finalizeGroup key).group? key =
    some { g with
      finalized := some ((m.reconcile g).viewOf key ((m.reconcile g).dependencyOrder key)) } := by
  rw [finalizeGroup_eq hg, group?_setFinalized, if_pos rfl]

theorem WellFormed.merging_finalizeGroup (h : m.WellFormed) (hg : m.group? key = some g) :
    (m.finalizeGroup key).merging g = m.finalizeGroup key :=
  mergeRounds_eq_self (fun _ hb => h.mergeBucket_finalizeGroup hg hb) _

/-- Merged types have the full names of those that stand for them already. -/
theorem WellFormed.qualified_finalizeGroup (h : m.WellFormed) (hg : m.group? key = some g) {i : TypeId}
    {t : TypeEntry} (hi : i ∈ g.objects) (ht : (m.finalizeGroup key).types[i]? = some t) :
    ((m.finalizeGroup key).types[(m.finalizeGroup key).resolve i]?).map TypeEntry.qualified =
      some t.qualified := by
  have hresolve : (m.finalizeGroup key).resolve i = (m.merging g).resolve i := by
    rw [finalizeGroup_eq hg, resolve_setFinalized, (h.reconcile_renames hg).resolve]
  have hqualified := h.map_qualified_reconcile hg ((h.mem_objects hg).mp hi)
  rw [← types_finalizeGroup hg, ht, Option.map_some, ← hresolve] at hqualified
  exact hqualified.symm

theorem WellFormed.mergeEquals_finalizeGroup (h : m.WellFormed) (hg : m.group? key = some g) :
    (m.finalizeGroup key).mergeEquals (Table.values g.anonymous) = m.finalizeGroup key := by
  have hkept := mergeEquals_renames (m.finalizeGroup key) g
  rw [h.merging_finalizeGroup hg] at hkept
  refine eq_of_types (Array.ext_getElem? fun i => ?_) hkept.groups hkept.index
  have hmerging := h.merging_finalizeGroup hg
  change (m.finalizeGroup key).merging { g with
    finalized := some ((m.reconcile g).viewOf key ((m.reconcile g).dependencyOrder key)) } = _
      at hmerging
  rw [(h.finalizeGroup key).getElem?_mergeEquals (group?_finalizeGroup hg), hmerging]
  cases ht : (m.finalizeGroup key).types[i]? with
  | none => rfl
  | some t =>
    refine congrArg some ?_
    split
    · rfl
    · split
      · next hi =>
        rw [h.qualified_finalizeGroup hg hi ht]
        rfl
      · rfl

theorem WellFormed.namings_finalizeGroup (h : m.WellFormed) (hg : m.group? key = some g) :
    (m.finalizeGroup key).namings g = m.namings g := by
  have hassigned := assignNames_renamesTo (m.mergeEquals (Table.values g.anonymous)) (m.namings g)
  rw [← reconcile_eq] at hassigned
  rw [namings, h.mergeEquals_finalizeGroup hg, finalizeGroup_eq hg, groupNames_setFinalized,
    groupNames_congr hassigned, namings]

/-- The objects of a finalized group are merged and named as they would be again. -/
theorem WellFormed.reconcile_finalizeGroup (h : m.WellFormed) (hg : m.group? key = some g) :
    (m.finalizeGroup key).reconcile g = m.finalizeGroup key := by
  rw [reconcile_eq, h.namings_finalizeGroup hg, h.mergeEquals_finalizeGroup hg]
  refine assignNames_eq_self fun e he => ?_
  have hlt : e.1 < (m.mergeEquals (Table.values g.anonymous)).types.size := by
    obtain ⟨i, hi, hri⟩ := mem_namings.mp (List.mem_map_of_mem he)
    obtain ⟨short, hs⟩ := (h.mem_objects hg).mp (h.resolve_objects hg hi)
    rw [(m.mergeEquals_renames g).size_eq, (h.merging hg).size_eq, ← hri]
    exact h.lt_size hs
  rw [types_finalizeGroup hg, reconcile_eq]
  exact map_name_assignNames _ (h.nodup_namings hg) he hlt

theorem WellFormed.finalizeGroup_again (h : m.WellFormed) (key : GroupKey) :
    Spares key (m.finalizeGroup key) ((m.finalizeGroup key).finalizeGroup key) := by
  cases hg : m.group? key with
  | none =>
    rw [finalizeGroup_absent hg, finalizeGroup_absent hg]
    exact Spares.refl h key
  | some g =>
    have hview : (m.finalizeGroup key).viewOf key ((m.finalizeGroup key).dependencyOrder key) =
        (m.reconcile g).viewOf key ((m.reconcile g).dependencyOrder key) := by
      rw [finalizeGroup_eq hg, (h.reconcile hg).viewOf_setFinalized
        ((h.group?_reconcile hg key).trans hg) (h.distinctNames_reconcile hg)]
    have hagain := finalizeGroup_eq (group?_finalizeGroup hg)
    have hreconcile := h.reconcile_finalizeGroup hg
    change (m.finalizeGroup key).reconcile { g with
      finalized := some ((m.reconcile g).viewOf key ((m.reconcile g).dependencyOrder key)) } = _
        at hreconcile
    rw [hreconcile, hview] at hagain
    have hwf := h.finalizeGroup key
    refine ⟨hwf.finalizeGroup key, ?_, hwf.groupOf?_finalizeGroup key, fun i _ => ?_⟩
    · rw [hagain, group?_setFinalized, if_pos rfl, group?_finalizeGroup hg]
    · rw [hagain]
      rfl

/-! All groups, in any order. -/

theorem Enclosed.finalizeGroup (hc : m.Enclosed) (h : m.WellFormed) (key : GroupKey) :
    (m.finalizeGroup key).Enclosed := by
  refine hc.congr (h.bucket_finalizeGroup key) (fun i => ?_) (h.groupOf?_finalizeGroup key)
  have hproperties := congrArg (Option.map TypeEntry.properties) (h.content_finalizeGroup key i)
  rw [Option.map_map, Option.map_map] at hproperties
  exact congrArg (Option.getD · []) hproperties

/-- A group that had its turn is as if it had been finalized alone. -/
theorem WellFormed.foldl_finalizeGroup (h : m.WellFormed) (hc : m.Enclosed) {keys : List GroupKey}
    (hkey : key ∈ keys) : Spares key (m.finalizeGroup key) (keys.foldl Model.finalizeGroup m) := by
  induction keys using List.reverseRecOn with
  | nil => simp at hkey
  | append_singleton keys k ih =>
    rw [List.foldl_append, List.foldl_cons, List.foldl_nil]
    have hbucket := h.bucket_foldl keys
    by_cases hk : k = key
    · subst hk
      by_cases hin : k ∈ keys
      · have hbefore := ih hin
        have hlooks : LooksLike k (m.finalizeGroup k) (keys.foldl Model.finalizeGroup m) := by
          refine ⟨hbefore, h.finalizeGroup k, hc.finalizeGroup h k, fun key short => ?_⟩
          rw [hbucket, h.bucket_finalizeGroup]
        exact (h.finalizeGroup_again k).trans hlooks.finalizeGroup
      · exact LooksLike.finalizeGroup ⟨foldl_finalizeGroup_spares h hin, h, hc, hbucket⟩
    · have hin : key ∈ keys := by
        rcases List.mem_append.mp hkey with hin | hin
        · exact hin
        · exact absurd (List.mem_singleton.mp hin).symm hk
      exact (ih hin).trans (finalizeGroup_spares (ih hin).wellFormed hk)

theorem WellFormed.foldl_finalizeGroup_eq (h : m.WellFormed) (hc : m.Enclosed)
    {keys keys' : List GroupKey} (hkeys : ∀ k ∈ m.keys, k ∈ keys) (hkeys' : ∀ k ∈ m.keys, k ∈ keys') :
    keys.foldl Model.finalizeGroup m = keys'.foldl Model.finalizeGroup m := by
  have hwf : ∀ keys : List GroupKey, (keys.foldl Model.finalizeGroup m).WellFormed :=
    fun keys => h.foldl_wellFormed keys
  have hgroup : ∀ {keys : List GroupKey}, (∀ k ∈ m.keys, k ∈ keys) → ∀ k,
      (keys.foldl Model.finalizeGroup m).group? k = (m.finalizeGroup k).group? k := by
    intro keys hkeys k
    by_cases hk : k ∈ keys
    · exact (h.foldl_finalizeGroup hc hk).group?
    · have hnone : m.group? k = none := by
        by_contra hn
        exact hk (hkeys k (h.mem_keys.mpr (Option.ne_none_iff_exists'.mp hn)))
      rw [(foldl_finalizeGroup_spares h hk).group?, finalizeGroup_absent hnone]
  have htypes : ∀ {keys : List GroupKey}, (∀ k ∈ m.keys, k ∈ keys) → ∀ {i : TypeId} {k : GroupKey},
      m.groupOf? i = some k →
        (keys.foldl Model.finalizeGroup m).types[i]? = (m.finalizeGroup k).types[i]? := by
    intro keys hkeys i k hi
    refine (h.foldl_finalizeGroup hc (hkeys k (h.key_mem hi))).types i ?_
    rw [h.groupOf?_finalizeGroup, hi]
  have hgroupOf : ∀ (keys : List GroupKey) (i : TypeId),
      (keys.foldl Model.finalizeGroup m).groupOf? i = m.groupOf? i := h.groupOf?_foldl
  refine eq_of_types (Array.ext_getElem? fun i => ?_) ?_ ?_
  · cases hi : m.groupOf? i with
    | some k => rw [htypes hkeys hi, htypes hkeys' hi]
    | none =>
      have hnone : ∀ keys : List GroupKey,
          (keys.foldl Model.finalizeGroup m).types[i]? = none := by
        intro keys
        have hk := hgroupOf keys i
        rwa [hi, groupOf?, Option.map_eq_none_iff] at hk
      rw [hnone, hnone]
  · refine (hwf keys).ordered.ext (hwf keys').ordered fun k => ?_
    exact (hgroup hkeys k).trans (hgroup hkeys' k).symm
  · rw [h.index_foldl, h.index_foldl]

/-- The groups may be finalized in any order, and some of them again. -/
theorem foldl_finalizeGroup_eq_finalize (cs : List Change) (hclosed : (ofChanges cs).Enclosed)
    (keys : List GroupKey) (hkeys : ∀ k ∈ (ofChanges cs).keys, k ∈ keys) :
    keys.foldl finalizeGroup (ofChanges cs) = (ofChanges cs).finalize :=
  (wellFormed_ofChanges cs).foldl_finalizeGroup_eq hclosed hkeys fun _ hk => hk

theorem foldl_finalizeGroup_eq_finalize_siblings :
    let apps : GroupKey := ⟨"apps", some "v1"⟩
    let core : GroupKey := ⟨"core", some "v1"⟩
    let cs : List Change :=
      [.registerNamed apps "DaemonSet" .resource none, .registerNamed core "Pod" .resource none,
        .registerAnonymous 0 "spec" (some "Spec") none, .registerAnonymous 1 "spec" (some "Spec") none,
        .registerAnonymous 2 "template" (some "Template") none,
        .setProperties 2 [{ name := "template", type := .list (.type 4), required := true }]]
    (ofChanges cs).Enclosed ∧ (∀ k ∈ (ofChanges cs).keys, k ∈ [core, apps, core]) ∧
      [core, apps, core].foldl finalizeGroup (ofChanges cs) = (ofChanges cs).finalize := by
  intro apps core cs
  have hempty : (List.range 5).all (fun a => a == 2 || ((ofChanges cs).propertiesOf a).isEmpty) =
      true := by decide
  have htemplate : (ofChanges cs).propertiesOf 2 =
      [{ name := "template", type := .list (.type 4), required := true }] := by
    have hlast : ofChanges cs = (ofChanges cs.dropLast).setProperties 2
        [{ name := "template", type := .list (.type 4), required := true }] := rfl
    rw [hlast, propertiesOf, getElem?_setProperties, if_pos rfl, Property.sort,
      List.mergeSort_singleton]
    rfl
  have hclosed : (ofChanges cs).Enclosed := by
    rintro key a ⟨short, ha⟩ p hp x hx
    have hwf := wellFormed_ofChanges cs
    have hlt : a < 5 := hwf.lt_size ha
    have hcase := List.all_eq_true.mp hempty a (List.mem_range.mpr hlt)
    rw [Bool.or_eq_true, beq_iff_eq, List.isEmpty_iff] at hcase
    rcases hcase with rfl | hnone
    · rw [htemplate, List.mem_singleton] at hp
      subst hp
      obtain rfl : x = 4 := by simpa [TypeExpr.leaves] using hx
      have hsame : (ofChanges cs).groupOf? 4 = (ofChanges cs).groupOf? 2 := by decide
      exact .inl (hsame.trans (hwf.filed ha))
    · rw [hnone] at hp
      cases hp
  have hkeys : ∀ k ∈ (ofChanges cs).keys, k ∈ [core, apps, core] := by decide
  exact ⟨hclosed, hkeys, foldl_finalizeGroup_eq_finalize cs hclosed _ hkeys⟩

end Model

end SchemaCompiler
