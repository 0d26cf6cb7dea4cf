import Mathlib.Data.Setoid.Basic
import SchemaCompiler.Proofs.Model.Change

/-! What merging achieves. The objects of a group that end up as one are those that the least
equality holds equal, of all equalities under which objects of a bucket are equal once their
properties are. -/

namespace SchemaCompiler

namespace TypeExpr

mutual

/-- Two expressions agree up to types that `R` relates. -/
def Agree (R : TypeId → TypeId → Prop) : TypeExpr → TypeExpr → Prop
  | primitive p, primitive q => p = q
  | wellKnown v, wellKnown w => v = w
  | type i, type j => R i j
  | ref a, ref b => a = b
  | bareList, bareList => True
  | list a, list b => Agree R a b
  | bareMap, bareMap => True
  | map a, map b => Agree R a b
  | union as, union bs => AgreeAll R as bs
  | _, _ => False

def AgreeAll (R : TypeId → TypeId → Prop) : List TypeExpr → List TypeExpr → Prop
  | [], [] => True
  | a :: as, b :: bs => Agree R a b ∧ AgreeAll R as bs
  | _, _ => False

end

mutual

theorem agree_mapIds (R : TypeId → TypeId → Prop) (f g : TypeId → TypeId) :
    ∀ a b : TypeExpr, (a.mapIds f).Agree R (b.mapIds g) ↔ a.Agree (fun i j => R (f i) (g j)) b
  | primitive _, b => by cases b <;> simp [mapIds, Agree]
  | wellKnown _, b => by cases b <;> simp [mapIds, Agree]
  | type _, b => by cases b <;> simp [mapIds, Agree]
  | ref _, b => by cases b <;> simp [mapIds, Agree]
  | bareList, b => by cases b <;> simp [mapIds, Agree]
  | list a, b => by cases b <;> simp [mapIds, Agree, agree_mapIds R f g a]
  | bareMap, b => by cases b <;> simp [mapIds, Agree]
  | map a, b => by cases b <;> simp [mapIds, Agree, agree_mapIds R f g a]
  | union as, b => by cases b <;> simp [mapIds, Agree, agreeAll_mapAllIds R f g as]

theorem agreeAll_mapAllIds (R : TypeId → TypeId → Prop) (f g : TypeId → TypeId) :
    ∀ as bs : List TypeExpr, AgreeAll R (mapAllIds f as) (mapAllIds g bs) ↔
      AgreeAll (fun i j => R (f i) (g j)) as bs
  | [], bs => by cases bs <;> simp [mapAllIds, AgreeAll]
  | a :: as, bs => by
    cases bs <;> simp [mapAllIds, AgreeAll, agree_mapIds R f g a, agreeAll_mapAllIds R f g as]

end

mutual

theorem agree_eq_iff : ∀ a b : TypeExpr, Agree Eq a b ↔ a = b
  | primitive _, b => by cases b <;> simp [Agree]
  | wellKnown _, b => by cases b <;> simp [Agree]
  | type _, b => by cases b <;> simp [Agree]
  | ref _, b => by cases b <;> simp [Agree]
  | bareList, b => by cases b <;> simp [Agree]
  | list a, b => by cases b <;> simp [Agree, agree_eq_iff a]
  | bareMap, b => by cases b <;> simp [Agree]
  | map a, b => by cases b <;> simp [Agree, agree_eq_iff a]
  | union as, b => by cases b <;> simp [Agree, agreeAll_eq_iff as]

theorem agreeAll_eq_iff : ∀ as bs : List TypeExpr, AgreeAll Eq as bs ↔ as = bs
  | [], bs => by cases bs <;> simp [AgreeAll]
  | a :: as, bs => by cases bs <;> simp [AgreeAll, agree_eq_iff a, agreeAll_eq_iff as]

end

theorem mapIds_eq_iff (f g : TypeId → TypeId) (a b : TypeExpr) :
    a.mapIds f = b.mapIds g ↔ a.Agree (fun i j => f i = g j) b := by
  rw [← agree_eq_iff, agree_mapIds]

theorem eq_mapIds_iff (f : TypeId → TypeId) (a b : TypeExpr) :
    a = b.mapIds f ↔ a.Agree (fun i j => i = f j) b := by
  simpa only [mapIds_id, id_eq] using mapIds_eq_iff id f a b

mutual

theorem Agree.mono_leaves {R S : TypeId → TypeId → Prop} :
    ∀ a b : TypeExpr, (∀ i j, .type i ∈ a.leaves → .type j ∈ b.leaves → R i j → S i j) →
      Agree R a b → Agree S a b
  | primitive _, b, _ => by cases b <;> simp [Agree]
  | wellKnown _, b, _ => by cases b <;> simp [Agree]
  | type i, b, h => by
    cases b with
    | type j => exact h i j (by simp [leaves]) (by simp [leaves])
    | _ => simp [Agree]
  | ref _, b, _ => by cases b <;> simp [Agree]
  | bareList, b, _ => by cases b <;> simp [Agree]
  | list a, b, h => by
    cases b with
    | list b => exact Agree.mono_leaves a b h
    | _ => simp [Agree]
  | bareMap, b, _ => by cases b <;> simp [Agree]
  | map a, b, h => by
    cases b with
    | map b => exact Agree.mono_leaves a b h
    | _ => simp [Agree]
  | union as, b, h => by
    cases b with
    | union bs => exact AgreeAll.mono_leaves as bs h
    | _ => simp [Agree]

theorem AgreeAll.mono_leaves {R S : TypeId → TypeId → Prop} :
    ∀ as bs : List TypeExpr,
      (∀ i j, .type i ∈ allLeaves as → .type j ∈ allLeaves bs → R i j → S i j) →
        AgreeAll R as bs → AgreeAll S as bs
  | [], bs, _ => by cases bs <;> simp [AgreeAll]
  | a :: as, bs, h => by
    cases bs with
    | nil => simp [AgreeAll]
    | cons b bs =>
      rintro ⟨hab, hrest⟩
      refine ⟨Agree.mono_leaves a b (fun i j hi hj => ?_) hab,
        AgreeAll.mono_leaves as bs (fun i j hi hj => ?_) hrest⟩
      · exact h i j (List.mem_append_left _ hi) (List.mem_append_left _ hj)
      · exact h i j (List.mem_append_right _ hi) (List.mem_append_right _ hj)

end

theorem Agree.mono {R S : TypeId → TypeId → Prop} (h : ∀ i j, R i j → S i j) (a b : TypeExpr) :
    a.Agree R b → a.Agree S b :=
  Agree.mono_leaves a b fun i j _ _ => h i j

end TypeExpr

/-- The group `key` is not finalized. -/
def Change.LeavesOpen (key : GroupKey) : Change → Prop
  | .finalizeGroup k => k ≠ key
  | .finalize => False
  | _ => True

namespace Model

variable {m : Model} {key : GroupKey} {g : Group}

def propertiesOf (m : Model) (id : TypeId) : List Property :=
  ((m.types[id]?).map TypeEntry.properties).getD []

/-- The properties of `a` and `b` agree in name, type up to types that `R` relates, and being
required. -/
def PropertiesAgree (m : Model) (R : TypeId → TypeId → Prop) (a b : TypeId) : Prop :=
  List.Forall₂ (fun p q => p.name = q.name ∧ p.type.Agree R q.type ∧ p.required = q.required)
    (m.propertiesOf a) (m.propertiesOf b)

/-- Objects of one bucket of the group `key` are equal under `s` once their properties are, where
types that have been merged count as the same. -/
def MergesEquals (m : Model) (key : GroupKey) (s : Setoid TypeId) : Prop :=
  ∀ short a b, a ∈ m.bucket key short → b ∈ m.bucket key short →
    m.PropertiesAgree (fun i j => s (m.resolve i) (m.resolve j)) a b → s a b

/-- The least equality under which objects are equal once their properties are. -/
def leastEquality (m : Model) (key : GroupKey) : Setoid TypeId := sInf {s | m.MergesEquals key s}

theorem PropertiesAgree.mono {R S : TypeId → TypeId → Prop} {a b : TypeId}
    (h : m.PropertiesAgree R a b) (hRS : ∀ i j, R i j → S i j) : m.PropertiesAgree S a b :=
  h.imp fun p q hpq => ⟨hpq.1, TypeExpr.Agree.mono hRS p.type q.type hpq.2.1, hpq.2.2⟩

theorem isLeast_leastEquality (m : Model) (key : GroupKey) :
    IsLeast {s | m.MergesEquals key s} (m.leastEquality key) := by
  constructor
  · intro short a b ha hb hab s hs
    exact hs short a b ha hb (hab.mono fun i j hij => hij s hs)
  · intro s hs
    exact sInf_le hs

theorem structureOf_eq_map (m : Model) (i : TypeId) : m.structureOf i =
    (m.propertiesOf i).map fun p => (p.name, p.type.mapIds m.resolve, p.required) := by
  rw [structureOf, propertiesOf]
  cases m.types[i]? <;> rfl

theorem structureOf_eq_iff {a b : TypeId} : m.structureOf a = m.structureOf b ↔
    m.PropertiesAgree (fun i j => m.resolve i = m.resolve j) a b := by
  rw [structureOf_eq_map, structureOf_eq_map, ← List.forall₂_eq_eq_eq, List.forall₂_map_left_iff,
    List.forall₂_map_right_iff, PropertiesAgree]
  simp only [Prod.mk.injEq, TypeExpr.mapIds_eq_iff]

theorem MergesTo.propertiesOf {ids : List TypeId} {m' : Model} (h : MergesTo ids m m') (i : TypeId) :
    m'.propertiesOf i = m.propertiesOf i := by
  rw [Model.propertiesOf, h.map_getElem? (fun _ => rfl), Model.propertiesOf]

/-! Nothing else is merged. -/

/-- Merging a bucket leads from a type only to types that an equality holds equal to it if the
merging before did. -/
theorem MergesEquals.mergeBucket {s : Setoid TypeId} (hs : m.MergesEquals key s)
    {ids : List TypeId} {m' : Model} (hm : MergesTo ids m m')
    (h : ∀ i, s (m.resolve i) (m'.resolve i)) (short : String) (i : TypeId) :
    s (m.resolve i) ((m'.mergeBucket (m.bucket key short)).resolve i) := by
  have hbucket : ∀ i ∈ m.bucket key short, i ∈ m'.bucket key short := by
    intro i hi
    rwa [hm.bucket]
  rw [(hm.wellFormed.mergeBucket hbucket).2]
  refine s.trans (h i) ?_
  generalize m'.resolve i = r
  by_cases hr : r ∈ m.bucket key short ∧ m'.isLive r = true
  · obtain ⟨hmem, -, hstructure⟩ := standIn_mem hr.1 hr.2
    refine hs short _ _ hr.1 hmem ?_
    have hagree := structureOf_eq_iff.mp hstructure.symm
    rw [PropertiesAgree, hm.propertiesOf, hm.propertiesOf] at hagree
    refine PropertiesAgree.mono hagree fun i j hij => ?_
    have hi := h i
    rw [hij] at hi
    exact s.trans hi (s.symm (h j))
  · rw [standIn_of_not hr]

theorem MergesEquals.merging {s : Setoid TypeId} (hs : m.MergesEquals key s) (h : m.WellFormed)
    (hg : m.group? key = some g) (i : TypeId) : s (m.resolve i) ((m.merging g).resolve i) := by
  let P : Model → Prop := fun m' =>
    MergesTo g.objects m m' ∧ ∀ i, s (m.resolve i) (m'.resolve i)
  have hrounds : P (m.merging g) := by
    refine mergeRounds_induction ?_ _ ⟨MergesTo.refl h _, fun i => s.refl _⟩
    rintro m' ⟨hm, hi⟩ members hmem
    obtain ⟨short, rfl⟩ := h.mem_values hg hmem
    exact ⟨hm.trans (h.mergeBucket_objects hg hm hmem), hs.mergeBucket hm hi short⟩
  exact hrounds.2 i

/-! All of it is merged. -/

theorem structureOf_mergeBucket (h : m.WellFormed) {members : List TypeId} {short : String}
    (hmem : ∀ i ∈ members, i ∈ m.bucket key short) (i : TypeId) :
    (m.mergeBucket members).structureOf i =
      (m.structureOf i).map fun e => (e.1, e.2.1.mapIds (m.standIn members), e.2.2) := by
  obtain ⟨hm, hresolve⟩ := h.mergeBucket hmem
  have hcomp : (m.mergeBucket members).resolve = m.standIn members ∘ m.resolve := funext hresolve
  have hproperties : ((m.mergeBucket members).types[i]?).map TypeEntry.properties =
      (m.types[i]?).map TypeEntry.properties := hm.map_getElem? (fun _ => rfl) i
  rw [structureOf, structureOf, hcomp]
  cases ht : m.types[i]? with
  | none =>
    rw [ht, Option.map_none, Option.map_eq_none_iff] at hproperties
    simp [hproperties]
  | some t =>
    rw [ht, Option.map_some] at hproperties
    obtain ⟨t', ht', he⟩ := Option.map_eq_some_iff.mp hproperties
    simp [ht', he, TypeExpr.mapIds_mapIds]

/-- An object and the one that stands for it keep having the same properties. -/
theorem WellFormed.structureOf_resolve_mergeBucket (h : m.WellFormed) {members : List TypeId}
    {short : String} (hmem : ∀ i ∈ members, i ∈ m.bucket key short) {i : TypeId}
    (hi : m.structureOf i = m.structureOf (m.resolve i)) :
    (m.mergeBucket members).structureOf i =
      (m.mergeBucket members).structureOf ((m.mergeBucket members).resolve i) := by
  rw [structureOf_mergeBucket h hmem, structureOf_mergeBucket h hmem, (h.mergeBucket hmem).2,
    structureOf_standIn, hi]

theorem WellFormed.structureOf_resolve_merging (h : m.WellFormed) (hg : m.group? key = some g)
    (hlive : ∀ i, m.Filed key i → m.mergedInto? i = none) {i : TypeId} (hi : m.Filed key i) :
    (m.merging g).structureOf i = (m.merging g).structureOf ((m.merging g).resolve i) := by
  let P : Model → Prop := fun m' => MergesTo g.objects m m' ∧
    ∀ i, m.Filed key i → m'.structureOf i = m'.structureOf (m'.resolve i)
  have hrounds : P (m.merging g) := by
    refine mergeRounds_induction ?_ _ ⟨MergesTo.refl h _, fun i hi => ?_⟩
    · rintro m' ⟨hm, heq⟩ members hmem
      refine ⟨hm.trans (h.mergeBucket_objects hg hm hmem), fun i hi => ?_⟩
      obtain ⟨short, rfl⟩ := h.mem_values hg hmem
      have hbucket : ∀ i ∈ m.bucket key short, i ∈ m'.bucket key short := by
        intro i hi
        rwa [hm.bucket]
      exact hm.wellFormed.structureOf_resolve_mergeBucket hbucket (heq i hi)
    · rw [resolve_of_live (hlive i hi)]
  exact hrounds.2 i hi

theorem WellFormed.mergeLoop (h : m.WellFormed) (hg : m.group? key = some g) :
    MergeLoop (Table.values g.anonymous) m (m.merging g) := by
  refine mergeLoop_mergeRounds (fun i hi => ?_) ?_
  · obtain ⟨short, hb⟩ := (h.mem_objects hg).mp hi
    exact h.lt_size hb
  · exact List.countP_le_length

/-- Where merging ends, objects of a bucket whose properties agree are one. -/
theorem WellFormed.mergesEquals_merging (h : m.WellFormed) (hg : m.group? key = some g)
    (hlive : ∀ i, m.Filed key i → m.mergedInto? i = none) :
    m.MergesEquals key (Setoid.ker (m.merging g).resolve) := by
  intro short a b ha hb hab
  have hm := h.merging hg
  have hagree : (m.merging g).structureOf a = (m.merging g).structureOf b := by
    rw [structureOf_eq_iff, PropertiesAgree, hm.propertiesOf, hm.propertiesOf]
    refine PropertiesAgree.mono hab fun i j hij => ?_
    rw [← hm.resolve i, ← hm.resolve j]
    exact hij
  rw [h.structureOf_resolve_merging hg hlive ⟨short, ha⟩,
    h.structureOf_resolve_merging hg hlive ⟨short, hb⟩] at hagree
  have hmember : m.bucket key short ∈ Table.values g.anonymous := by
    rw [bucket_of_group? hg] at ha ⊢
    cases hs : Table.get? short g.anonymous with
    | none => simp [hs] at ha
    | some members => exact (h.anonymous_ordered hg).mem_values.mpr ⟨short, hs⟩
  have hresolved : ∀ i ∈ m.bucket key short, (m.merging g).resolve i ∈ m.bucket key short := by
    intro i hi
    rw [← hm.bucket] at hi ⊢
    exact hm.wellFormed.resolve_mem hi
  have hlt : ∀ i ∈ (Table.values g.anonymous).flatten, i < (m.merging g).types.size := by
    intro i hi
    obtain ⟨short, hb⟩ := (h.mem_objects hg).mp hi
    rw [hm.size_eq]
    exact h.lt_size hb
  exact eq_of_fixed hlt (h.mergeLoop hg).fixed hmember (hresolved a ha) (hresolved b hb)
    (isLive_iff.mpr (hm.wellFormed.mergedInto?_resolve a))
    (isLive_iff.mpr (hm.wellFormed.mergedInto?_resolve b)) hagree

/-! Merged objects take over a full name. -/

theorem map_qualified_assignNames (names : List (TypeId × String)) (m : Model) (i : TypeId) :
    ((m.assignNames names).types[i]?).map TypeEntry.qualified =
      (m.types[i]?).map TypeEntry.qualified := by
  induction names generalizing m with
  | nil => rfl
  | cons e names ih =>
    have hcons : m.assignNames (e :: names) = (m.setName e.1 e.2).assignNames names := rfl
    have hname : ∀ t : TypeEntry, ({ t with name := e.2 } : TypeEntry).qualified = t.qualified :=
      fun _ => rfl
    rw [hcons, ih]
    exact map_getElem?_amend hname i

/-- Sharing full names goes through the objects one by one; those that stand for others keep
theirs all the time. -/
theorem map_qualified_shared {ids shared : List TypeId} {m' : Model} (h : m.WellFormed)
    (hm : RenamesTo ids m m') (hlive : ∀ i, m.isLive i = true → m'.types[i]? = m.types[i]?)
    (hlt : ∀ i ∈ shared, i < m.types.size ∧ m.resolve i < m.types.size)
    (hids : ∀ i ∈ shared, i ∈ ids) (i : TypeId) :
    ((shared.foldl shareQualified m').types[i]?).map TypeEntry.qualified =
      if i ∈ shared ∧ m.isLive i = false then (m.types[m.resolve i]?).map TypeEntry.qualified
      else (m'.types[i]?).map TypeEntry.qualified := by
  induction shared generalizing m' with
  | nil => simp
  | cons j shared ih =>
    have hsame : m'.isLive j = m.isLive j := by
      rw [Bool.eq_iff_iff, isLive_iff, isLive_iff, hm.mergedInto?]
    have hrest := fun (m' : Model) (hm : RenamesTo ids m m') hlive => ih hm hlive
      (fun i hi => hlt i (List.mem_cons_of_mem _ hi)) fun i hi => hids i (List.mem_cons_of_mem _ hi)
    rw [List.foldl_cons]
    by_cases hj : m.isLive j = true
    · have hstep : m'.shareQualified j = m' := by
        rw [shareQualified, hsame, if_pos hj]
      rw [hstep, hrest m' hm hlive]
      by_cases hi : i = j
      · simp [hi, hj]
      · simp [hi]
    · obtain ⟨r, hr⟩ : ∃ r, m.types[m.resolve j]? = some r :=
        ⟨_, Array.getElem?_eq_getElem (hlt j List.mem_cons_self).2⟩
      have hresolve : m'.types[m'.resolve j]? = some r := by
        rw [hm.resolve, hlive _ (isLive_iff.mpr (h.mergedInto?_resolve j)), hr]
      have hstep : m'.shareQualified j = m'.amend j fun t => { t with qualified := r.qualified } := by
        rw [shareQualified, hsame, if_neg hj, hresolve]
        rfl
      have hm' : RenamesTo ids m (m'.shareQualified j) := by
        rw [hstep]
        exact hm.trans (RenamesTo.amend m' (hids j List.mem_cons_self) fun _ => rfl)
      have hlive' : ∀ i, m.isLive i = true → (m'.shareQualified j).types[i]? = m.types[i]? := by
        intro i hi
        have hne : i ≠ j := by
          rintro rfl
          exact hj hi
        rw [hstep, getElem?_amend, if_neg hne, hlive i hi]
      rw [hrest _ hm' hlive', hstep, getElem?_amend]
      by_cases hi : i = j
      · subst hi
        obtain ⟨t, ht⟩ : ∃ t, m'.types[i]? = some t := by
          refine ⟨_, Array.getElem?_eq_getElem ?_⟩
          rw [hm.size_eq]
          exact (hlt i List.mem_cons_self).1
        simp [hj, hr, ht]
      · simp [hi]

theorem WellFormed.map_qualified_mergeEquals (h : m.WellFormed) (hg : m.group? key = some g)
    (i : TypeId) :
    ((m.mergeEquals (Table.values g.anonymous)).types[i]?).map TypeEntry.qualified =
      if i ∈ g.objects ∧ (m.merging g).isLive i = false then
        ((m.merging g).types[(m.merging g).resolve i]?).map TypeEntry.qualified
      else ((m.merging g).types[i]?).map TypeEntry.qualified := by
  have hm := h.merging hg
  have hlt : ∀ i ∈ g.objects,
      i < (m.merging g).types.size ∧ (m.merging g).resolve i < (m.merging g).types.size := by
    intro i hi
    obtain ⟨short, hb⟩ := (h.mem_objects hg).mp hi
    rw [← hm.bucket] at hb
    exact ⟨hm.wellFormed.lt_size hb, hm.wellFormed.lt_size (hm.wellFormed.resolve_mem hb)⟩
  exact map_qualified_shared hm.wellFormed (RenamesTo.refl g.objects _) (fun _ _ => rfl) hlt
    (fun _ hi => hi) i

theorem WellFormed.map_qualified_reconcile (h : m.WellFormed) (hg : m.group? key = some g)
    {i : TypeId} (hi : m.Filed key i) :
    ((m.reconcile g).types[i]?).map TypeEntry.qualified =
      ((m.reconcile g).types[(m.merging g).resolve i]?).map TypeEntry.qualified := by
  have hresolved : (m.merging g).isLive ((m.merging g).resolve i) = true :=
    isLive_iff.mpr ((h.merging hg).wellFormed.mergedInto?_resolve i)
  rw [reconcile_eq, map_qualified_assignNames, map_qualified_assignNames,
    h.map_qualified_mergeEquals hg, h.map_qualified_mergeEquals hg]
  by_cases hlive : (m.merging g).isLive i = true
  · simp [resolve_of_live (isLive_iff.mp hlive)]
  · simp [(h.mem_objects hg).mpr hi, hlive, hresolved]

/-! Models whose group `key` is still as it was registered. -/

theorem WellFormed.unmerged_change (h : m.WellFormed)
    (hlive : ∀ i, m.groupOf? i = some key → m.mergedInto? i = none) {c : Change}
    (hc : c.LeavesOpen key) {i : TypeId} (hi : (m.change c).groupOf? i = some key) :
    (m.change c).mergedInto? i = none := by
  have hpush : ∀ {m' : Model} {t : TypeEntry}, m'.types = m.types.push t → t.mergedInto = none →
      m'.groupOf? i = some key → m'.mergedInto? i = none := by
    intro m' t ht hm hg
    rw [groupOf?_push ht] at hg
    rw [mergedInto?_push ht hm]
    by_cases hsize : i = m.types.size
    · simp [mergedInto?, hsize]
    · rw [if_neg hsize] at hg
      exact hlive i hg
  have hamend : ∀ (id : TypeId) (f : TypeEntry → TypeEntry), (∀ t, (f t).group = t.group) →
      (∀ t, (f t).mergedInto = t.mergedInto) → (m.amend id f).groupOf? i = some key →
      (m.amend id f).mergedInto? i = none := by
    intro id f hgroup hmerged hg
    rw [groupOf?_amend hgroup] at hg
    rw [mergedInto?_amend hmerged]
    exact hlive i hg
  cases c with
  | registerNamed group name kind description =>
    cases hf : m.find? group (group.qualify name) with
    | some id =>
      rw [Model.change, registerNamed_known hf] at hi ⊢
      exact hlive i hi
    | none => exact hpush (types_registerNamed_new hf kind description) rfl hi
  | registerAnonymous parent property typeName description =>
    cases hp : m.types[parent]? with
    | none =>
      rw [Model.change, registerAnonymous_orphan hp] at hi ⊢
      exact hlive i hi
    | some above => exact hpush (types_registerAnonymous_new hp property typeName description) rfl hi
  | setProperties id properties =>
    exact hamend id (fun t => { t with properties := Property.sort properties }) (fun _ => rfl)
      (fun _ => rfl) hi
  | setKind id kind =>
    exact hamend id (fun t => { t with kind }) (fun _ => rfl) (fun _ => rfl) hi
  | finalizeGroup k =>
    have hspares := finalizeGroup_spares h hc
    have hgroup := (hspares.groupOf? i).symm.trans hi
    rw [Model.change, mergedInto?, hspares.types i hgroup]
    exact hlive i hgroup
  | finalize => exact hc.elim

theorem WellFormed.unmerged_changes (h : m.WellFormed)
    (hlive : ∀ i, m.groupOf? i = some key → m.mergedInto? i = none) {cs : List Change}
    (hcs : ∀ c ∈ cs, c.LeavesOpen key) {i : TypeId}
    (hi : (cs.foldl Model.change m).groupOf? i = some key) :
    (cs.foldl Model.change m).mergedInto? i = none := by
  induction cs generalizing m with
  | nil => exact hlive i hi
  | cons c cs ih =>
    refine ih (h.change c) (fun j hj => ?_) (fun c hc => hcs c (List.mem_cons_of_mem _ hc)) hi
    exact h.unmerged_change hlive (hcs c List.mem_cons_self) hj

/-- `m'` comes from `m` by merging the objects of the group `key` as far as the least equality
under which objects are equal once their properties are, and no further. -/
structure MergesLeast (m : Model) (key : GroupKey) (m' : Model) : Prop where
  /-- The loop over the buckets ends, and leaves what each object is merged into. -/
  loop : ∀ g, m.group? key = some g → ∃ merged, MergeLoop (Table.values g.anonymous) m merged ∧
    ∀ i, m'.mergedInto? i = merged.mergedInto? i
  resolve_eq_iff : ∀ {a b}, m.Filed key a → m.Filed key b →
    (m'.resolve a = m'.resolve b ↔ m.leastEquality key a b)
  retained : ∀ {a}, m.Filed key a →
    m.Filed key (m'.resolve a) ∧ m.leastEquality key a (m'.resolve a)
  /-- The retained object comes first by full name and then by number. -/
  least : ∀ {a b}, m.Filed key a → m.Filed key b → m.leastEquality key a b →
    m.fullNameOf (m'.resolve a) < m.fullNameOf b ∨
      m.fullNameOf (m'.resolve a) = m.fullNameOf b ∧ m'.resolve a ≤ b
  qualified : ∀ {a}, m.Filed key a → (m'.types[a]?).map TypeEntry.qualified =
    (m'.types[m'.resolve a]?).map TypeEntry.qualified

theorem precedes_iff_lt {a b : TypeId} : m.precedes a b = true ↔
    m.fullNameOf a < m.fullNameOf b ∨ m.fullNameOf a = m.fullNameOf b ∧ a < b := by
  have htext : ∀ s t : String, compare s t = .lt ↔ s < t := fun _ _ => compareOfLessAndEq_eq_lt
  rw [precedes, beq_iff_eq, Ordering.then_eq_lt, htext, Std.LawfulEqCmp.compare_eq_iff_eq,
    Nat.compare_eq_lt]

theorem not_precedes_iff {a b : TypeId} : m.precedes b a = false ↔
    m.fullNameOf a < m.fullNameOf b ∨ m.fullNameOf a = m.fullNameOf b ∧ a ≤ b := by
  rcases eq_or_ne a b with rfl | hne
  · simp [precedes_irrefl]
  · have hle : a ≤ b ↔ a < b := ⟨fun h => Nat.lt_of_le_of_ne h hne, Nat.le_of_lt⟩
    rw [hle, ← precedes_iff_lt]
    constructor
    · intro hba
      exact (precedes_or hne).resolve_right (by simp [hba])
    · intro hab
      apply Bool.eq_false_iff.mpr
      intro hba
      have haa := precedes_trans hab hba
      simp [precedes_irrefl] at haa

/-- Merging joins what the least equality joins, as it is an equality itself and below every other. -/
theorem WellFormed.resolve_merging_eq_iff (h : m.WellFormed) (hg : m.group? key = some g)
    (hlive : ∀ i, m.Filed key i → m.mergedInto? i = none) {a b : TypeId} (ha : m.Filed key a)
    (hb : m.Filed key b) :
    (m.merging g).resolve a = (m.merging g).resolve b ↔ m.leastEquality key a b := by
  constructor
  · intro hab s hs
    have hsa : s a ((m.merging g).resolve a) := by
      simpa only [resolve_of_live (hlive a ha)] using hs.merging h hg a
    have hsb : s b ((m.merging g).resolve b) := by
      simpa only [resolve_of_live (hlive b hb)] using hs.merging h hg b
    rw [← hab] at hsb
    exact s.trans hsa (s.symm hsb)
  · intro hab
    exact hab _ (h.mergesEquals_merging hg hlive)

theorem MergesTo.filed_resolve {ids : List TypeId} (hm : MergesTo ids m m') {a : TypeId}
    (ha : m.Filed key a) : m.Filed key (m'.resolve a) := by
  obtain ⟨short, ha⟩ := ha
  rw [← hm.bucket] at ha
  have hr := hm.wellFormed.resolve_mem ha
  rw [hm.bucket] at hr
  exact ⟨short, hr⟩

theorem WellFormed.mergesLeast_finalizeGroup (h : m.WellFormed)
    (hlive : ∀ i, m.Filed key i → m.mergedInto? i = none) :
    m.MergesLeast key (m.finalizeGroup key) := by
  cases hg : m.group? key with
  | none =>
    have hnone : ∀ i, ¬m.Filed key i := by
      rintro i ⟨short, hi⟩
      simp [bucket, hg] at hi
    refine ⟨fun g hg' => ?_, fun ha => absurd ha (hnone _), fun ha => absurd ha (hnone _),
      fun ha => absurd ha (hnone _), fun ha => absurd ha (hnone _)⟩
    rw [hg] at hg'
    cases hg'
  | some g =>
    have hm := h.merging hg
    have hiff := fun {a b} => h.resolve_merging_eq_iff hg hlive (a := a) (b := b)
    have hmerged : ∀ i, (m.finalizeGroup key).mergedInto? i = (m.merging g).mergedInto? i := by
      intro i
      rw [finalizeGroup_eq hg]
      exact (h.reconcile_renames hg).mergedInto? i
    have hresolve : ∀ i, (m.finalizeGroup key).resolve i = (m.merging g).resolve i := by
      intro i
      rw [finalizeGroup_eq hg, resolve_setFinalized]
      exact (h.reconcile_renames hg).resolve i
    refine ⟨fun g' hg' => ?_, fun ha hb => ?_, fun {a} ha => ?_, fun {a b} ha hb hab => ?_,
      fun {a} ha => ?_⟩
    · obtain rfl := Option.some.inj (hg.symm.trans hg')
      exact ⟨m.merging g, h.mergeLoop hg, hmerged⟩
    · rw [hresolve, hresolve]
      exact hiff ha hb
    · rw [hresolve]
      have hfiled := hm.filed_resolve ha
      exact ⟨hfiled, (hiff ha hfiled).mp (hm.wellFormed.resolve_resolve a).symm⟩
    · rw [hresolve, (hiff ha hb).mpr hab, ← not_precedes_iff, ← hm.precedes]
      exact hm.wellFormed.not_precedes_resolve b
    · rw [hresolve, finalizeGroup_eq hg]
      exact h.map_qualified_reconcile hg ha

/-- The first time a group is finalized, whatever was registered and whatever groups were finalized
before, its objects are merged as far as the least equality demands. -/
theorem finalizeGroup_mergesLeast (cs : List Change) {key : GroupKey}
    (hcs : ∀ c ∈ cs, c.LeavesOpen key) :
    (ofChanges cs).MergesLeast key ((ofChanges cs).finalizeGroup key) := by
  have hwf := wellFormed_ofChanges cs
  refine hwf.mergesLeast_finalizeGroup fun i hi => ?_
  obtain ⟨short, hb⟩ := hi
  refine wellFormed_empty.unmerged_changes (fun j hj => ?_) hcs (hwf.filed hb)
  simp [groupOf?] at hj

theorem finalizeGroup_mergesLeast_siblings :
    let apps : GroupKey := ⟨"apps", some "v1"⟩
    let cs : List Change :=
      [.registerNamed apps "DaemonSet" .resource none, .registerNamed apps "Deployment" .resource none,
        .registerAnonymous 1 "spec" (some "Spec") none, .registerAnonymous 0 "spec" (some "Spec") none,
        .finalizeGroup ⟨"core", some "v1"⟩]
    (∀ c ∈ cs, c.LeavesOpen apps) ∧
      (ofChanges cs).MergesLeast apps ((ofChanges cs).finalizeGroup apps) := by
  intro apps cs
  have hcs : ∀ c ∈ cs, c.LeavesOpen apps := by
    intro c hc
    simp only [cs, List.mem_cons, List.not_mem_nil, or_false] at hc
    rcases hc with rfl | rfl | rfl | rfl | rfl
    · trivial
    · trivial
    · trivial
    · trivial
    · simp [Change.LeavesOpen, apps]
  exact ⟨hcs, finalizeGroup_mergesLeast cs hcs⟩

end Model

end SchemaCompiler
