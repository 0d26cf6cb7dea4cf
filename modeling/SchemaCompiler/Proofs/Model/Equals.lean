import SchemaCompiler.Proofs.Model.LeastMerge

/-! Which objects are one in a finalized model. Where the properties of objects mention no objects of
other groups, two objects of a bucket are one if and only if their properties are. -/

namespace SchemaCompiler

namespace TypeExpr

mutual

theorem leaves_mapIds (f : TypeId → TypeId) :
    ∀ e : TypeExpr, (e.mapIds f).leaves = e.leaves.map (mapIds f)
  | primitive _ => rfl
  | wellKnown _ => rfl
  | type _ => rfl
  | ref _ => rfl
  | bareList => rfl
  | list e => by simpa [mapIds, leaves] using leaves_mapIds f e
  | bareMap => rfl
  | map e => by simpa [mapIds, leaves] using leaves_mapIds f e
  | union es => by simpa [mapIds, leaves] using allLeaves_mapAllIds f es

theorem allLeaves_mapAllIds (f : TypeId → TypeId) :
    ∀ es : List TypeExpr, allLeaves (mapAllIds f es) = (allLeaves es).map (mapIds f)
  | [] => rfl
  | e :: es => by simp [mapAllIds, allLeaves, leaves_mapIds f e, allLeaves_mapAllIds f es]

end

theorem mapIds_eq_type_iff {f : TypeId → TypeId} {e : TypeExpr} {x : TypeId} :
    e.mapIds f = .type x ↔ ∃ b, e = .type b ∧ f b = x := by
  cases e <;> simp [mapIds]

end TypeExpr

/-- What was registered of a type, without the names it may get and what it may be merged into. -/
def TypeEntry.content (t : TypeEntry) : TypeEntry :=
  { t with name := "", qualified := "", mergedInto := none }

/-! Types with the numbers of others in them. -/

def TypeKind.mapIds (f : TypeId → TypeId) : TypeKind → TypeKind
  | .synonym target => .synonym (target.mapIds f)
  | .anonymous parent property => .anonymous (f parent) property
  | kind => kind

def Property.mapIds (f : TypeId → TypeId) (p : Property) : Property :=
  { p with type := p.type.mapIds f }

/-- The order of properties does not depend on their types. -/
theorem Property.sort_map_of_order {g : Property → Property}
    (hg : ∀ a b, order (g a) (g b) = order a b) (ps : List Property) :
    sort (ps.map g) = (sort ps).map g := by
  rw [sort, sort, List.map_mergeSort]
  intro a _ b _
  rw [hg]

theorem Property.sort_map (f : TypeId → TypeId) (ps : List Property) :
    Property.sort (ps.map (Property.mapIds f)) = (Property.sort ps).map (Property.mapIds f) :=
  sort_map_of_order (g := Property.mapIds f) (fun _ _ => rfl) ps

namespace TypeEntry

def mapIds (f : TypeId → TypeId) (t : TypeEntry) : TypeEntry :=
  { t with
    properties := t.properties.map (Property.mapIds f)
    kind := t.kind.mapIds f
    mergedInto := t.mergedInto.map f }

theorem exprs_mapIds (f : TypeId → TypeId) (t : TypeEntry) :
    (t.mapIds f).exprs = t.exprs.map (TypeExpr.mapIds f) := by
  cases hk : t.kind <;>
    simp [exprs, mapIds, hk, TypeKind.mapIds, Property.mapIds, Function.comp_def]

theorem content_mapIds (f : TypeId → TypeId) (t : TypeEntry) :
    (t.mapIds f).content = (t.content.mapIds f).content := rfl

end TypeEntry

namespace Model

variable {m : Model} {key : GroupKey} {g : Group} {short : String} {a b i : TypeId}

theorem PropertiesAgree.mono_leaves {R S : TypeId → TypeId → Prop} (h : m.PropertiesAgree R a b)
    (hRS : ∀ p ∈ m.propertiesOf a, ∀ q ∈ m.propertiesOf b, ∀ x y, .type x ∈ p.type.leaves →
      .type y ∈ q.type.leaves → R x y → S x y) : m.PropertiesAgree S a b := by
  have hmem : ∀ {ps qs : List Property}, List.Forall₂ (fun p q => p.name = q.name ∧
      p.type.Agree R q.type ∧ p.required = q.required) ps qs →
      (∀ p ∈ ps, ∀ q ∈ qs, ∀ x y, .type x ∈ p.type.leaves → .type y ∈ q.type.leaves →
        R x y → S x y) → List.Forall₂ (fun p q => p.name = q.name ∧ p.type.Agree S q.type ∧
          p.required = q.required) ps qs := by
    intro ps qs hall
    induction hall with
    | nil => exact fun _ => .nil
    | @cons p q ps qs hpq _ ih =>
      intro hleaves
      refine .cons ⟨hpq.1, ?_, hpq.2.2⟩ (ih fun p hp q hq =>
        hleaves p (List.mem_cons_of_mem _ hp) q (List.mem_cons_of_mem _ hq))
      exact TypeExpr.Agree.mono_leaves _ _ (hleaves p List.mem_cons_self q List.mem_cons_self) hpq.2.1
  exact hmem h hRS

theorem propertiesAgree_congr {R S : TypeId → TypeId → Prop}
    (hRS : ∀ p ∈ m.propertiesOf a, ∀ q ∈ m.propertiesOf b, ∀ x y, .type x ∈ p.type.leaves →
      .type y ∈ q.type.leaves → (R x y ↔ S x y)) :
    m.PropertiesAgree R a b ↔ m.PropertiesAgree S a b := by
  constructor
  · exact fun h => h.mono_leaves fun p hp q hq x y hx hy => (hRS p hp q hq x y hx hy).mp
  · exact fun h => h.mono_leaves fun p hp q hq x y hx hy => (hRS p hp q hq x y hx hy).mpr

/-! What finalizing keeps. -/

theorem WellFormed.bucket_finalizeGroup (h : m.WellFormed) (k key : GroupKey) (short : String) :
    (m.finalizeGroup k).bucket key short = m.bucket key short := by
  cases hg : m.group? k with
  | none => rw [finalizeGroup_absent hg]
  | some g =>
    rw [finalizeGroup_eq hg, bucket_setFinalized ((h.group?_reconcile hg k).trans hg), bucket,
      h.group?_reconcile hg, bucket]

theorem WellFormed.bucket_foldl (h : m.WellFormed) (keys : List GroupKey) (key : GroupKey)
    (short : String) : (keys.foldl Model.finalizeGroup m).bucket key short = m.bucket key short := by
  induction keys generalizing m with
  | nil => rfl
  | cons k keys ih => rw [List.foldl_cons, ih (h.finalizeGroup k), h.bucket_finalizeGroup]

theorem WellFormed.bucket_finalize (h : m.WellFormed) (key : GroupKey) (short : String) :
    m.finalize.bucket key short = m.bucket key short :=
  h.bucket_foldl m.keys key short

theorem WellFormed.content_finalizeGroup (h : m.WellFormed) (k : GroupKey) (i : TypeId) :
    ((m.finalizeGroup k).types[i]?).map TypeEntry.content = (m.types[i]?).map TypeEntry.content := by
  cases hg : m.group? k with
  | none => rw [finalizeGroup_absent hg]
  | some g =>
    have hrenames : ((m.reconcile g).types[i]?).map TypeEntry.content =
        ((m.merging g).types[i]?).map TypeEntry.content :=
      (h.reconcile_renames hg).map_getElem? (fun _ => rfl) i
    have hmerges : ((m.merging g).types[i]?).map TypeEntry.content =
        (m.types[i]?).map TypeEntry.content := (h.merging hg).map_getElem? (fun _ => rfl) i
    rw [types_finalizeGroup hg, hrenames, hmerges]

theorem WellFormed.content_finalize (h : m.WellFormed) (i : TypeId) :
    (m.finalize.types[i]?).map TypeEntry.content = (m.types[i]?).map TypeEntry.content := by
  rw [Model.finalize]
  generalize m.keys = keys
  induction keys generalizing m with
  | nil => rfl
  | cons k keys ih => rw [List.foldl_cons, ih (h.finalizeGroup k), h.content_finalizeGroup]

theorem WellFormed.size_finalize (h : m.WellFormed) : m.finalize.types.size = m.types.size :=
  size_eq_of_map h.content_finalize

theorem WellFormed.types_finalize (h : m.WellFormed) (hi : ∀ k, ¬m.Filed k i) :
    m.finalize.types[i]? = m.types[i]? := by
  rw [Model.finalize]
  generalize m.keys = keys
  induction keys generalizing m with
  | nil => rfl
  | cons k keys ih =>
    have hfiled : ∀ k', ¬(m.finalizeGroup k).Filed k' i := by
      rintro k' ⟨short, hs⟩
      rw [h.bucket_finalizeGroup] at hs
      exact hi k' ⟨short, hs⟩
    rw [List.foldl_cons, ih (h.finalizeGroup k) hfiled]
    cases hg : m.group? k with
    | none => rw [finalizeGroup_absent hg]
    | some g =>
      have hout : i ∉ g.objects := by
        intro hn
        obtain ⟨short, hs⟩ := (h.mem_objects hg).mp hn
        exact hi k ⟨short, hs⟩
      rw [types_finalizeGroup hg, (h.reconcile_renames hg).outside i hout,
        (h.merging hg).getElem?_outside hout]

theorem WellFormed.resolve_unfiled (h : m.WellFormed) (hi : ∀ k, ¬m.Filed k i) : m.resolve i = i := by
  apply resolve_of_live
  cases hr : m.mergedInto? i with
  | none => rfl
  | some r =>
    obtain ⟨key, short, hs, -⟩ := h.merged hr
    exact absurd ⟨short, hs⟩ (hi key)

theorem WellFormed.unfiled_finalize (h : m.WellFormed) (hi : ∀ k, ¬m.Filed k i) :
    m.finalize.resolve i = i := by
  refine h.finalize.resolve_unfiled ?_
  rintro k ⟨short, hs⟩
  rw [h.bucket_finalize] at hs
  exact hi k ⟨short, hs⟩

theorem WellFormed.mem_bucket_of_resolve_eq (h : m.WellFormed) (ha : a ∈ m.bucket key short)
    (hab : m.finalize.resolve a = m.finalize.resolve b) : b ∈ m.bucket key short := by
  have hr : m.finalize.resolve a ∈ m.bucket key short := by
    rw [← h.bucket_finalize] at ha ⊢
    exact h.finalize.resolve_mem ha
  rw [hab] at hr
  by_cases hb : ∃ k, m.Filed k b
  · obtain ⟨k, short', hb⟩ := hb
    have hr' : m.finalize.resolve b ∈ m.bucket k short' := by
      rw [← h.bucket_finalize] at hb ⊢
      exact h.finalize.resolve_mem hb
    obtain rfl : key = k := Option.some.inj ((h.filed hr).symm.trans (h.filed hr'))
    rwa [h.filed_once hr hr']
  · rwa [h.unfiled_finalize (not_exists.mp hb)] at hr

/-! Equal properties. -/

/-- The properties of an object mention no objects of other groups. -/
def Enclosed (m : Model) : Prop :=
  ∀ key a, m.Filed key a → ∀ p ∈ m.propertiesOf a, ∀ x, .type x ∈ p.type.leaves →
    m.groupOf? x = some key ∨ ∀ k, ¬m.Filed k x

theorem Spares.propertiesOf {m' : Model} (h : Spares key m m') (ha : m.groupOf? a = some key) :
    m'.propertiesOf a = m.propertiesOf a := by
  rw [Model.propertiesOf, h.types a ha, Model.propertiesOf]

/-- What finalizing makes of a group is what merging its objects makes of it, before which other groups
may have been finalized. -/
theorem WellFormed.resolve_finalize (h : m.WellFormed) (hg : m.group? key = some g) :
    ∃ before, before.WellFormed ∧ before.group? key = some g ∧ Spares key m before ∧
      (∀ k short, before.bucket k short = m.bucket k short) ∧
      ∀ i, m.groupOf? i = some key → m.finalize.resolve i = (before.merging g).resolve i := by
  obtain ⟨pre, post, hsplit, hpre, hpost, hbefore, hafter⟩ := h.finalize_split (h.mem_keys.mpr ⟨g, hg⟩)
  have hbucket := h.bucket_foldl pre
  generalize pre.foldl Model.finalizeGroup m = before at hbefore hafter hbucket
  have hwf := hbefore.wellFormed
  have hg' := hbefore.group?.trans hg
  refine ⟨before, hwf, hg', hbefore, hbucket, fun i hi => ?_⟩
  have hbi := (hbefore.groupOf? i).trans hi
  rw [hafter.resolve (hwf.finalizeGroup key) ((hwf.groupOf?_finalizeGroup key i).trans hbi),
    finalizeGroup_eq hg', resolve_setFinalized]
  exact (hwf.reconcile_renames hg').resolve i

theorem WellFormed.resolve_finalize_eq_iff (h : m.WellFormed) (hlive : ∀ i, m.mergedInto? i = none)
    (hclosed : m.Enclosed) (ha : a ∈ m.bucket key short) (hb : b ∈ m.bucket key short) :
    m.finalize.resolve a = m.finalize.resolve b ↔
      m.PropertiesAgree (fun x y => m.finalize.resolve x = m.finalize.resolve y) a b := by
  have hga := h.filed ha
  have hgb := h.filed hb
  obtain ⟨g, hg⟩ := h.mem_keys.mp (h.key_mem hga)
  obtain ⟨before, hwf, hg', hspares, hbucket, hresolve⟩ := h.resolve_finalize hg
  have hm := hwf.merging hg'
  have hbefore : ∀ i, before.Filed key i → before.mergedInto? i = none := by
    rintro i ⟨short, hi⟩
    rw [hbucket] at hi
    rw [mergedInto?, hspares.types i (h.filed hi)]
    exact hlive i
  -- the types that the properties mention are resolved alike, in this group or in none
  have hmention : ∀ {c : TypeId}, c ∈ m.bucket key short → ∀ p ∈ m.propertiesOf c, ∀ x,
      .type x ∈ p.type.leaves → m.finalize.resolve x = (before.merging g).resolve x := by
    intro c hc p hp x hx
    rcases hclosed key c ⟨short, hc⟩ p hp x hx with hgroup | hunfiled
    · exact hresolve x hgroup
    · rw [h.unfiled_finalize hunfiled, hm.wellFormed.resolve_unfiled]
      rintro k ⟨short, hs⟩
      rw [hm.bucket, hbucket] at hs
      exact hunfiled k ⟨short, hs⟩
  have hproperties : ∀ {c : TypeId}, m.groupOf? c = some key →
      (before.merging g).propertiesOf c = m.propertiesOf c := by
    intro c hc
    rw [hm.propertiesOf, hspares.propertiesOf hc]
  rw [hresolve a hga, hresolve b hgb]
  constructor
  · intro hab
    have hfa : before.Filed key a := ⟨short, by rwa [hbucket]⟩
    have hfb : before.Filed key b := ⟨short, by rwa [hbucket]⟩
    have hstructure := hwf.structureOf_resolve_merging hg' hbefore hfa
    rw [hab, ← hwf.structureOf_resolve_merging hg' hbefore hfb, structureOf_eq_iff, PropertiesAgree,
      hproperties hga, hproperties hgb] at hstructure
    refine PropertiesAgree.mono_leaves hstructure fun p hp q hq x y hx hy hxy => ?_
    rw [hmention ha p hp x hx, hmention hb q hq y hy]
    exact hxy
  · intro hab
    have ha' : a ∈ before.bucket key short := by rwa [hbucket]
    have hb' : b ∈ before.bucket key short := by rwa [hbucket]
    refine hwf.mergesEquals_merging hg' hbefore short a b ha' hb' ?_
    rw [PropertiesAgree, hspares.propertiesOf hga, hspares.propertiesOf hgb]
    refine PropertiesAgree.mono_leaves hab fun p hp q hq x y hx hy hxy => ?_
    rw [hmention ha p hp x hx, hmention hb q hq y hy] at hxy
    change (before.merging g).resolve _ = (before.merging g).resolve _
    rw [hm.resolve, hm.resolve, hxy]

/-- An object is one in the end with those of its bucket that have equal properties. -/
theorem WellFormed.resolve_eq_iff (h : m.WellFormed) (hlive : ∀ i, m.mergedInto? i = none)
    (hclosed : m.Enclosed) (ha : a ∈ m.bucket key short) :
    m.finalize.resolve a = m.finalize.resolve b ↔ b ∈ m.bucket key short ∧
      m.PropertiesAgree (fun x y => m.finalize.resolve x = m.finalize.resolve y) a b := by
  constructor
  · intro hab
    have hb := h.mem_bucket_of_resolve_eq ha hab
    exact ⟨hb, (h.resolve_finalize_eq_iff hlive hclosed ha hb).mp hab⟩
  · rintro ⟨hb, hab⟩
    exact (h.resolve_finalize_eq_iff hlive hclosed ha hb).mpr hab

end Model

end SchemaCompiler
