import SchemaCompiler.Proofs.Model.Correspondence
import SchemaCompiler.Proofs.Model.Equals
import SchemaCompiler.Proofs.Model.Label

/-! Types in another order of registration. Numbers decide between objects of a bucket with the same
full name only, so that without such objects finalizing does the same to models that differ in the
numbers of their types. -/

namespace SchemaCompiler

namespace TypeExpr

mutual

theorem generics_mapIds (f : TypeId → TypeId) : ∀ e : TypeExpr, (e.mapIds f).generics = e.generics
  | primitive _ => rfl
  | wellKnown _ => rfl
  | type _ => rfl
  | ref _ => rfl
  | bareList => rfl
  | list e => by simp [mapIds, generics, generics_mapIds f e]
  | bareMap => rfl
  | map e => by simp [mapIds, generics, generics_mapIds f e]
  | union es => by simp [mapIds, generics, allGenerics_mapAllIds f es]

theorem allGenerics_mapAllIds (f : TypeId → TypeId) :
    ∀ es : List TypeExpr, allGenerics (mapAllIds f es) = allGenerics es
  | [] => rfl
  | e :: es => by
    simp [mapAllIds, allGenerics, generics_mapIds f e, allGenerics_mapAllIds f es]

end

theorem wellKnownName?_mapIds (f : TypeId → TypeId) (e : TypeExpr) :
    (e.mapIds f).wellKnownName? = e.wellKnownName? := by
  cases e <;> rfl

end TypeExpr

theorem TypeEntry.apiResource?_mapIds (f : TypeId → TypeId) (t : TypeEntry) :
    (t.mapIds f).apiResource? = t.apiResource? := by
  cases hk : t.kind <;> simp [apiResource?, mapIds, TypeKind.mapIds, hk]

def FinalizedGroup.mapIds (f : TypeId → TypeId) (view : FinalizedGroup) : FinalizedGroup :=
  { view with types := view.types.map f }

/-- The same names and buckets, with each type `i` under the number `f i` and the objects of a bucket in
any order. -/
structure Group.Renumbers (f : TypeId → TypeId) (g g' : Group) : Prop where
  named : g'.named = g.named.map fun e => (e.1, f e.2)
  anonymous : Table.Alike (fun members members' => members'.Perm (members.map f)) g.anonymous
    g'.anonymous

theorem Group.Renumbers.objects_perm {f : TypeId → TypeId} {g g' : Group}
    (h : g.Renumbers f g') :
    g'.objects.Perm (g.objects.map f) := by
  have hbuckets : ∀ {t t' : Table String (List TypeId)},
      Table.Alike (fun members members' => members'.Perm (members.map f)) t t' →
        (Table.values t').flatten.Perm ((Table.values t).flatten.map f) := by
    intro t t' ht
    induction ht with
    | nil => exact .nil
    | cons he _ ih =>
      simp only [Table.values, List.map_cons, List.flatten_cons, List.map_append] at ih ⊢
      exact he.2.append ih
  exact hbuckets h.anonymous

namespace Model

/-- `φ` takes types to types of the same groups and names, and what stands for a type to what stands for
it there. -/
structure Carries (φ : TypeId → TypeId) (m m' : Model) : Prop where
  groupOf? : ∀ i, m'.groupOf? (φ i) = m.groupOf? i
  resolve : ∀ i, m'.resolve (φ i) = φ (m.resolve i)
  named? : ∀ key name, m'.named? key name = (m.named? key name).map φ

section Carries

variable {φ : TypeId → TypeId} {m m' : Model} {key : GroupKey} (h : Carries φ m m')

theorem WellFormed.localTarget?_mapIds (hm : m.WellFormed) (leaf : TypeExpr) :
    m.localTarget? key (leaf.mapIds m.resolve) = m.localTarget? key leaf := by
  cases leaf with
  | type x => rw [TypeExpr.mapIds, localTarget?, localTarget?, hm.resolve_resolve]
  | _ => rfl

theorem WellFormed.foreignGroup?_mapIds (hm : m.WellFormed) (leaf : TypeExpr) :
    m.foreignGroup? key (leaf.mapIds m.resolve) = m.foreignGroup? key leaf := by
  cases leaf with
  | type x => rw [TypeExpr.mapIds, foreignGroup?, foreignGroup?, hm.resolve_resolve]
  | _ => rfl

include h

theorem Carries.localTarget? (leaf : TypeExpr) :
    m'.localTarget? key (leaf.mapIds φ) = (m.localTarget? key leaf).map φ := by
  cases leaf with
  | type x =>
    rw [TypeExpr.mapIds, Model.localTarget?, Model.localTarget?, h.resolve, h.groupOf?]
    split <;> rfl
  | ref q =>
    change m'.localTarget? key (.ref q) = _
    rw [Model.localTarget?, Model.localTarget?, h.named?]
    split <;> rfl
  | _ => rfl

theorem Carries.foreignGroup? (leaf : TypeExpr) :
    m'.foreignGroup? key (leaf.mapIds φ) = m.foreignGroup? key leaf := by
  cases leaf with
  | type x => rw [TypeExpr.mapIds, Model.foreignGroup?, Model.foreignGroup?, h.resolve, h.groupOf?]
  | _ => rfl

/-- The types of a group correspond where what they are made of does, up to what stands for it. -/
theorem Carries.corresponds (hm : m.WellFormed) (hm' : m'.WellFormed)
    (hsize : m'.types.size = m.types.size)
    (hlive : ∀ {u}, u ∈ m'.liveTypes key ↔ ∃ v ∈ m.liveTypes key, φ v = u)
    (hinjective : ∀ {u v}, u ∈ m.liveTypes key → v ∈ m.liveTypes key → φ u = φ v → u = v)
    (hexprs : ∀ u ∈ m.liveTypes key, (m'.exprsOf (φ u)).map (TypeExpr.mapIds m'.resolve) =
      (m.exprsOf u).map (TypeExpr.mapIds (m'.resolve ∘ φ)))
    (hresource : ∀ u ∈ m.liveTypes key, (m'.types[φ u]?).bind TypeEntry.apiResource? =
      (m.types[u]?).bind TypeEntry.apiResource?) : Corresponds φ key m m' := by
  have hleaves : ∀ u ∈ m.liveTypes key, (m'.leavesOf (φ u)).map (TypeExpr.mapIds m'.resolve) =
      (m.leavesOf u).map (TypeExpr.mapIds (m'.resolve ∘ φ)) := by
    intro u hu
    have hflat := congrArg (List.flatMap TypeExpr.leaves) (hexprs u hu)
    simpa only [List.flatMap_map, TypeExpr.leaves_mapIds, ← List.map_flatMap, leavesOf] using hflat
  have hfilter : ∀ {α : Type} {F F' : TypeExpr → Option α},
      (∀ e, F' (e.mapIds m'.resolve) = F' e) → (∀ e, F' (e.mapIds φ) = F e) →
        ∀ u ∈ m.liveTypes key, (m'.leavesOf (φ u)).filterMap F' = (m.leavesOf u).filterMap F := by
    intro α F F' hresolve hφ u hu
    have hmap := congrArg (List.filterMap F') (hleaves u hu)
    rw [List.filterMap_map, List.filterMap_map] at hmap
    rw [← List.filterMap_congr fun e _ => hresolve e, ← List.filterMap_congr fun e _ => hφ e]
    refine hmap.trans (List.filterMap_congr fun e _ => ?_)
    rw [Function.comp_apply, ← TypeExpr.mapIds_mapIds, hresolve]
  refine ⟨hm, hm', hsize, hlive, hinjective, fun u hu => ?_, fun u hu => ?_, fun u hu => ?_,
    fun u hu => ?_⟩
  · rw [dependencies, dependencies, List.map_filterMap]
    exact hfilter hm'.localTarget?_mapIds h.localTarget? u hu
  · exact hfilter hm'.foreignGroup?_mapIds h.foreignGroup? u hu
  · have hflat := congrArg (List.flatMap TypeExpr.generics) (hexprs u hu)
    simpa only [List.flatMap_map, TypeExpr.generics_mapIds] using hflat
  · rw [baseNamesOf, baseNamesOf, hresource u hu]
    refine congrArg _ (hfilter ?_ ?_ u hu)
    · exact TypeExpr.wellKnownName?_mapIds m'.resolve
    · exact TypeExpr.wellKnownName?_mapIds φ

end Carries

/-- The same groups and types, with each type `i` under the number `f i`. -/
structure Renumbers (f : Equiv.Perm TypeId) (m m' : Model) : Prop where
  groups : Table.Alike (Group.Renumbers f) m.groups m'.groups
  types : ∀ i : TypeId, m'.types[f i]? = (m.types[i]?).map (TypeEntry.mapIds f)

/-- The objects of a bucket have different full names. -/
def FullNamesDiffer (m : Model) : Prop :=
  ∀ {key short i j}, i ∈ m.bucket key short → j ∈ m.bucket key short →
    m.fullNameOf i = m.fullNameOf j → i = j

variable {f : Equiv.Perm TypeId} {m m' : Model} {key : GroupKey} {g g' : Group} {i j : TypeId}

section Renumbers

variable (h : Renumbers f m m')

include h

theorem Renumbers.map_getElem? {α : Type} {proj : TypeEntry → α}
    (hproj : ∀ t, proj (t.mapIds f) = proj t) (i : TypeId) :
    (m'.types[f i]?).map proj = (m.types[i]?).map proj := by
  rw [h.types, Option.map_map]
  exact congrArg (Option.map · _) (funext hproj)

theorem Renumbers.groupOf? (i : TypeId) : m'.groupOf? (f i) = m.groupOf? i :=
  h.map_getElem? (fun _ => rfl) i

theorem Renumbers.fullNameOf (i : TypeId) : m'.fullNameOf (f i) = m.fullNameOf i := by
  rw [Model.fullNameOf, h.map_getElem? (fun _ => rfl), Model.fullNameOf]

theorem Renumbers.mergedInto? (i : TypeId) :
    m'.mergedInto? (f i) = (m.mergedInto? i).map f := by
  rw [Model.mergedInto?, Model.mergedInto?, h.types]
  cases m.types[i]? <;> rfl

theorem Renumbers.isLive (i : TypeId) : m'.isLive (f i) = m.isLive i := by
  rw [Bool.eq_iff_iff, isLive_iff, isLive_iff, h.mergedInto?, Option.map_eq_none_iff]

theorem Renumbers.size_eq : m'.types.size = m.types.size := by
  have hlt : ∀ i, f i < m'.types.size ↔ i < m.types.size := by
    intro i
    have hnone : m'.types[f i]? = none ↔ m.types[i]? = none := by rw [h.types, Option.map_eq_none_iff]
    rw [Array.getElem?_eq_none_iff, Array.getElem?_eq_none_iff] at hnone
    simpa only [not_le] using not_congr hnone
  have hperm : (List.range m'.types.size).Perm ((List.range m.types.size).map f) := by
    refine (List.perm_ext_iff_of_nodup List.nodup_range (List.nodup_range.map f.injective)).mpr ?_
    intro j
    rw [List.mem_range, List.mem_map]
    constructor
    · intro hj
      refine ⟨f.symm j, List.mem_range.mpr ?_, f.apply_symm_apply j⟩
      rwa [← hlt, f.apply_symm_apply]
    · rintro ⟨i, hi, rfl⟩
      exact (hlt i).mpr (List.mem_range.mp hi)
  simpa using hperm.length_eq

theorem Renumbers.propertiesOf (i : TypeId) :
    m'.propertiesOf (f i) = (m.propertiesOf i).map (Property.mapIds f) := by
  rw [Model.propertiesOf, Model.propertiesOf, h.types]
  cases m.types[i]? <;> rfl

theorem Renumbers.exprsOf (i : TypeId) :
    m'.exprsOf (f i) = (m.exprsOf i).map (TypeExpr.mapIds f) := by
  rw [Model.exprsOf, Model.exprsOf, h.types]
  cases m.types[i]? with
  | none => rfl
  | some t => exact t.exprs_mapIds f

theorem Renumbers.bind_apiResource? (i : TypeId) :
    (m'.types[f i]?).bind TypeEntry.apiResource? = (m.types[i]?).bind TypeEntry.apiResource? := by
  rw [h.types]
  cases m.types[i]? with
  | none => rfl
  | some t => exact t.apiResource?_mapIds f

theorem Renumbers.propertiesAgree {R : TypeId → TypeId → Prop} {a b : TypeId} :
    m'.PropertiesAgree R (f a) (f b) ↔ m.PropertiesAgree (fun i j => R (f i) (f j)) a b := by
  rw [PropertiesAgree, PropertiesAgree, h.propertiesOf, h.propertiesOf, List.forall₂_map_left_iff,
    List.forall₂_map_right_iff]
  simp only [Property.mapIds, TypeExpr.agree_mapIds]

theorem Renumbers.group? (hg : m.group? key = some g) :
    ∃ g', m'.group? key = some g' ∧ g.Renumbers f g' :=
  h.groups.get?_eq_some hg

theorem Renumbers.group?_eq_none (hg : m.group? key = none) : m'.group? key = none :=
  h.groups.get?_eq_none hg

theorem Renumbers.keys_eq : m'.keys = m.keys := h.groups.keys_eq

theorem Renumbers.bucket (key : GroupKey) (short : String) :
    (m'.bucket key short).Perm ((m.bucket key short).map f) := by
  rw [Model.bucket, Model.bucket]
  cases hg : m.group? key with
  | none => simp [h.group?_eq_none hg]
  | some g =>
    obtain ⟨g', hg', hr⟩ := h.group? hg
    rw [hg', Option.bind_some, Option.bind_some]
    cases hs : Table.get? short g.anonymous with
    | none => simp [hr.anonymous.get?_eq_none hs]
    | some members =>
      obtain ⟨members', hs', hperm⟩ := hr.anonymous.get?_eq_some hs
      rw [hs']
      exact hperm

theorem Renumbers.named? (key : GroupKey) (name : String) :
    m'.named? key name = (m.named? key name).map f := by
  rw [Model.named?, Model.named?]
  cases hg : m.group? key with
  | none => rw [h.group?_eq_none hg]; rfl
  | some g =>
    obtain ⟨g', hg', hr⟩ := h.group? hg
    rw [hg', Option.bind_some, Option.bind_some, hr.named]
    induction g.named with
    | nil => rfl
    | cons e t ih =>
      rw [List.map_cons, Table.get?_cons]
      obtain ⟨n, i⟩ := e
      rw [Table.get?_cons]
      split
      · rfl
      · exact ih

theorem Renumbers.resolve (hm : m.WellFormed) (hm' : m'.WellFormed) (i : TypeId) :
    m'.resolve (f i) = f (m.resolve i) := by
  induction i using hm.induction_on with
  | live i hi =>
    rw [resolve_of_live hi, resolve_of_live]
    rw [h.mergedInto?, hi]
    rfl
  | merged i r hr ih =>
    rw [hm.resolve_of_merged hr, ← ih]
    refine hm'.resolve_of_merged ?_
    rw [h.mergedInto?, hr]
    rfl

theorem Renumbers.structureOf_eq_iff (hm : m.WellFormed) (hm' : m'.WellFormed) (a b : TypeId) :
    m'.structureOf (f a) = m'.structureOf (f b) ↔ m.structureOf a = m.structureOf b := by
  rw [Model.structureOf_eq_iff, Model.structureOf_eq_iff, h.propertiesAgree]
  simp only [h.resolve hm hm', EmbeddingLike.apply_eq_iff_eq]

end Renumbers

/-! Merging. -/

theorem FullNamesDiffer.precedes (hd : m.FullNamesDiffer) (h : Renumbers f m m') {short : String}
    (hi : i ∈ m.bucket key short) (hj : j ∈ m.bucket key short) :
    m'.precedes (f i) (f j) = m.precedes i j := by
  by_cases hij : i = j
  · rw [hij, precedes_irrefl, precedes_irrefl]
  · have hname : m.fullNameOf i ≠ m.fullNameOf j := fun he => hij (hd hi hj he)
    rw [Bool.eq_iff_iff, precedes_iff_lt, precedes_iff_lt, h.fullNameOf, h.fullNameOf]
    simp [hname]

theorem Renumbers.mergeBucket (h : Renumbers f m m') (hm : m.WellFormed) (hm' : m'.WellFormed)
    (hd : m.FullNamesDiffer) {short : String} {members members' : List TypeId}
    (hmem : members = m.bucket key short) (hperm : members'.Perm (members.map f)) :
    Renumbers f (m.mergeBucket members) (m'.mergeBucket members') := by
  subst hmem
  have hin : ∀ k, k ∈ members' ↔ ∃ i ∈ m.bucket key short, f i = k := by
    intro k
    rw [hperm.mem_iff, List.mem_map]
  have hstandIn : ∀ i, m'.standIn members' (f i) = f (m.standIn (m.bucket key short) i) := by
    intro i
    by_cases hi : i ∈ m.bucket key short
    · exact standIn_correspond hin (fun i _ => h.isLive i)
        (fun i _ j _ => h.structureOf_eq_iff hm hm' i j) (fun i hi j hj => hd.precedes h hi hj) hi
    · have hi' : f i ∉ members' := by
        intro hn
        obtain ⟨k, hk, he⟩ := (hin _).mp hn
        rw [f.injective he] at hk
        exact hi hk
      rw [standIn_of_not fun hn => hi hn.1, standIn_of_not fun hn => hi' hn.1]
  have hmembers : ∀ i ∈ members', i ∈ m'.bucket key short := fun i hi =>
    (h.bucket key short).mem_iff.mpr (hperm.mem_iff.mp hi)
  obtain ⟨hmerged, -⟩ := hm.mergeBucket fun i (hi : i ∈ m.bucket key short) => hi
  obtain ⟨hmerged', -⟩ := hm'.mergeBucket hmembers
  constructor
  · rw [hmerged.groups, hmerged'.groups]
    exact h.groups
  · intro i
    rw [getElem?_mergeBucket, getElem?_mergeBucket, h.types, hstandIn]
    cases m.types[i]? with
    | none => rfl
    | some t =>
      have hsame : f (m.standIn (m.bucket key short) i) = f i ↔ m.standIn (m.bucket key short) i = i :=
        EmbeddingLike.apply_eq_iff_eq f
      by_cases hs : m.standIn (m.bucket key short) i = i
      · simp only [Option.map_some, hs, if_true]
      · simp only [Option.map_some, hsame, hs, if_false]
        rfl

theorem MergesTo.fullNamesDiffer {ids : List TypeId} (h : MergesTo ids m m')
    (hd : m.FullNamesDiffer) : m'.FullNamesDiffer := by
  intro key short i j hi hj hname
  rw [h.bucket] at hi hj
  rw [h.fullNameOf, h.fullNameOf] at hname
  exact hd hi hj hname

theorem Renumbers.merging (h : Renumbers f m m') (hm : m.WellFormed) (hm' : m'.WellFormed)
    (hd : m.FullNamesDiffer) (hg : m.group? key = some g) (hg' : m'.group? key = some g')
    (hgroup : g.Renumbers f g') : Renumbers f (m.merging g) (m'.merging g') := by
  let R : Model → Model → Prop := fun m₁ m₂ =>
    Renumbers f m₁ m₂ ∧ MergesTo g.objects m m₁ ∧ MergesTo g'.objects m' m₂
  have hobjects := hgroup.objects_perm
  have hlength : g'.objects.length = g.objects.length := by
    rw [hobjects.length_eq, List.length_map]
  have hstep : List.Forall₂ (fun b b' => ∀ m₁ m₂, R m₁ m₂ →
      R (m₁.mergeBucket b) (m₂.mergeBucket b')) (Table.values g.anonymous)
        (Table.values g'.anonymous) := by
    rw [Table.values, Table.values, List.forall₂_map_left_iff, List.forall₂_map_right_iff]
    refine hgroup.anonymous.entries.imp fun b b' hbb' m₁ m₂ hR => ?_
    obtain ⟨hb, hb', -, hperm⟩ := hbb'
    obtain ⟨hr, hs, hs'⟩ := hR
    have hbucket : b.2 = m₁.bucket key b.1 := by
      rw [hs.bucket, bucket_of_group? hg, (hm.anonymous_ordered hg).get?_of_mem hb, Option.getD_some]
    exact ⟨hr.mergeBucket hs.wellFormed hs'.wellFormed (hs.fullNamesDiffer hd) hbucket hperm,
      hs.trans (hm.mergeBucket_objects hg hs (List.mem_map_of_mem hb)),
      hs'.trans (hm'.mergeBucket_objects hg' hs' (List.mem_map_of_mem hb'))⟩
  have hR : R (m.merging g) (m'.merging g') := by
    rw [Model.merging, Model.merging, hlength]
    refine mergeRounds_correspond hstep (fun m₁ m₂ hR => ?_) _ ⟨h, .refl hm _, .refl hm' _⟩
    have hcount := hobjects.countP_eq m₂.isLive
    rw [List.countP_map] at hcount
    refine hcount.trans (List.countP_congr fun i _ => ?_)
    rw [Function.comp, hR.1.isLive]
  exact hR.1

/-! Naming and ordering. -/

theorem Renumbers.untied (h : m.FullNamesDiffer) (hm : m.WellFormed) (short : String) :
    m.Untied (m.bucket key short) := by
  intro i hi j hj hrank
  have hname : m.fullNameOf (m.resolve i) = m.fullNameOf (m.resolve j) :=
    congrArg (fun r : ClassRank => r.2.2) hrank
  exact h (hm.resolve_mem hi) (hm.resolve_mem hj) hname

theorem Renumbers.classesOf (h : Renumbers f m m') (hm : m.WellFormed) (hm' : m'.WellFormed)
    (hd : m.FullNamesDiffer) {short : String} {members members' : List TypeId}
    (hmem : members = m.bucket key short) (hperm : members'.Perm (members.map f)) :
    (m'.classesOf members').map (AnonymousClass.retains id) =
      (m.classesOf members).map (AnonymousClass.retains f) := by
  subst hmem
  refine classesOf_correspond ⟨?_, fun i _ j _ hij => f.injective hij, fun i _ => h.fullNameOf _⟩
    (Renumbers.untied hd hm short)
  refine (hperm.map _).trans (List.Perm.of_eq ?_)
  rw [List.map_map]
  refine List.map_congr_left fun i _ => ?_
  rw [Function.comp, h.resolve hm hm', h.fullNameOf]

theorem Renumbers.namings (h : Renumbers f m m') (hm : m.WellFormed) (hm' : m'.WellFormed)
    (hd : m.FullNamesDiffer) (hg : m.group? key = some g) (hg' : m'.group? key = some g')
    (hgroup : g.Renumbers f g') : m'.namings g' = (m.namings g).map (Prod.map f id) := by
  have hs := hm.merging hg
  have hmerging := h.merging hm hm' hd hg hg' hgroup
  have htaken : Table.keys g'.named = Table.keys g.named := by
    rw [hgroup.named, Table.keys, List.map_map]
    rfl
  have hclasses : List.Forall₂ (fun b b' => b'.1 = b.1 ∧
      ((m'.merging g').classesOf b'.2).map (AnonymousClass.retains id) =
        ((m.merging g).classesOf b.2).map (AnonymousClass.retains f)) g.anonymous g'.anonymous := by
    refine hgroup.anonymous.entries.imp fun b b' hbb' => ?_
    obtain ⟨hb, -, hshort, hperm⟩ := hbb'
    have hbucket : b.2 = (m.merging g).bucket key b.1 := by
      rw [hs.bucket, bucket_of_group? hg, (hm.anonymous_ordered hg).get?_of_mem hb, Option.getD_some]
    exact ⟨hshort, hmerging.classesOf hs.wellFormed (hm'.merging hg').wellFormed
      (hs.fullNamesDiffer hd) hbucket hperm⟩
  rw [Model.namings, Model.namings, groupNames_congr (mergeEquals_renames m' g'),
    groupNames_congr (mergeEquals_renames m g), htaken, groupNames_correspond hclasses]

theorem Renumbers.reconcile (h : Renumbers f m m') (hm : m.WellFormed) (hm' : m'.WellFormed)
    (hd : m.FullNamesDiffer) (hg : m.group? key = some g) (hg' : m'.group? key = some g')
    (hgroup : g.Renumbers f g') : Renumbers f (m.reconcile g) (m'.reconcile g') := by
  have hmerging := h.merging hm hm' hd hg hg' hgroup
  have hresolve := hmerging.resolve (hm.merging hg).wellFormed (hm'.merging hg').wellFormed
  constructor
  · rw [(hm'.reconcile_renames hg').groups, (hm'.merging hg').groups, (hm.reconcile_renames hg).groups,
      (hm.merging hg).groups]
    exact h.groups
  · intro i
    have hobject : f i ∈ g'.objects ↔ i ∈ g.objects := by
      rw [hgroup.objects_perm.mem_iff, List.mem_map]
      simp
    have hshared : (m'.mergeEquals (Table.values g'.anonymous)).types[f i]? =
        ((m.mergeEquals (Table.values g.anonymous)).types[i]?).map (TypeEntry.mapIds f) := by
      have hqualified : ∀ j : TypeId, ((m'.merging g').types[f j]?).map TypeEntry.qualified =
          ((m.merging g).types[j]?).map TypeEntry.qualified := hmerging.map_getElem? fun _ => rfl
      rw [hm'.getElem?_mergeEquals hg', hm.getElem?_mergeEquals hg, hmerging.types, hmerging.isLive,
        hresolve, hqualified]
      simp only [hobject, Option.map_map]
      refine congrArg (Option.map · _) (funext fun t => ?_)
      simp only [Function.comp]
      split
      · rfl
      · split <;> rfl
    rw [reconcile_eq, reconcile_eq, h.namings hm hm' hd hg hg' hgroup]
    exact getElem?_assignNames_correspond (fun _ _ => rfl) f.injective hshared _

theorem Renumbers.carries (h : Renumbers f m m') (hm : m.WellFormed) (hm' : m'.WellFormed) :
    Carries f m m' :=
  ⟨h.groupOf?, h.resolve hm hm', h.named?⟩

theorem Renumbers.corresponds (h : Renumbers f m m') (hm : m.WellFormed) (hm' : m'.WellFormed) :
    Corresponds f key m m' := by
  refine (h.carries hm hm').corresponds hm hm' h.size_eq (fun {u} => ?_) (fun _ _ huv => f.injective huv)
    (fun u _ => ?_) fun u _ => ?_
  · have hlive : ∀ v, f v ∈ m'.liveTypes key ↔ v ∈ m.liveTypes key := by
      intro v
      rw [hm.mem_liveTypes, hm'.mem_liveTypes, h.groupOf?, h.isLive]
    constructor
    · intro hu
      refine ⟨f.symm u, (hlive _).mp ?_, f.apply_symm_apply u⟩
      rwa [f.apply_symm_apply]
    · rintro ⟨v, hv, rfl⟩
      exact (hlive v).mpr hv
  · rw [h.exprsOf, List.map_map]
    exact List.map_congr_left fun e _ => TypeExpr.mapIds_mapIds _ _ e
  · exact h.bind_apiResource? u

/-! Finalizing. -/

theorem Renumbers.finalizeGroup (h : Renumbers f m m') (hm : m.WellFormed) (hm' : m'.WellFormed)
    (hd : m.FullNamesDiffer) (key : GroupKey) :
    Renumbers f (m.finalizeGroup key) (m'.finalizeGroup key) ∧ (key ∈ m.keys →
      (m'.finalizeGroup key).finalized? key =
        ((m.finalizeGroup key).finalized? key).map (FinalizedGroup.mapIds f)) := by
  cases hg : m.group? key with
  | none =>
    rw [finalizeGroup_absent hg, finalizeGroup_absent (h.group?_eq_none hg)]
    refine ⟨h, fun hkey => ?_⟩
    obtain ⟨g, hg'⟩ := hm.mem_keys.mp hkey
    rw [hg] at hg'
    cases hg'
  | some g =>
    obtain ⟨g', hg', hgroup⟩ := h.group? hg
    have hr := hm.reconcile hg
    have hr' := hm'.reconcile hg'
    have hreconcile := h.reconcile hm hm' hd hg hg' hgroup
    have hview := (hreconcile.corresponds hr hr').viewOf (hm.distinctNames_reconcile hg) fun u _ =>
      hreconcile.map_getElem? (fun _ => rfl) u
    rw [finalizeGroup_eq hg, finalizeGroup_eq hg']
    refine ⟨⟨?_, hreconcile.types⟩, fun _ => ?_⟩
    · exact hreconcile.groups.insert key ⟨hgroup.named, hgroup.anonymous⟩
    · rw [finalized?, finalized?, group?_setFinalized, group?_setFinalized, if_pos rfl, if_pos rfl,
        hview]
      rfl

theorem WellFormed.fullNamesDiffer_finalizeGroup (h : m.WellFormed) (hd : m.FullNamesDiffer)
    (key : GroupKey) : (m.finalizeGroup key).FullNamesDiffer := by
  have hname : ∀ i, (m.finalizeGroup key).fullNameOf i = m.fullNameOf i := by
    intro i
    have hcontent := congrArg (Option.map TypeEntry.fullName) (h.content_finalizeGroup key i)
    rw [Option.map_map, Option.map_map] at hcontent
    exact congrArg (Option.getD · "") hcontent
  intro k short i j hi hj hij
  rw [h.bucket_finalizeGroup] at hi hj
  rw [hname, hname] at hij
  exact hd hi hj hij

theorem Renumbers.foldl_finalizeGroup (h : Renumbers f m m') (hm : m.WellFormed)
    (hm' : m'.WellFormed) (hd : m.FullNamesDiffer) (keys : List GroupKey) :
    Renumbers f (keys.foldl Model.finalizeGroup m) (keys.foldl Model.finalizeGroup m') ∧
      (keys.foldl Model.finalizeGroup m).FullNamesDiffer := by
  induction keys generalizing m m' with
  | nil => exact ⟨h, hd⟩
  | cons k keys ih =>
    rw [List.foldl_cons, List.foldl_cons]
    exact ih (h.finalizeGroup hm hm' hd k).1 (hm.finalizeGroup k) (hm'.finalizeGroup k)
      (hm.fullNamesDiffer_finalizeGroup hd k)

theorem Renumbers.finalized?_finalize (h : Renumbers f m m') (hm : m.WellFormed)
    (hm' : m'.WellFormed) (hd : m.FullNamesDiffer) (key : GroupKey) :
    m'.finalize.finalized? key = (m.finalize.finalized? key).map (FinalizedGroup.mapIds f) := by
  by_cases hkey : key ∈ m.keys
  · obtain ⟨pre, post, hsplit, hpre, hpost, hbefore, hafter⟩ := hm.finalize_split hkey
    have hsplit' : m'.keys = pre ++ key :: post := h.keys_eq.trans hsplit
    obtain ⟨hr, hd'⟩ := h.foldl_finalizeGroup hm hm' hd pre
    have hwf' := hm'.foldl_wellFormed pre
    have hafter' : Spares key ((pre.foldl Model.finalizeGroup m').finalizeGroup key) m'.finalize := by
      rw [Model.finalize, hsplit', List.foldl_append, List.foldl_cons]
      exact foldl_finalizeGroup_spares (hwf'.finalizeGroup key) hpost
    have hmem : key ∈ (pre.foldl Model.finalizeGroup m).keys := by
      obtain ⟨g, hg⟩ := hm.mem_keys.mp hkey
      exact hbefore.wellFormed.mem_keys.mpr ⟨g, hbefore.group?.trans hg⟩
    rw [hafter.finalized?, hafter'.finalized?]
    exact (hr.finalizeGroup hbefore.wellFormed hwf' hd' key).2 hmem
  · have hnone : m.group? key = none := by
      by_contra hn
      exact hkey (hm.mem_keys.mpr (Option.ne_none_iff_exists'.mp hn))
    have hkey' : key ∉ m'.keys := h.keys_eq ▸ hkey
    have hspares : Spares key m m.finalize := foldl_finalizeGroup_spares hm hkey
    have hspares' : Spares key m' m'.finalize := foldl_finalizeGroup_spares hm' hkey'
    rw [hspares.finalized?, hspares'.finalized?, finalized?, finalized?, hnone, h.group?_eq_none hnone]
    rfl

/-- Models that differ in the numbers of their types are finalized alike, if the objects of a bucket
have different full names: types get the same names, are merged into the same ones, and come in the
same order. -/
theorem finalize_renumbers (cs cs' : List Change) {f : Equiv.Perm TypeId}
    (h : Renumbers f (ofChanges cs) (ofChanges cs')) (hd : (ofChanges cs).FullNamesDiffer) :
    Renumbers f (ofChanges cs).finalize (ofChanges cs').finalize ∧
      (∀ i, (ofChanges cs').finalize.resolve (f i) = f ((ofChanges cs).finalize.resolve i)) ∧
      ∀ key, (ofChanges cs').finalize.finalized? key =
        ((ofChanges cs).finalize.finalized? key).map (FinalizedGroup.mapIds f) := by
  have hm := wellFormed_ofChanges cs
  have hm' := wellFormed_ofChanges cs'
  have hfinalize : Renumbers f (ofChanges cs).finalize (ofChanges cs').finalize := by
    rw [finalize, finalize, h.keys_eq]
    exact (h.foldl_finalizeGroup hm hm' hd _).1
  exact ⟨hfinalize, hfinalize.resolve hm.finalize hm'.finalize, h.finalized?_finalize hm hm' hd⟩

theorem finalize_renumbers_siblings :
    let apps : GroupKey := ⟨"apps", some "v1"⟩
    let named : List Change :=
      [.registerNamed apps "DaemonSet" .resource none, .registerNamed apps "Deployment" .resource none]
    let spec (i : TypeId) : List Property := [{ name := "spec", type := .type i, required := true }]
    let cs : List Change := named ++ [.registerAnonymous 0 "spec" (some "Spec") none,
      .registerAnonymous 1 "spec" (some "Spec") none, .setProperties 0 (spec 2)]
    let cs' : List Change := named ++ [.registerAnonymous 1 "spec" (some "Spec") none,
      .registerAnonymous 0 "spec" (some "Spec") none, .setProperties 0 (spec 3)]
    let f : Equiv.Perm TypeId := Equiv.swap 2 3
    (Renumbers f (ofChanges cs) (ofChanges cs') ∧ (ofChanges cs).FullNamesDiffer) ∧
      Renumbers f (ofChanges cs).finalize (ofChanges cs').finalize ∧
      (∀ i, (ofChanges cs').finalize.resolve (f i) = f ((ofChanges cs).finalize.resolve i)) ∧
      ∀ key, (ofChanges cs').finalize.finalized? key =
        ((ofChanges cs).finalize.finalized? key).map (FinalizedGroup.mapIds f) := by
  intro apps named spec cs cs' f
  have hgroups : Table.Alike (Group.Renumbers f) (ofChanges cs).groups (ofChanges cs').groups := by
    let g : Group :=
      { named := [("DaemonSet", 0), ("Deployment", 1)], anonymous := [("Spec", [2, 3])] }
    have hbucket : Table.Alike (fun members members' => members'.Perm (members.map f))
        g.anonymous g.anonymous := List.Forall₂.cons ⟨rfl, by decide⟩ .nil
    have hgroup : Group.Renumbers f g g := ⟨by decide, hbucket⟩
    have hcs : (ofChanges cs).groups = [(apps, g)] := by
      simp only [cs, named, apps, g]
      rfl
    have hcs' : (ofChanges cs').groups = [(apps, g)] := by
      simp only [cs', named, apps, g]
      rfl
    rw [hcs, hcs']
    exact List.Forall₂.cons ⟨rfl, hgroup⟩ .nil
  have hsize : (ofChanges cs).types.size = 4 ∧ (ofChanges cs').types.size = 4 := by decide
  have hbelow : ∀ i < 4, i ≠ 0 → (ofChanges cs').types[f i]? =
      ((ofChanges cs).types[i]?).map (TypeEntry.mapIds f) := by decide
  have hroot : (ofChanges cs').types[0]? =
      ((ofChanges cs).types[0]?).map (TypeEntry.mapIds f) := by
    have hlast : ofChanges cs = (ofChanges cs.dropLast).setProperties 0 (spec 2) := rfl
    have hlast' : ofChanges cs' = (ofChanges cs'.dropLast).setProperties 0 (spec 3) := rfl
    rw [hlast, hlast', getElem?_setProperties, getElem?_setProperties, if_pos rfl, if_pos rfl,
      Property.sort, Property.sort, List.mergeSort_singleton, List.mergeSort_singleton]
    decide
  have hr : Renumbers f (ofChanges cs) (ofChanges cs') := by
    refine ⟨hgroups, fun i => ?_⟩
    by_cases hi : i < 4
    · by_cases h0 : i = 0
      · subst h0
        exact hroot
      · exact hbelow i hi h0
    · have hf : f i = i := Equiv.swap_apply_of_ne_of_ne (by grind) (by grind)
      have hle : 4 ≤ i := not_lt.mp hi
      rw [hf, Array.getElem?_eq_none (hsize.1.trans_le hle), Array.getElem?_eq_none (hsize.2.trans_le hle)]
      rfl
  have hd : (ofChanges cs).FullNamesDiffer := by
    intro key short i j hi hj
    have hwf := wellFormed_ofChanges cs
    have hnames : ∀ i < 4, ∀ j < 4, (ofChanges cs).fullNameOf i = (ofChanges cs).fullNameOf j →
        i = j := by decide
    exact hnames i (hwf.lt_size hi) j (hwf.lt_size hj)
  refine ⟨⟨hr, hd⟩, ?_⟩
  exact finalize_renumbers cs cs' hr hd

end Model

end SchemaCompiler
