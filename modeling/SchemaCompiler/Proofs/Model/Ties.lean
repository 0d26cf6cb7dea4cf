import SchemaCompiler.Proofs.Model.ClassOrder
import SchemaCompiler.Proofs.Model.Independence
import SchemaCompiler.Proofs.Model.Renumbering
import SchemaCompiler.Proofs.Model.Unfinalized

/-! What numbers decide about a finalized model. Of equal objects with equal full names they decide which
one stands for the others, and of classes that nothing else tells apart which one is named first. All
else is the same in models that differ in the numbers of their types. -/

namespace SchemaCompiler

namespace Model

variable {m m' : Model} {f : Equiv.Perm TypeId} {key : GroupKey} {g g' : Group} {short : String}
  {a b i : TypeId}

/-- A model ready to be finalized, in which what is filed as an object is one, and leads to no objects
of other groups. -/
structure Assembled (m : Model) : Prop extends Unfinalized m where
  enclosed : m.Enclosed
  object : ∀ {key i}, m.Filed key i → ∃ parent property, m.kind? i = some (.anonymous parent property)

theorem WellFormed.map_finalize (h : m.WellFormed) {α : Type} {proj : TypeEntry → α}
    (hproj : ∀ t, proj t.content = proj t) (i : TypeId) :
    (m.finalize.types[i]?).map proj = (m.types[i]?).map proj := by
  have hcomp : proj ∘ TypeEntry.content = proj := funext hproj
  have hcontent := congrArg (Option.map proj) (h.content_finalize i)
  rwa [Option.map_map, Option.map_map, hcomp] at hcontent

theorem WellFormed.propertiesOf_finalize (h : m.WellFormed) (i : TypeId) :
    m.finalize.propertiesOf i = m.propertiesOf i :=
  congrArg (Option.getD · []) (h.map_finalize (fun _ => rfl) i)

/-- What the structures of a finalized model mention stands for itself. -/
theorem WellFormed.mentioned_stands (h : m.WellFormed) {r x : TypeId}
    (hx : Structure.Mentions (m.structureOf r) x) : m.resolve x = x := by
  obtain ⟨e, he, hx⟩ := hx
  rw [structureOf_eq_map] at he
  obtain ⟨p, -, rfl⟩ := List.mem_map.mp he
  rw [TypeExpr.leaves_mapIds] at hx
  obtain ⟨leaf, -, hleaf⟩ := List.mem_map.mp hx
  obtain ⟨y, rfl, rfl⟩ := TypeExpr.mapIds_eq_type_iff.mp hleaf
  exact h.resolve_resolve y

theorem exprsOf_object {parent : TypeId} {property : String}
    (hi : m.kind? i = some (.anonymous parent property)) :
    (m.exprsOf i).map (TypeExpr.mapIds m.resolve) = (m.structureOf i).map fun e => e.2.1 := by
  obtain ⟨t, ht, hkind⟩ := Option.map_eq_some_iff.mp hi
  rw [structureOf_eq_map, exprsOf, propertiesOf, ht]
  simp [TypeEntry.exprs, hkind]

theorem apiResource?_object {parent : TypeId} {property : String}
    (hi : m.kind? i = some (.anonymous parent property)) :
    (m.types[i]?).bind TypeEntry.apiResource? = none := by
  obtain ⟨t, ht, hkind⟩ := Option.map_eq_some_iff.mp hi
  rw [ht, Option.bind_some, TypeEntry.apiResource?, hkind]

section Assembled

variable (h : m.Assembled)

include h

theorem Assembled.looksLike (key : GroupKey) : LooksLike key (m.finalizeGroup key) m.finalize := by
  have hspares : Spares key (m.finalizeGroup key) m.finalize := by
    by_cases hkey : key ∈ m.keys
    · exact h.wellFormed.foldl_finalizeGroup h.enclosed hkey
    · have hnone : m.group? key = none := by
        by_contra hn
        exact hkey (h.wellFormed.mem_keys.mpr (Option.ne_none_iff_exists'.mp hn))
      rw [finalizeGroup_absent hnone]
      exact foldl_finalizeGroup_spares h.wellFormed hkey
  refine ⟨hspares, h.wellFormed.finalizeGroup key, h.enclosed.finalizeGroup h.wellFormed key, ?_⟩
  intro k short
  rw [h.wellFormed.bucket_finalize, h.wellFormed.bucket_finalizeGroup]

theorem Assembled.resolve_finalize (ha : m.Filed key a) :
    m.finalize.resolve a = (m.finalizeGroup key).resolve a := by
  obtain ⟨short, hs⟩ := ha
  refine (h.looksLike key).resolve (h.wellFormed.finalizeGroup key) ?_
  rw [h.wellFormed.groupOf?_finalizeGroup, h.wellFormed.filed hs]

theorem Assembled.mergesLeast (key : GroupKey) : m.MergesLeast key (m.finalizeGroup key) :=
  h.wellFormed.mergesLeast_finalizeGroup fun i _ => h.live i

/-- Types are one if they are objects of a group that are equal, and only then. -/
theorem Assembled.resolve_eq_iff : m.finalize.resolve a = m.finalize.resolve b ↔
    a = b ∨ ∃ key, m.Filed key a ∧ m.Filed key b ∧ m.leastEquality key a b := by
  constructor
  · intro hab
    by_cases hfiled : ∃ key, m.Filed key a
    · obtain ⟨key, short, ha⟩ := hfiled
      have hb := h.wellFormed.mem_bucket_of_resolve_eq ha hab
      rw [h.resolve_finalize ⟨short, ha⟩, h.resolve_finalize ⟨short, hb⟩] at hab
      have heq := ((h.mergesLeast key).resolve_eq_iff ⟨short, ha⟩ ⟨short, hb⟩).mp hab
      exact .inr ⟨key, ⟨short, ha⟩, ⟨short, hb⟩, heq⟩
    · have hself := h.wellFormed.unfiled_finalize (not_exists.mp hfiled)
      by_cases hb : ∃ key, m.Filed key b
      · obtain ⟨key, short, hb⟩ := hb
        exact absurd ⟨key, short, h.wellFormed.mem_bucket_of_resolve_eq hb hab.symm⟩ hfiled
      · rw [hself, h.wellFormed.unfiled_finalize (not_exists.mp hb)] at hab
        exact .inl hab
  · rintro (rfl | ⟨key, ha, hb, heq⟩)
    · rfl
    · rw [h.resolve_finalize ha, h.resolve_finalize hb]
      exact ((h.mergesLeast key).resolve_eq_iff ha hb).mpr heq

theorem Assembled.fullNameOf_finalize (i : TypeId) : m.finalize.fullNameOf i = m.fullNameOf i :=
  congrArg (Option.getD · "") (h.wellFormed.map_finalize (fun _ => rfl) i)

theorem Assembled.exprsOf_finalize (i : TypeId) : m.finalize.exprsOf i = m.exprsOf i :=
  congrArg (Option.getD · []) (h.wellFormed.map_finalize (fun _ => rfl) i)

theorem Assembled.structureOf_finalize (i : TypeId) : m.finalize.structureOf i =
    (m.propertiesOf i).map fun p => (p.name, p.type.mapIds m.finalize.resolve, p.required) := by
  rw [structureOf_eq_map, h.wellFormed.propertiesOf_finalize]

theorem Assembled.object_finalize (ha : a ∈ m.bucket key short) :
    ∃ parent property, m.finalize.kind? a = some (.anonymous parent property) := by
  rw [h.wellFormed.kind?_finalize]
  exact h.object ⟨short, ha⟩

theorem Assembled.resolve_mem (ha : a ∈ m.bucket key short) :
    m.finalize.resolve a ∈ m.bucket key short := by
  rw [← h.wellFormed.bucket_finalize] at ha ⊢
  exact h.wellFormed.finalize.resolve_mem ha

/-- An object is made of the same as the one that stands for it. -/
theorem Assembled.structureOf_resolve (ha : a ∈ m.bucket key short) :
    m.finalize.structureOf (m.finalize.resolve a) = m.finalize.structureOf a := by
  have hsame : m.finalize.resolve a = m.finalize.resolve (m.finalize.resolve a) :=
    (h.wellFormed.finalize.resolve_resolve a).symm
  rw [h.wellFormed.resolve_finalize_eq_iff h.live h.enclosed ha (h.resolve_mem ha)] at hsame
  rw [Eq.comm, structureOf_eq_iff, PropertiesAgree, h.wellFormed.propertiesOf_finalize, h.wellFormed.propertiesOf_finalize]
  exact hsame

theorem Assembled.fullNameOf_resolve_le (i : TypeId) :
    ¬m.fullNameOf i < m.fullNameOf (m.finalize.resolve i) := by
  have hle := not_precedes_iff.mp (h.wellFormed.finalize.not_precedes_resolve i)
  rw [h.fullNameOf_finalize, h.fullNameOf_finalize] at hle
  rcases hle with hlt | ⟨heq, -⟩
  · exact String.lt_asymm hlt
  · rw [heq]
    exact String.lt_irrefl _

/-! Names and views. -/

theorem Assembled.classesOf_merging (hg : m.group? key = some g) (short : String) :
    (m.merging g).classesOf (m.bucket key short) = m.finalize.classesOf (m.bucket key short) := by
  have hlooks := (h.looksLike key).classesOf short
  rw [h.wellFormed.bucket_finalizeGroup] at hlooks
  rw [hlooks, finalizeGroup_eq hg, classesOf_setFinalized,
    (h.wellFormed.reconcile_renames hg).classesOf]

theorem Assembled.namings_eq (hg : m.group? key = some g) :
    m.namings g = m.finalize.groupNames (Table.keys g.named) g.anonymous := by
  have hclasses : List.Forall₂ (fun b b' => b'.1 = b.1 ∧
      ((m.merging g).classesOf b'.2).map (AnonymousClass.retains id) =
        (m.finalize.classesOf b.2).map (AnonymousClass.retains id)) g.anonymous g.anonymous := by
    refine List.forall₂_same.mpr fun b hb => ⟨rfl, ?_⟩
    have hbucket : m.bucket key b.1 = b.2 := by
      rw [bucket_of_group? hg, (h.wellFormed.anonymous_ordered hg).get?_of_mem hb, Option.getD_some]
    rw [← hbucket, h.classesOf_merging hg]
  rw [namings, groupNames_congr (mergeEquals_renames m g), groupNames_correspond hclasses, Prod.map_id,
    List.map_id]

theorem Assembled.types_finalize (hg : m.group? key = some g) (hi : m.groupOf? i = some key) :
    m.finalize.types[i]? = (m.reconcile g).types[i]? := by
  rw [(h.looksLike key).types i, types_finalizeGroup hg]
  rw [h.wellFormed.groupOf?_finalizeGroup, hi]

theorem Assembled.name_of_naming (hg : m.group? key = some g) {r : TypeId} {name : String}
    (hr : (r, name) ∈ m.finalize.groupNames (Table.keys g.named) g.anonymous) :
    (m.finalize.types[r]?).map TypeEntry.name = some name := by
  rw [← h.namings_eq hg] at hr
  obtain ⟨i, hi, hri⟩ := mem_namings.mp (List.mem_map_of_mem hr)
  obtain ⟨short, hs⟩ := (h.wellFormed.mem_objects hg).mp (h.wellFormed.resolve_objects hg hi)
  rw [hri] at hs
  have hlt : r < (m.mergeEquals (Table.values g.anonymous)).types.size := by
    rw [(m.mergeEquals_renames g).size_eq, (h.wellFormed.merging hg).size_eq]
    exact h.wellFormed.lt_size hs
  rw [h.types_finalize hg (h.wellFormed.filed hs), reconcile_eq]
  exact map_name_assignNames _ (h.wellFormed.nodup_namings hg) hr hlt

theorem Assembled.distinctNames (key : GroupKey) : m.finalize.DistinctNames key := by
  intro a b s t ha hb hs ht hname
  obtain ⟨hak, hal⟩ := h.wellFormed.finalize.live_entry ha hs
  obtain ⟨hbk, hbl⟩ := h.wellFormed.finalize.live_entry hb ht
  exact h.wellFormed.eq_of_name_finalize hs ht hal hbl (hak.trans hbk.symm) hname

theorem Assembled.distinctNames_finalizeGroup (hg : m.group? key = some g) :
    (m.finalizeGroup key).DistinctNames key := by
  have hlive : ∀ {i}, i ∈ (m.finalizeGroup key).liveTypes key → i ∈ (m.reconcile g).liveTypes key := by
    intro i hi
    rw [(h.wellFormed.finalizeGroup key).mem_liveTypes, groupOf?, Model.isLive,
      types_finalizeGroup hg] at hi
    exact (h.wellFormed.reconcile hg).mem_liveTypes.mpr hi
  intro a b s t ha hb hs ht hname
  rw [types_finalizeGroup hg] at hs ht
  exact h.wellFormed.distinctNames_reconcile hg (hlive ha) (hlive hb) hs ht hname

theorem Assembled.finalized?_eq (hg : m.group? key = some g) : m.finalize.finalized? key =
    some (m.finalize.viewOf key (m.finalize.dependencyOrder key)) := by
  have hsame := (h.wellFormed.reconcile hg).viewOf_setFinalized
    ((h.wellFormed.group?_reconcile hg key).trans hg)
    (fun ha hb => h.wellFormed.distinctNames_reconcile hg ha hb)
    ((m.reconcile g).viewOf key ((m.reconcile g).dependencyOrder key))
  rw [← finalizeGroup_eq hg] at hsame
  have hview := (h.looksLike key).viewOf (h.wellFormed.finalizeGroup key)
    (h.distinctNames_finalizeGroup hg)
  rw [hview, hsame, (h.looksLike key).finalized?, finalizeGroup_eq hg, finalized?, group?_setFinalized,
    if_pos rfl]
  rfl

/-- A type has the full name of the one that stands for it. -/
theorem Assembled.qualified_finalize {t : TypeEntry} (ht : m.types[i]? = some t) :
    (m.finalize.types[i]?).map TypeEntry.qualified =
      some (t.group.qualify (m.fullNameOf (m.finalize.resolve i))) := by
  by_cases hfiled : ∃ key, m.Filed key i
  · obtain ⟨key, short, hs⟩ := hfiled
    have hgroup := h.wellFormed.filed hs
    obtain ⟨g, hg⟩ := h.wellFormed.mem_keys.mp (h.wellFormed.key_mem hgroup)
    have hm := h.wellFormed.merging hg
    have hresolve : m.finalize.resolve i = (m.merging g).resolve i := by
      rw [h.resolve_finalize ⟨short, hs⟩, finalizeGroup_eq hg, resolve_setFinalized,
        (h.wellFormed.reconcile_renames hg).resolve]
    have hlive : (m.merging g).isLive ((m.merging g).resolve i) = true :=
      isLive_iff.mpr (hm.wellFormed.mergedInto?_resolve i)
    obtain ⟨r, hr, hkey⟩ := Option.map_eq_some_iff.mp (h.wellFormed.filed (h.resolve_mem hs))
    have ht' : t.group = key := by simpa [groupOf?, ht] using hgroup
    rw [h.types_finalize hg hgroup, h.wellFormed.map_qualified_reconcile hg ⟨short, hs⟩, reconcile_eq,
      map_qualified_assignNames, h.wellFormed.map_qualified_mergeEquals hg, if_neg (by simp [hlive]),
      hm.map_getElem? (fun _ => rfl), ← hresolve, fullNameOf, hr, ht', ← hkey]
    exact congrArg some (h.qualified hr)
  · have hunfiled := not_exists.mp hfiled
    rw [h.wellFormed.types_finalize hunfiled, h.wellFormed.unfiled_finalize hunfiled, fullNameOf, ht]
    exact congrArg some (h.qualified ht)

end Assembled

/-- The type that stands for the one that `i` has become. -/
def standing (m : Model) (f : TypeId → TypeId) (i : TypeId) : TypeId := m.resolve (f i)

/-! Merging does not depend on numbers, but for which of equal objects stands for the others. -/

theorem Renumbers.mem_bucket (hr : Renumbers f m m') :
    f i ∈ m'.bucket key short ↔ i ∈ m.bucket key short := by
  rw [(hr.bucket key short).mem_iff, List.mem_map]
  simp

theorem Renumbers.filed_iff (hr : Renumbers f m m') : m'.Filed key (f i) ↔ m.Filed key i :=
  exists_congr fun _ => hr.mem_bucket

section Renumbers

variable (hr : Renumbers f m m') (h : m.Assembled) (h' : m'.Assembled)

include hr h h'

theorem Renumbers.mergesEquals_iff {s : Setoid TypeId} :
    m'.MergesEquals key s ↔ m.MergesEquals key (s.comap f) := by
  have hagree : ∀ a b, m'.PropertiesAgree (fun i j => s (m'.resolve i) (m'.resolve j)) (f a) (f b) ↔
      m.PropertiesAgree (fun i j => s.comap f (m.resolve i) (m.resolve j)) a b := by
    intro a b
    rw [hr.propertiesAgree]
    simp only [resolve_of_live (h.live _), resolve_of_live (h'.live _), Setoid.comap_rel]
  constructor
  · intro hs short a b ha hb hab
    exact hs short (f a) (f b) (hr.mem_bucket.mpr ha) (hr.mem_bucket.mpr hb) ((hagree a b).mpr hab)
  · intro hs short a b ha hb hab
    obtain ⟨a, rfl⟩ := f.surjective a
    obtain ⟨b, rfl⟩ := f.surjective b
    exact hs short a b (hr.mem_bucket.mp ha) (hr.mem_bucket.mp hb) ((hagree a b).mp hab)

theorem Renumbers.leastEquality_iff :
    m'.leastEquality key (f a) (f b) ↔ m.leastEquality key a b := by
  constructor
  · intro hab s hs
    have hback : (s.comap f.symm).comap f = s := by
      ext a b
      simp [Setoid.comap_rel]
    have hs' := hab (s.comap f.symm) ((hr.mergesEquals_iff h h').mpr (by rwa [hback]))
    simpa [Setoid.comap_rel] using hs'
  · intro hab s hs
    exact hab (s.comap f) ((hr.mergesEquals_iff h h').mp hs)

theorem Renumbers.resolve_finalize_iff : m'.finalize.resolve (f a) = m'.finalize.resolve (f b) ↔
    m.finalize.resolve a = m.finalize.resolve b := by
  rw [h'.resolve_eq_iff, h.resolve_eq_iff]
  simp only [EmbeddingLike.apply_eq_iff_eq, hr.filed_iff, hr.leastEquality_iff h h']

/-- An object and the one that stands for it have turned into objects that one stands for. -/
theorem Renumbers.standing_resolve (i : TypeId) :
    m'.finalize.standing f (m.finalize.resolve i) = m'.finalize.standing f i :=
  (hr.resolve_finalize_iff h h').mpr (h.wellFormed.finalize.resolve_resolve i)

theorem Renumbers.resolve_eq_of_standing
    (hij : m'.finalize.standing f a = m'.finalize.standing f b) :
    m.finalize.resolve a = m.finalize.resolve b :=
  (hr.resolve_finalize_iff h h').mp hij

/-- The full name that comes first stands for the others in both models. -/
theorem Renumbers.fullNameOf_standing (i : TypeId) :
    m'.fullNameOf (m'.finalize.standing f i) = m.fullNameOf (m.finalize.resolve i) := by
  obtain ⟨s, hs⟩ := f.surjective (m'.finalize.standing f i)
  have hstands : m'.finalize.standing f s = m'.finalize.standing f i := by
    rw [standing, hs, standing, h'.wellFormed.finalize.resolve_resolve]
  have hsame : m.finalize.resolve s = m.finalize.resolve i := hr.resolve_eq_of_standing h h' hstands
  have hleft := h.fullNameOf_resolve_le s
  have hright := h'.fullNameOf_resolve_le (f (m.finalize.resolve i))
  have hback : m'.finalize.resolve (f (m.finalize.resolve i)) = f s :=
    (hr.standing_resolve h h' i).trans hs.symm
  rw [hsame] at hleft
  rw [hback, hr.fullNameOf, hr.fullNameOf] at hright
  rw [← hs, hr.fullNameOf]
  exact String.le_antisymm (String.not_lt.mp hright) (String.not_lt.mp hleft)

theorem Renumbers.structureOf_standing (hi : i ∈ m.bucket key short) :
    m'.finalize.structureOf (m'.finalize.standing f i) =
      Structure.mapIds (m'.finalize.standing f) (m.finalize.structureOf i) := by
  have hself : m'.finalize.standing f ∘ m.finalize.resolve = m'.finalize.standing f :=
    funext (hr.standing_resolve h h')
  rw [standing, h'.structureOf_resolve (hr.mem_bucket.mpr hi), h'.structureOf_finalize,
    hr.propertiesOf, h.structureOf_finalize, Structure.mapIds, List.map_map, List.map_map]
  refine List.map_congr_left fun p _ => ?_
  simp only [Function.comp_apply, Property.mapIds, TypeExpr.mapIds_mapIds, hself]
  rfl

theorem Renumbers.equalsAlike (key : GroupKey) (short : String) :
    EqualsAlike (m'.finalize.standing f) m.finalize m'.finalize (m.bucket key short)
      (m'.bucket key short) := by
  have hstands : ∀ {i x}, Structure.Mentions (m.finalize.structureOf i) x → m.finalize.resolve x = x :=
    h.wellFormed.finalize.mentioned_stands
  refine ⟨⟨?_, fun i _ j _ hij => ?_, fun i _ => ?_⟩, fun i hi => ?_, ?_⟩
  · refine ((hr.bucket key short).map _).trans (List.Perm.of_eq ?_)
    rw [List.map_map]
    refine List.map_congr_left fun i _ => ?_
    rw [Function.comp_apply, hr.standing_resolve h h', h.fullNameOf_finalize, h'.fullNameOf_finalize,
      hr.fullNameOf]
    rfl
  · rw [hr.standing_resolve h h', hr.standing_resolve h h'] at hij
    exact hr.resolve_eq_of_standing h h' hij
  · rw [hr.standing_resolve h h', h'.fullNameOf_finalize, hr.fullNameOf_standing h h',
      h.fullNameOf_finalize]
  · rw [hr.standing_resolve h h', h.structureOf_resolve hi]
    exact hr.structureOf_standing h h' hi
  · rintro x ⟨i, -, hx⟩ y ⟨j, -, hy⟩ hxy
    rw [← hstands hx, ← hstands hy]
    exact hr.resolve_eq_of_standing h h' hxy

theorem Renumbers.ranks (key : GroupKey) (short : String) :
    (m'.finalize.classesOf (m'.bucket key short)).map AnonymousClass.rank =
      (m.finalize.classesOf (m.bucket key short)).map AnonymousClass.rank :=
  (hr.equalsAlike h h' key short).toMergedAlike.ranks

/-- Objects whose classes have the same place among those of their buckets get the same name. -/
theorem Renumbers.name_of_place (hi : i ∈ m.bucket key short) {k : Nat} {c c' : AnonymousClass}
    (hc : (m.finalize.classesOf (m.bucket key short))[k]? = some c)
    (hc' : (m'.finalize.classesOf (m'.bucket key short))[k]? = some c') :
    (m'.finalize.types[c'.retained]?).map TypeEntry.name =
      (m.finalize.types[c.retained]?).map TypeEntry.name := by
  obtain ⟨g, hg⟩ := h.wellFormed.mem_keys.mp (h.wellFormed.key_mem (h.wellFormed.filed hi))
  obtain ⟨g', hg', hgroup⟩ := hr.group? hg
  have hmembers : ∀ {b}, b ∈ g.anonymous → b.2 = m.bucket key b.1 := by
    intro b hb
    rw [bucket_of_group? hg, (h.wellFormed.anonymous_ordered hg).get?_of_mem hb, Option.getD_some]
  have hmembers' : ∀ {b}, b ∈ g'.anonymous → b.2 = m'.bucket key b.1 := by
    intro b hb
    rw [bucket_of_group? hg', (h'.wellFormed.anonymous_ordered hg').get?_of_mem hb, Option.getD_some]
  have hclasses : List.Forall₂ (fun b b' => b'.1 = b.1 ∧
      (m'.finalize.classesOf b'.2).map AnonymousClass.rank =
        (m.finalize.classesOf b.2).map AnonymousClass.rank) g.anonymous g'.anonymous := by
    refine hgroup.anonymous.entries.imp fun b b' hbb' => ?_
    obtain ⟨hb, hb', hshort, -⟩ := hbb'
    rw [hmembers hb, hmembers' hb', hshort]
    exact ⟨rfl, hr.ranks h h' key b.1⟩
  have htaken : Table.keys g'.named = Table.keys g.named := by
    rw [hgroup.named, Table.keys, List.map_map]
    rfl
  have hb : (short, m.bucket key short) ∈ g.anonymous := by
    rw [bucket_of_group? hg] at hi ⊢
    cases hs : Table.get? short g.anonymous with
    | none => simp [hs] at hi
    | some members => exact Table.mem_of_get? hs
  obtain ⟨b', hb', hshort, hplace⟩ := exists_groupNames hclasses (Table.keys g.named) hb
  have hbucket : b'.2 = m'.bucket key short := by rw [hmembers' hb', hshort]
  rw [← hbucket] at hc'
  obtain ⟨name, hn, hn'⟩ := hplace hc hc'
  rw [← htaken] at hn'
  exact (h'.name_of_naming hg' hn').trans (h.name_of_naming hg hn).symm

/-- An object gets the same name unless numbers decide when its class is named. -/
theorem Renumbers.name_object (hi : i ∈ m.bucket key short)
    (hu : m.finalize.Unrivalled (m.bucket key short) (m.finalize.resolve i)) :
    (m'.finalize.types[m'.finalize.standing f i]?).map TypeEntry.name =
      (m.finalize.types[m.finalize.resolve i]?).map TypeEntry.name := by
  obtain ⟨k, hk, hk'⟩ := (hr.equalsAlike h h' key short).exists_place hi hu
  have hname := hr.name_of_place h h' hi hk hk'
  have hretained : (m'.finalize.classOf (m'.bucket key short)
      (m'.finalize.standing f (m.finalize.resolve i))).retained = m'.finalize.standing f i :=
    hr.standing_resolve h h' i
  rwa [hretained] at hname

/-- An object gets a name that goes to a class of its bucket which ranks as its own does. -/
theorem Renumbers.exists_name (hi : i ∈ m.bucket key short) : ∃ j ∈ m.bucket key short,
    (m.finalize.classOf (m.bucket key short) (m.finalize.resolve j)).rank =
        (m.finalize.classOf (m.bucket key short) (m.finalize.resolve i)).rank ∧
      (m'.finalize.types[m'.finalize.standing f i]?).map TypeEntry.name =
        (m.finalize.types[m.finalize.resolve j]?).map TypeEntry.name := by
  have halike := (hr.equalsAlike h h' key short).toMergedAlike
  have hstanding : m'.finalize.standing f i ∈ (m'.bucket key short).map m'.finalize.resolve := by
    rw [halike.perm_resolve.mem_iff, List.mem_map]
    exact ⟨i, hi, hr.standing_resolve h h' i⟩
  have hmem : m'.finalize.classOf (m'.bucket key short) (m'.finalize.standing f i) ∈
      m'.finalize.classesOf (m'.bucket key short) :=
    (classesOf_perm _ _).mem_iff.mpr (List.mem_map_of_mem (mem_setOf.mpr hstanding))
  obtain ⟨k, hk'⟩ := List.mem_iff_getElem?.mp hmem
  have hrank := congrArg (·[k]?) (hr.ranks h h' key short)
  simp only [List.getElem?_map, hk', Option.map_some] at hrank
  obtain ⟨c, hk, hc⟩ := Option.map_eq_some_iff.mp hrank.symm
  obtain ⟨r, hmember, rfl⟩ :=
    List.mem_map.mp ((classesOf_perm _ _).mem_iff.mp (List.mem_of_getElem? hk))
  obtain ⟨j, hj, rfl⟩ := List.mem_map.mp (mem_setOf.mp hmember)
  refine ⟨j, hj, ?_, hr.name_of_place h h' hi hk hk'⟩
  rw [hc, ← hr.standing_resolve h h' i]
  exact halike.rank hi

end Renumbers

end Model

end SchemaCompiler
