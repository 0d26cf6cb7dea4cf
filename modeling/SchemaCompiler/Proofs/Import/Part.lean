import SchemaCompiler.Proofs.Import.Merged

/-! One model as a part of another. What comes of an import is what can be reached from the types that
were asked for, in what comes of one that has met them. -/

namespace SchemaCompiler

namespace TypeEntry

variable {t t' : TypeEntry} {f : TypeId → TypeId}

theorem exprs_eq_of_content (h : t.content = t'.content) : t.exprs = t'.exprs := by
  have hexprs : t.content.exprs = t'.content.exprs := by rw [h]
  exact hexprs

theorem isAnonymous_eq_of_content (h : t.content = t'.content) : t.isAnonymous = t'.isAnonymous := by
  have hanonymous : t.content.isAnonymous = t'.content.isAnonymous := by rw [h]
  exact hanonymous

end TypeEntry

namespace Model

/-- The types that the types of which `start` holds lead to. -/
inductive Reached (m : Model) (start : TypeId → Prop) : TypeId → Prop where
  | start {a : TypeId} (h : start a) : Reached m start a
  | mentioned {a b : TypeId} (h : Reached m start a) (hb : .type b ∈ m.leavesOf a) : Reached m start b

/-- `m'` is the part of `m` that can be reached from the types of which `start` holds. The type `a` of
it is the type `f a` of `m`, but for the name that an object gets. -/
structure Restricts (m m' : Model) (start : TypeId → Prop) (f : TypeId → TypeId) : Prop where
  injective : ∀ {a b : TypeId}, a < m'.types.size → b < m'.types.size → f a = f b → a = b
  reached : ∀ {x : TypeId}, m.Reached start x ↔ ∃ a, a < m'.types.size ∧ f a = x
  entry : ∀ {a : TypeId} {t : TypeEntry}, m'.types[a]? = some t → ∃ t₁, m.types[f a]? = some t₁ ∧
    t₁.content = (t.mapIds f).content ∧ (t.isAnonymous = false → t₁ = t.mapIds f)
  named : ∀ {group : GroupKey} {name : String} {a : TypeId}, a < m'.types.size →
    (m'.named? group name = some a ↔ m.named? group name = some (f a))
  merged : ∀ {a b : TypeId}, a < m'.types.size → b < m'.types.size →
    (m'.resolve a = m'.resolve b ↔ m.resolve (f a) = m.resolve (f b))

variable {m : Model} {a id : TypeId} {t : TypeEntry} {e : TypeExpr} {property : String}

theorem Restricts.kind? {m' : Model} {start : TypeId → Prop} {f : TypeId → TypeId} {k : TypeKind}
    (h : m.Restricts m' start f) (hk : m'.kind? a = some k) : m.kind? (f a) = some (k.mapIds f) := by
  obtain ⟨t, ht, rfl⟩ := Option.map_eq_some_iff.mp hk
  obtain ⟨t₁, ht₁, hcontent, -⟩ := h.entry ht
  have hkind : t₁.content.kind = (t.mapIds f).content.kind := by rw [hcontent]
  rw [Model.kind?, ht₁]
  exact congrArg some hkind

theorem mem_leavesOf (ht : m.types[a]? = some t) :
    e ∈ m.leavesOf a ↔ ∃ x ∈ t.exprs, e ∈ x.leaves := by
  simp [leavesOf, exprsOf, ht]

theorem Holds.mem_exprs (h : m.Holds a property e) (ht : m.types[a]? = some t) : e ∈ t.exprs := by
  cases h with
  | synonym hk =>
    have hkind : t.kind = .synonym e := by simpa [kind?, ht] using hk
    simp [TypeEntry.exprs, hkind]
  | property ht' hp =>
    obtain rfl := Option.some.inj (ht.symm.trans ht')
    exact List.mem_append_right _ (List.mem_map.mpr ⟨_, hp, rfl⟩)

theorem exists_holds (ht : m.types[a]? = some t) (he : e ∈ t.exprs) : ∃ property, m.Holds a property e := by
  rcases List.mem_append.mp he with hsynonym | hproperty
  · split at hsynonym
    · next target hk =>
      obtain rfl := List.mem_singleton.mp hsynonym
      exact ⟨_, .synonym (by rw [kind?, ht, Option.map_some, hk])⟩
    · cases hsynonym
  · obtain ⟨p, hp, rfl⟩ := List.mem_map.mp hproperty
    exact ⟨_, .property ht hp⟩

theorem WellFormed.exists_finalize (h : m.WellFormed) (ht : m.types[a]? = some t) :
    ∃ t', m.finalize.types[a]? = some t' ∧ t'.content = t.content := by
  have hcontent := h.content_finalize a
  rw [ht] at hcontent
  exact Option.map_eq_some_iff.mp hcontent

theorem WellFormed.of_finalize (h : m.WellFormed) (ht : m.finalize.types[a]? = some t) :
    ∃ t', m.types[a]? = some t' ∧ t'.content = t.content := by
  have hcontent := h.content_finalize a
  rw [ht] at hcontent
  exact Option.map_eq_some_iff.mp hcontent.symm

end Model

namespace Importer

open Model (Counterpart Distinct Restricts Reached)

variable {c : ImportSettings} {bodies₁ bodies₂ : List Pending} {k₁ k₂ : Importer}
  {f : TypeId → TypeId} {a b x : TypeId} {t : TypeEntry} {seeds : List TypeExpr}
  {start : TypeId → Prop}

section Part

variable (hs : Separate c []) (hk₁ : Finished c bodies₁ k₁) (hk₂ : Finished c bodies₂ k₂)
  (hd₁ : k₁.model.Distinct) (hd₂ : k₂.model.Distinct)
  (hf : ∀ y, y < k₂.model.types.size → Twin k₁.model k₂.model bodies₁ bodies₂ (f y) y)

include hs hk₁ hk₂ hd₁ hd₂ hf

theorem entry_twin (ht : k₂.model.types[a]? = some t) : k₁.model.types[f a]? = some (t.mapIds f) := by
  have htwin := hf a (Array.getElem?_eq_some_iff.mp ht).1
  obtain ⟨t₁, t₂, ht₁, ht₂, hface⟩ := htwin.face
  obtain rfl := Option.some.inj (ht₂.symm.trans ht)
  have heq : ∀ {x y}, Counterpart k₁.model k₂.model x y → x = f y := counterpart_eq hd₁ hd₂ hf
  have hkind := htwin.kind_eq hs hk₁ hk₂ heq hd₂ ht₁ ht₂
  have hproperties := htwin.properties_eq hs hk₁ hk₂ heq hd₂ ht₁ ht₂
  have hlive₁ : t₁.mergedInto = none := by
    have hlive := hd₁.shelved.live (f a)
    rwa [Model.mergedInto?, ht₁] at hlive
  have hlive₂ : t₂.mergedInto = none := by
    have hlive := hd₂.shelved.live a
    rwa [Model.mergedInto?, ht₂] at hlive
  obtain ⟨hname, hfull, hqualified, hgroup, hdescription, -⟩ := TypeEntry.face_eq_iff.mp hface
  rw [ht₁]
  obtain ⟨name, full, qualified, group, description, properties, kind, merged⟩ := t₁
  simp only at hname hfull hqualified hgroup hdescription hkind hproperties hlive₁
  simp [TypeEntry.mapIds, hname, hfull, hqualified, hgroup, hdescription, hkind, hproperties, hlive₁,
    hlive₂]

theorem entry_finalize (ht : k₂.model.finalize.types[a]? = some t) :
    ∃ t₁, k₁.model.finalize.types[f a]? = some t₁ ∧ t₁.content = (t.mapIds f).content ∧
      (t.isAnonymous = false → t₁ = t.mapIds f) := by
  obtain ⟨t₂, ht₂, hcontent₂⟩ := hd₂.wellFormed.of_finalize ht
  have htwin := entry_twin hs hk₁ hk₂ hd₁ hd₂ hf ht₂
  obtain ⟨t₁, ht₁, hcontent₁⟩ := hd₁.wellFormed.exists_finalize htwin
  refine ⟨t₁, ht₁, ?_, fun ha => ?_⟩
  · rw [hcontent₁, TypeEntry.content_mapIds, hcontent₂, ← TypeEntry.content_mapIds]
  · have ha₂ := (TypeEntry.isAnonymous_eq_of_content hcontent₂).trans ha
    have ha₁ : (t₂.mapIds f).isAnonymous = false := by
      cases hk : t₂.kind <;> simp_all [TypeEntry.isAnonymous, TypeEntry.mapIds, TypeKind.mapIds]
    rw [hd₂.wellFormed.types_finalize (hd₂.unfiled ht₂ ha₂), ht₂] at ht
    rw [hd₁.wellFormed.types_finalize (hd₁.unfiled htwin ha₁), htwin] at ht₁
    rw [← Option.some.inj ht, ← Option.some.inj ht₁]

omit hs hk₁ hk₂ in
theorem named_twin {group : GroupKey} {name : String} (ha : a < k₂.model.types.size) :
    k₂.model.named? group name = some a ↔ k₁.model.named? group name = some (f a) := by
  have hcounterpart := (hf a ha).counterpart
  exact ⟨hcounterpart.named_left hd₂, hcounterpart.symm.named_left hd₁⟩

theorem mem_leavesOf_twin (ha : a < k₂.model.types.size) :
    .type x ∈ k₁.model.finalize.leavesOf (f a) ↔
      ∃ b, b < k₂.model.types.size ∧ .type b ∈ k₂.model.finalize.leavesOf a ∧ f b = x := by
  have ht := Array.getElem?_eq_getElem ha
  have htwin := entry_twin hs hk₁ hk₂ hd₁ hd₂ hf ht
  obtain ⟨t₁, ht₁, hcontent₁⟩ := hd₁.wellFormed.exists_finalize htwin
  obtain ⟨t₂, ht₂, hcontent₂⟩ := hd₂.wellFormed.exists_finalize ht
  rw [Model.mem_leavesOf ht₁, TypeEntry.exprs_eq_of_content hcontent₁, TypeEntry.exprs_mapIds]
  simp only [Model.mem_leavesOf ht₂, TypeEntry.exprs_eq_of_content hcontent₂]
  constructor
  · intro hx
    obtain ⟨e₁, he₁, hx⟩ := hx
    obtain ⟨e, he, rfl⟩ := List.mem_map.mp he₁
    rw [TypeExpr.leaves_mapIds] at hx
    obtain ⟨leaf, hleaf, hx⟩ := List.mem_map.mp hx
    obtain ⟨b, rfl, hb⟩ := TypeExpr.mapIds_eq_type_iff.mp hx
    obtain ⟨property, hholds⟩ := Model.exists_holds ht he
    exact ⟨b, (hk₂.mentioned hs hd₂ hholds hleaf).1, ⟨e, he, hleaf⟩, hb⟩
  · rintro ⟨b, -, ⟨e, he, hleaf⟩, hb⟩
    refine ⟨e.mapIds f, List.mem_map_of_mem he, ?_⟩
    rw [TypeExpr.leaves_mapIds]
    exact List.mem_map.mpr ⟨_, hleaf, TypeExpr.mapIds_eq_type_iff.mpr ⟨b, rfl, hb⟩⟩

/-- Where the types that are asked for are among those of which `start` holds, no others are met. -/
theorem reached_twin (hr : Rooted seeds k₂)
    (hseeds : ∀ e ∈ seeds, ∀ y, .type y ∈ e.leaves → start (f y)) (ha : a < k₂.model.types.size) :
    Reached k₁.model.finalize start (f a) := by
  induction a using Nat.strong_induction_on with
  | h a ih =>
    rcases hr a ha with ⟨e, he, hmentioned⟩ | ⟨hlt, he, hmentioned⟩
    · exact .start (hseeds e he a hmentioned.mem)
    · rename_i b property e
      have hb := Nat.lt_trans hlt ha
      have ht := Array.getElem?_eq_getElem hb
      obtain ⟨t₂, ht₂, hcontent⟩ := hd₂.wellFormed.exists_finalize ht
      have hmem : .type a ∈ k₂.model.finalize.leavesOf b := by
        rw [Model.mem_leavesOf ht₂, TypeEntry.exprs_eq_of_content hcontent]
        exact ⟨e, he.mem_exprs ht, hmentioned.mem⟩
      exact (ih b hlt hb).mentioned
        ((mem_leavesOf_twin hs hk₁ hk₂ hd₁ hd₂ hf hb).mpr ⟨a, ha, hmem, rfl⟩)

theorem restricts_finalize (hr : Rooted seeds k₂)
    (hseeds : ∀ e ∈ seeds, ∀ y, .type y ∈ e.leaves → start (f y))
    (hstart : ∀ x, start x → ∃ y, y < k₂.model.types.size ∧ f y = x) :
    Restricts k₁.model.finalize k₂.model.finalize start f := by
  have hsize := hd₂.wellFormed.size_finalize
  constructor
  · rw [hsize]
    exact twin_injective hd₁ hd₂ hf
  · intro x
    rw [hsize]
    constructor
    · intro hx
      induction hx with
      | start h => exact hstart _ h
      | mentioned _ hb ih =>
        obtain ⟨a, ha, rfl⟩ := ih
        obtain ⟨b, hlt, -, hb⟩ := (mem_leavesOf_twin hs hk₁ hk₂ hd₁ hd₂ hf ha).mp hb
        exact ⟨b, hlt, hb⟩
    · rintro ⟨a, ha, rfl⟩
      exact reached_twin hs hk₁ hk₂ hd₁ hd₂ hf hr hseeds ha
  · exact entry_finalize hs hk₁ hk₂ hd₁ hd₂ hf
  · intro group name a ha
    rw [hsize] at ha
    rw [hd₁.wellFormed.named?_finalize, hd₂.wellFormed.named?_finalize]
    exact named_twin hd₁ hd₂ hf ha
  · rw [hsize]
    exact resolve_twin_iff hs hk₁ hk₂ hd₁ hd₂ hf

end Part

end Importer

end SchemaCompiler
