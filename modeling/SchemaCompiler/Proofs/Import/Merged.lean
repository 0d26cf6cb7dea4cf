import SchemaCompiler.Proofs.Import.Restriction

/-! Twins are merged alike. Whether two objects are one in the end depends on their properties, and these
lead from an object to objects further down. -/

namespace SchemaCompiler

namespace Model

variable {m : Model} {key : GroupKey} {short : String} {id : TypeId} {t : TypeEntry}

theorem Distinct.mem_bucket_iff (h : m.Distinct) (ht : m.types[id]? = some t) :
    id ∈ m.bucket key short ↔ t.isAnonymous = true ∧ t.group = key ∧ t.name = short := by
  have hl : m.label? id = some t.label := by rw [label?, ht]; rfl
  have hfiled : t.isAnonymous = true → id ∈ m.bucket t.label.group t.label.name := fun ha =>
    h.shelved.filed hl ((TypeEntry.label_isAnonymous t).trans ha)
  constructor
  · intro hid
    have hgroup : m.groupOf? id = some t.group := by rw [groupOf?, ht]; rfl
    obtain rfl : t.group = key := Option.some.inj (hgroup.symm.trans (h.wellFormed.filed hid))
    cases ha : t.isAnonymous with
    | false =>
      have hnamed := h.shelved.named hl ((TypeEntry.label_isAnonymous t).trans ha)
      exact absurd hid (h.wellFormed.apart hnamed)
    | true => exact ⟨rfl, rfl, h.wellFormed.filed_once (hfiled ha) hid⟩
  · rintro ⟨ha, rfl, rfl⟩
    exact hfiled ha

theorem Distinct.unfiled (h : m.Distinct) (ht : m.types[id]? = some t) (ha : t.isAnonymous = false)
    (k : GroupKey) : ¬m.Filed k id := by
  rintro ⟨short, hs⟩
  rw [h.mem_bucket_iff ht, ha] at hs
  cases hs.1

theorem holds_of_mem {p : Property} (hp : p ∈ m.propertiesOf id) :
    m.Holds id p.name p.type := by
  rw [Model.propertiesOf] at hp
  cases ht : m.types[id]? with
  | none => simp [ht] at hp
  | some t => exact .property ht (by simpa [ht] using hp)

end Model

namespace Importer

open Model (Counterpart Distinct)

variable {c : ImportSettings} {bodies : List Pending} {k : Importer} {a id : TypeId}
  {property : String} {e : TypeExpr}

theorem Finished.mentioned (h : Finished c bodies k) (hs : Separate c []) (hd : k.model.Distinct)
    (he : k.model.Holds a property e) (hid : .type id ∈ e.leaves) : id < k.model.types.size ∧
      ((∀ key, ¬k.model.Filed key id) ∨ k.model.groupOf? id = k.model.groupOf? a ∧ a < id) := by
  obtain ⟨seeds, hr⟩ := h.rooted
  obtain ⟨typeName, s, hdenotes⟩ := (h.full.origin hs he hid).denotes
  rcases hdenotes.mem_leaves hid with ⟨key, q, definition, hdefined⟩ | ⟨body, hobject⟩
  · refine ⟨Model.label?_lt hdefined.label, .inl ?_⟩
    rintro key ⟨short, hshort⟩
    exact hd.wellFormed.apart hdefined.named hshort
  · obtain ⟨above, habove, hl⟩ := hobject.label
    obtain ⟨t, ht, hlabel⟩ := Model.label?_eq_some_iff.mp hl
    obtain ⟨t', ht', rfl⟩ := Model.label?_eq_some_iff.mp habove
    have hkind : k.model.kind? id = some (.anonymous a property) := by
      rw [Model.kind?, ht]
      exact congrArg some (TypeEntry.label_anonymous_iff.mp (hlabel ▸ rfl))
    have hgroup : t.label.group = t'.label.group := by rw [hlabel]; rfl
    refine ⟨Model.label?_lt hl, .inr ⟨?_, (hr.declared hkind).1⟩⟩
    rw [Model.groupOf?, Model.groupOf?, ht, ht']
    exact congrArg some hgroup

theorem Finished.enclosed (h : Finished c bodies k) (hs : Separate c []) (hd : k.model.Distinct) :
    k.model.Enclosed := by
  rintro key a ⟨short, ha⟩ p hp x hx
  rcases (h.mentioned hs hd (Model.holds_of_mem hp) hx).2 with hunfiled | ⟨hgroup, -⟩
  · exact .inr hunfiled
  · exact .inl (hgroup.trans (hd.wellFormed.filed ha))

section Merged

variable {bodies₁ bodies₂ : List Pending} {k₁ k₂ : Importer} {f : TypeId → TypeId} {x y b : TypeId}
  (hs : Separate c []) (hk₁ : Finished c bodies₁ k₁) (hk₂ : Finished c bodies₂ k₂)
  (hd₁ : k₁.model.Distinct) (hd₂ : k₂.model.Distinct)
  (hf : ∀ y, y < k₂.model.types.size → Twin k₁.model k₂.model bodies₁ bodies₂ (f y) y)

theorem Twin.mem_bucket_iff (hd₁ : k₁.model.Distinct) (hd₂ : k₂.model.Distinct)
    (h : Twin k₁.model k₂.model bodies₁ bodies₂ x y) {key : GroupKey} {short : String} :
    x ∈ k₁.model.bucket key short ↔ y ∈ k₂.model.bucket key short := by
  obtain ⟨t₁, t₂, ht₁, ht₂, hface⟩ := h.face
  obtain ⟨hname, -, -, hgroup, -⟩ := TypeEntry.face_eq_iff.mp hface
  have hanonymous : t₁.isAnonymous = t₂.isAnonymous := by
    rw [← t₁.face_isAnonymous, hface, t₂.face_isAnonymous]
  rw [hd₁.mem_bucket_iff ht₁, hd₂.mem_bucket_iff ht₂, hname, hgroup, hanonymous]

theorem counterpart_lt (hd₂ : k₂.model.Distinct) (h : Counterpart k₁.model k₂.model x y) :
    y < k₂.model.types.size := by
  cases h with
  | named _ hy => exact hd₂.wellFormed.named_lt hy
  | object _ _ hy =>
    obtain ⟨t, ht, -⟩ := Option.map_eq_some_iff.mp hy
    exact (Array.getElem?_eq_some_iff.mp ht).1

include hf hd₁ hd₂

theorem counterpart_eq (h : Counterpart k₁.model k₂.model x y) : x = f y :=
  h.unique_left hd₁ hd₂ (hf y (counterpart_lt hd₂ h)).counterpart

theorem twin_injective (ha : a < k₂.model.types.size) (hb : b < k₂.model.types.size)
    (hab : f a = f b) : a = b :=
  (hf a ha).counterpart.unique_right hd₁ hd₂ (hab ▸ (hf b hb).counterpart)

theorem resolve_unfiled_iff (ha : a < k₂.model.types.size) (hb : b < k₂.model.types.size)
    (hunfiled : ∀ key, ¬k₂.model.Filed key a) :
    k₂.model.finalize.resolve a = k₂.model.finalize.resolve b ↔
      k₁.model.finalize.resolve (f a) = k₁.model.finalize.resolve (f b) := by
  have hunfiled₁ : ∀ key, ¬k₁.model.Filed key (f a) := by
    rintro key ⟨short, hshort⟩
    exact hunfiled key ⟨short, ((hf a ha).mem_bucket_iff hd₁ hd₂).mp hshort⟩
  constructor
  · intro hab
    by_cases hfiled : ∃ key, k₂.model.Filed key b
    · obtain ⟨key, short, hshort⟩ := hfiled
      exact absurd ⟨short, hd₂.wellFormed.mem_bucket_of_resolve_eq hshort hab.symm⟩ (hunfiled key)
    · rw [hd₂.wellFormed.unfiled_finalize hunfiled,
        hd₂.wellFormed.unfiled_finalize (not_exists.mp hfiled)] at hab
      rw [hab]
  · intro hab
    by_cases hfiled : ∃ key, k₁.model.Filed key (f b)
    · obtain ⟨key, short, hshort⟩ := hfiled
      exact absurd ⟨short, hd₁.wellFormed.mem_bucket_of_resolve_eq hshort hab.symm⟩ (hunfiled₁ key)
    · rw [hd₁.wellFormed.unfiled_finalize hunfiled₁,
        hd₁.wellFormed.unfiled_finalize (not_exists.mp hfiled)] at hab
      rw [twin_injective hd₁ hd₂ hf ha hb hab]

include hs hk₁ hk₂

theorem propertiesOf_twin (ha : a < k₂.model.types.size) :
    k₁.model.propertiesOf (f a) = (k₂.model.propertiesOf a).map (Property.mapIds f) := by
  obtain ⟨t₁, t₂, ht₁, ht₂, -⟩ := (hf a ha).face
  have hproperties := (hf a ha).properties_eq hs hk₁ hk₂ (counterpart_eq hd₁ hd₂ hf) hd₂ ht₁ ht₂
  simp [Model.propertiesOf, ht₁, ht₂, hproperties]

theorem propertiesAgree_twin_iff {R : TypeId → TypeId → Prop} (ha : a < k₂.model.types.size)
    (hb : b < k₂.model.types.size) : k₁.model.PropertiesAgree R (f a) (f b) ↔
      k₂.model.PropertiesAgree (fun x y => R (f x) (f y)) a b := by
  rw [Model.PropertiesAgree, propertiesOf_twin hs hk₁ hk₂ hd₁ hd₂ hf ha,
    propertiesOf_twin hs hk₁ hk₂ hd₁ hd₂ hf hb, List.forall₂_map_left_iff,
    List.forall₂_map_right_iff, Model.PropertiesAgree]
  simp only [Property.mapIds, TypeExpr.agree_mapIds]

/-- Types are merged in the one model if and only if their twins are merged in the other. -/
theorem resolve_twin_iff (ha : a < k₂.model.types.size) (hb : b < k₂.model.types.size) :
    k₂.model.finalize.resolve a = k₂.model.finalize.resolve b ↔
      k₁.model.finalize.resolve (f a) = k₁.model.finalize.resolve (f b) := by
  -- what the properties of an object mention comes after the object, or is named
  induction hn : k₂.model.types.size - a using Nat.strong_induction_on generalizing a b with
  | h n ih =>
    by_cases hfiled : ∃ key, k₂.model.Filed key a
    · obtain ⟨key, short, hashort⟩ := hfiled
      have hashort₁ := ((hf a ha).mem_bucket_iff hd₁ hd₂).mpr hashort
      have hmention : ∀ p ∈ k₂.model.propertiesOf a, ∀ q ∈ k₂.model.propertiesOf b, ∀ x y,
          .type x ∈ p.type.leaves → .type y ∈ q.type.leaves →
            (k₂.model.finalize.resolve x = k₂.model.finalize.resolve y ↔
              k₁.model.finalize.resolve (f x) = k₁.model.finalize.resolve (f y)) := by
        intro p hp q hq x y hx hy
        obtain ⟨hxlt, hx⟩ := hk₂.mentioned hs hd₂ (Model.holds_of_mem hp) hx
        obtain ⟨hylt, -⟩ := hk₂.mentioned hs hd₂ (Model.holds_of_mem hq) hy
        rcases hx with hunfiled | ⟨-, hax⟩
        · exact resolve_unfiled_iff hd₁ hd₂ hf hxlt hylt hunfiled
        · have hlt : k₂.model.types.size - x < n := by
            have hax : (a : Nat) < x := hax
            have hxlt : (x : Nat) < k₂.model.types.size := hxlt
            rw [← hn]
            exact Nat.sub_lt_sub_left (Nat.lt_trans hax hxlt) hax
          exact ih _ hlt hxlt hylt rfl
      rw [hd₂.wellFormed.resolve_eq_iff hd₂.shelved.live (hk₂.enclosed hs hd₂) hashort,
        hd₁.wellFormed.resolve_eq_iff hd₁.shelved.live (hk₁.enclosed hs hd₁) hashort₁,
        (hf b hb).mem_bucket_iff hd₁ hd₂, propertiesAgree_twin_iff hs hk₁ hk₂ hd₁ hd₂ hf ha hb,
        Model.propertiesAgree_congr hmention]
    · exact resolve_unfiled_iff hd₁ hd₂ hf ha hb (not_exists.mp hfiled)

end Merged

end Importer

end SchemaCompiler
