import Mathlib.Logic.Equiv.Fintype
import SchemaCompiler.Proofs.Import.Changes
import SchemaCompiler.Proofs.Model.Resemblance

/-! Numbers given by an import. The order in which keys are imported decides the numbers of the types and
nothing else. -/

namespace SchemaCompiler

theorem exists_perm_of_injOn {n : Nat} {f : Nat → Nat} (hlt : ∀ a < n, f a < n)
    (hinjective : ∀ a < n, ∀ b < n, f a = f b → a = b) :
    ∃ σ : Equiv.Perm Nat, (∀ a < n, σ a = f a) ∧ ∀ a, n ≤ a → σ a = a := by
  let g : Fin n → Fin n := fun a => ⟨f a, hlt a a.isLt⟩
  have hg : Function.Injective g := fun a b hab =>
    Fin.ext (hinjective a a.isLt b b.isLt (congrArg Fin.val hab))
  let σ : Equiv.Perm (Fin n) := Equiv.ofBijective g (Finite.injective_iff_bijective.mp hg)
  refine ⟨σ.extendDomain Fin.equivSubtype, fun a ha => ?_, fun a ha => ?_⟩
  · exact Equiv.Perm.extendDomain_apply_subtype σ Fin.equivSubtype ha
  · exact Equiv.Perm.extendDomain_apply_not_subtype σ Fin.equivSubtype (not_lt.mpr ha)

namespace Model

variable {m m' : Model} {f : Equiv.Perm TypeId} {key : GroupKey} {g : Group}

theorem Unfinalized.exists_members_iff (h : m.Unfinalized) (hg : m.group? key = some g)
    {short : String} :
    (∃ members, Table.get? short g.anonymous = some members) ↔ ∃ i, i ∈ m.bucket key short := by
  rw [bucket_of_group? hg]
  constructor
  · rintro ⟨members, hs⟩
    have hne : members ≠ [] := fun he => h.filled hg (he ▸ hs)
    rw [hs]
    exact List.exists_mem_of_ne_nil members hne
  · rintro ⟨i, hi⟩
    cases hs : Table.get? short g.anonymous with
    | none => simp [hs] at hi
    | some members => exact ⟨members, rfl⟩

/-- A model that has not been finalized is known by its types, their names and the buckets they are
in. -/
theorem Unfinalized.renumbers (h : m.Unfinalized) (h' : m'.Unfinalized)
    (htypes : ∀ i : TypeId, m'.types[f i]? = (m.types[i]?).map (TypeEntry.mapIds f))
    (hnamed : ∀ key name, m'.named? key name = (m.named? key name).map f)
    (hbucket : ∀ key short i, f i ∈ m'.bucket key short ↔ i ∈ m.bucket key short) :
    Renumbers f m m' := by
  have hgroup : ∀ i, m'.groupOf? (f i) = m.groupOf? i := by
    intro i
    rw [groupOf?, htypes, Option.map_map, groupOf?]
    rfl
  have hkeys : ∀ key, (∃ g, m.group? key = some g) ↔ ∃ g, m'.group? key = some g := by
    intro key
    constructor
    · rintro ⟨g, hg⟩
      obtain ⟨i, hi⟩ := h.inhabited hg
      rw [← hgroup] at hi
      exact h'.wellFormed.mem_keys.mp (h'.wellFormed.key_mem hi)
    · rintro ⟨g, hg⟩
      obtain ⟨i, hi⟩ := h'.inhabited hg
      rw [← f.apply_symm_apply i, hgroup] at hi
      exact h.wellFormed.mem_keys.mp (h.wellFormed.key_mem hi)
  refine ⟨h.wellFormed.ordered.alike h'.wellFormed.ordered hkeys ?_, htypes⟩
  intro key g g' (hg : m.group? key = some g) (hg' : m'.group? key = some g')
  have hanonymous := h.wellFormed.anonymous_ordered hg
  have hanonymous' := h'.wellFormed.anonymous_ordered hg'
  have hmembers : ∀ short, (∃ i, i ∈ m.bucket key short) ↔ ∃ i, i ∈ m'.bucket key short := by
    intro short
    constructor
    · rintro ⟨i, hi⟩
      exact ⟨f i, (hbucket key short i).mpr hi⟩
    · rintro ⟨i, hi⟩
      rw [← f.apply_symm_apply i] at hi
      exact ⟨f.symm i, (hbucket key short _).mp hi⟩
  constructor
  · have hordered : Table.Ordered (g.named.map fun e => (e.1, f e.2)) :=
      List.pairwise_map.mpr (h.wellFormed.named_ordered hg)
    refine (h'.wellFormed.named_ordered hg').ext hordered fun name => ?_
    have hname := hnamed key name
    rw [named?, named?, hg, hg'] at hname
    rw [Table.get?_map]
    exact hname
  · refine hanonymous.alike hanonymous' (fun short => ?_) fun short members members' hs hs' => ?_
    · rw [h.exists_members_iff hg, h'.exists_members_iff hg', hmembers]
    · have hbucketed : m.bucket key short = members := by rw [bucket_of_group? hg, hs]; rfl
      have hbucketed' : m'.bucket key short = members' := by rw [bucket_of_group? hg', hs']; rfl
      rw [← hbucketed, ← hbucketed']
      refine (List.perm_ext_iff_of_nodup (h'.wellFormed.nodup key short)
        ((h.wellFormed.nodup key short).map f.injective)).mpr fun i => ?_
      rw [← f.apply_symm_apply i, hbucket, List.mem_map_of_injective f.injective]

end Model

namespace Importer

open Model (Distinct Renumbers Unfinalized Assembled)

variable {c : ImportSettings} {bodies bodies₁ bodies₂ : List Pending} {i k k₁ k₂ : Importer}
  {f : TypeId → TypeId} {σ : Equiv.Perm TypeId} {keys keys₁ keys₂ : List String}
  {seeds seeds₁ seeds₂ : List TypeExpr}

theorem Imports.assembled (h : Imports c {} keys seeds i) (he : Empties c i bodies k)
    (hs : Separate c []) (htidy : Tidy c []) : k.model.Assembled := by
  have hfinished := (h.imported hs he).finished
  have hd := hfinished.distinct hs htidy
  refine ⟨h.unfinalized he, hfinished.enclosed hs hd, ?_⟩
  rintro key x ⟨short, hx⟩
  have ht := Array.getElem?_eq_getElem (hd.wellFormed.lt_size hx)
  obtain ⟨parent, property, hkind⟩ := TypeEntry.isAnonymous_iff.mp ((hd.mem_bucket_iff ht).mp hx).1
  exact ⟨parent, property, by rw [Model.kind?, ht, Option.map_some, hkind]⟩

section Numbering

variable (hs : Separate c []) (hk₁ : Finished c bodies₁ k₁) (hk₂ : Finished c bodies₂ k₂)
  (hd₁ : k₁.model.Distinct) (hd₂ : k₂.model.Distinct)
  (hf : ∀ y, y < k₂.model.types.size → Twin k₁.model k₂.model bodies₁ bodies₂ (f y) y)

include hs hk₁ hk₂ hd₁ hd₂ hf

theorem twin_lt {y : TypeId} (hy : y < k₂.model.types.size) : f y < k₁.model.types.size := by
  have ht := entry_twin hs hk₁ hk₂ hd₁ hd₂ hf (Array.getElem?_eq_getElem hy)
  exact (Array.getElem?_eq_some_iff.mp ht).1

theorem size_le_of_twins : k₂.model.types.size ≤ k₁.model.types.size := by
  have hcard : (Finset.range k₂.model.types.size).card ≤ (Finset.range k₁.model.types.size).card := by
    refine Finset.card_le_card_of_injOn f (fun y hy => ?_) fun a ha b hb hab => ?_
    · simp only [Finset.coe_range, Set.mem_Iio] at hy ⊢
      exact twin_lt hs hk₁ hk₂ hd₁ hd₂ hf hy
    · simp only [Finset.coe_range, Set.mem_Iio] at ha hb
      exact twin_injective hd₁ hd₂ hf ha hb hab
  simpa only [Finset.card_range] using hcard

end Numbering

/-- The numbers beyond those of the types stay as they are, so that all types of the one model are twins
of types of the other. -/
theorem renumbers_of_twins (hs : Separate c []) (hk₁ : Finished c bodies₁ k₁)
    (hk₂ : Finished c bodies₂ k₂) (hd₁ : k₁.model.Distinct) (hd₂ : k₂.model.Distinct)
    (hσ : ∀ y, y < k₂.model.types.size → Twin k₁.model k₂.model bodies₁ bodies₂ (σ y) y)
    (hsize : k₁.model.types.size = k₂.model.types.size) (houtside : ∀ y, k₂.model.types.size ≤ y → σ y = y)
    (hu₁ : k₁.model.Unfinalized) (hu₂ : k₂.model.Unfinalized) :
    Renumbers σ k₂.model k₁.model := by
  have hlt : ∀ y, σ y < k₁.model.types.size → y < k₂.model.types.size := by
    intro y hy
    by_contra hn
    rw [houtside y (not_lt.mp hn), hsize] at hy
    exact hn hy
  have htypes : ∀ y : TypeId, k₁.model.types[σ y]? = (k₂.model.types[y]?).map (TypeEntry.mapIds σ) := by
    intro y
    by_cases hy : y < k₂.model.types.size
    · rw [Array.getElem?_eq_getElem hy, Option.map_some]
      exact entry_twin hs hk₁ hk₂ hd₁ hd₂ hσ (Array.getElem?_eq_getElem hy)
    · have hle := not_lt.mp hy
      rw [houtside y hle, Array.getElem?_eq_none hle, Array.getElem?_eq_none (hsize.trans_le hle)]
      rfl
  refine hu₂.renumbers hu₁ htypes (fun key name => ?_) fun key short y => ?_
  · refine Option.ext fun x => ?_
    rw [Option.map_eq_some_iff]
    constructor
    · intro hx
      have hy := hlt (σ.symm x) (by rw [σ.apply_symm_apply]; exact hd₁.wellFormed.named_lt hx)
      rw [← σ.apply_symm_apply x] at hx
      exact ⟨σ.symm x, (named_twin hd₁ hd₂ hσ hy).mpr hx, σ.apply_symm_apply x⟩
    · rintro ⟨y, hy, rfl⟩
      exact (named_twin hd₁ hd₂ hσ (hd₂.wellFormed.named_lt hy)).mp hy
  · constructor
    · intro hy
      exact ((hσ y (hlt y (hd₁.wellFormed.lt_size hy))).mem_bucket_iff hd₁ hd₂).mp hy
    · intro hy
      exact ((hσ y (hd₂.wellFormed.lt_size hy)).mem_bucket_iff hd₁ hd₂).mpr hy

/-- Keys imported in another order give the same types, under other numbers. -/
theorem Imported.exists_renumbers (hs : Separate c []) (htidy : Tidy c [])
    (h₁ : Imported c keys₁ seeds₁ bodies₁ k₁) (h₂ : Imported c keys₂ seeds₂ bodies₂ k₂)
    (hsubset : keys₂ ⊆ keys₁) (hsubset' : keys₁ ⊆ keys₂) (hu₁ : k₁.model.Unfinalized)
    (hu₂ : k₂.model.Unfinalized) : ∃ σ : Equiv.Perm TypeId, Renumbers σ k₂.model k₁.model := by
  have hd₁ := h₁.finished.distinct hs htidy
  have hd₂ := h₂.finished.distinct hs htidy
  obtain ⟨f, hf⟩ := h₁.exists_twins hs h₂ hsubset
  obtain ⟨f', hf'⟩ := h₂.exists_twins hs h₁ hsubset'
  have hle := size_le_of_twins hs h₁.finished h₂.finished hd₁ hd₂ hf
  have hle' := size_le_of_twins hs h₂.finished h₁.finished hd₂ hd₁ hf'
  have hsize : k₁.model.types.size = k₂.model.types.size := Nat.le_antisymm hle' hle
  obtain ⟨σ, hσ, houtside⟩ := exists_perm_of_injOn (n := k₂.model.types.size) (f := f)
    (fun y hy => hsize ▸ twin_lt hs h₁.finished h₂.finished hd₁ hd₂ hf hy)
    fun a ha b hb hab => twin_injective hd₁ hd₂ hf ha hb hab
  have htwins : ∀ y, y < k₂.model.types.size → Twin k₁.model k₂.model bodies₁ bodies₂ (σ y) y := by
    intro y hy
    rw [hσ y hy]
    exact hf y hy
  exact ⟨σ, renumbers_of_twins hs h₁.finished h₂.finished hd₁ hd₂ htwins hsize houtside hu₁ hu₂⟩

end Importer

end SchemaCompiler
