import SchemaCompiler.OpenApi
import SchemaCompiler.Proofs.Import.Completeness
import SchemaCompiler.Proofs.Import.Part
import SchemaCompiler.Proofs.Import.Replay

/-! Importing definitions by their keys. Keys that were imported once can be imported again, alone and in
any order, and the types that they lead to are the same. -/

namespace SchemaCompiler

open QualifiedName (parse?)

namespace Importer

variable {c : ImportSettings} {i j k : Importer} {m : Model} {keys : List String}
  {seeds before : List TypeExpr} {bodies : List Pending}

/-- The keys are imported one after the other, and `seeds` is what they stand for. -/
inductive Imports (c : ImportSettings) : Importer → List String → List TypeExpr → Importer → Prop where
  | nil (i : Importer) : Imports c i [] [] i
  | cons {i j k : Importer} {key : String} {keys : List String} {e : TypeExpr} {seeds : List TypeExpr}
      (hok : i.importRef c key = (.ok e, j)) (h : Imports c j keys seeds k) :
      Imports c i (key :: keys) (e :: seeds) k

theorem Imports.importKeys_eq (h : Imports c i keys seeds j) :
    OpenApiDocument.importKeys c i keys = j.finish c := by
  induction h with
  | nil i => rfl
  | cons hok _ ih =>
    rw [OpenApiDocument.importKeys, hok]
    exact ih

theorem Imports.importTypes_eq (h : Imports c i keys seeds j) {names : ShortNames}
    {requested : List String}
    (hnames : List.Forall₂ (fun r key => names.resolve r = .ok key) requested keys) :
    OpenApiDocument.importTypes c names i requested = j.finish c := by
  induction h generalizing requested with
  | nil i =>
    cases hnames
    rfl
  | cons hok _ ih =>
    cases hnames with
    | cons hr hrest =>
      rw [OpenApiDocument.importTypes, hr]
      simp only [hok]
      exact ih hrest

theorem imports_of_ok (h : OpenApiDocument.importKeys c i keys = .ok m) :
    ∃ seeds j, Imports c i keys seeds j ∧ j.finish c = .ok m := by
  induction keys generalizing i with
  | nil => exact ⟨[], i, .nil i, h⟩
  | cons key keys ih =>
    rw [OpenApiDocument.importKeys] at h
    split at h
    · next e j hok =>
      obtain ⟨seeds, k, himports, hfinish⟩ := ih h
      exact ⟨e :: seeds, k, .cons hok himports, hfinish⟩
    · cases h

theorem exists_imports_of_importTypes {names : ShortNames} {requested : List String}
    (h : OpenApiDocument.importTypes c names i requested = .ok m) :
    ∃ keys seeds j, List.Forall₂ (fun r key => names.resolve r = .ok key) requested keys ∧
      Imports c i keys seeds j ∧ j.finish c = .ok m := by
  induction requested generalizing i with
  | nil => exact ⟨[], [], i, .nil, .nil i, h⟩
  | cons r requested ih =>
    rw [OpenApiDocument.importTypes] at h
    split at h
    · cases h
    · next key hkey =>
      split at h
      · next e j hok =>
        obtain ⟨keys, seeds, k, hkeys, himports, hfinish⟩ := ih h
        exact ⟨key :: keys, e :: seeds, k, .cons hkey hkeys, .cons hok himports, hfinish⟩
      · cases h

theorem Tracked.exists_imports {R : Waypoint → Prop} (h : Tracked c [] R i) (hR : Passable c R)
    (hs : Unshared c []) (hkeys : ∀ key ∈ keys, R (.reference key)) :
    ∃ seeds j, Imports c i keys seeds j := by
  induction keys generalizing i with
  | nil => exact ⟨[], i, .nil i⟩
  | cons key keys ih =>
    obtain ⟨e, j, hok, honward⟩ := h.importRef hR hs (hkeys key List.mem_cons_self)
    obtain ⟨seeds, k, h⟩ := ih honward.tracked fun key hkey => hkeys key (List.mem_cons_of_mem _ hkey)
    exact ⟨e :: seeds, k, .cons hok h⟩

theorem Imports.full (h : Imports c i keys seeds j) (hs : Separate c []) (hi : Full c [] [] [] i)
    (hr : Rooted before i) : Full c [] [] [] j ∧ Rooted (before ++ seeds) j ∧
      i.model.Extends j.model ∧ List.Forall₂ (fun key e =>
        Meaning c j.model (QualifiedName.identifier key) e) keys seeds := by
  induction h generalizing before with
  | nil i => exact ⟨hi, by rwa [List.append_nil], .refl _, .nil⟩
  | @cons i j k key keys e seeds hok _ ih =>
    obtain ⟨hj, hrj, hextends, hmeaning⟩ := hi.importRef hs.unshared hr hok
    obtain ⟨hk, hrk, hextendsk, hmeanings⟩ := ih hj hrj
    rw [List.append_assoc, List.singleton_append] at hrk
    exact ⟨hk, hrk, hextends.trans hextendsk, .cons (hmeaning.mono hextendsk) hmeanings⟩

/-- The definitions under the keys, and all that they lead to, have been imported. -/
structure Imported (c : ImportSettings) (keys : List String) (seeds : List TypeExpr)
    (bodies : List Pending) (k : Importer) : Prop where
  finished : Finished c bodies k
  rooted : Rooted seeds k
  meanings : List.Forall₂ (fun key e => Meaning c k.model (QualifiedName.identifier key) e) keys seeds

theorem Imports.imported (h : Imports c {} keys seeds i) (hs : Separate c [])
    (he : Empties c i bodies k) : Imported c keys seeds bodies k := by
  obtain ⟨hfull, hrooted, -, hmeanings⟩ := h.full hs (full_empty c []) rooted_empty
  obtain ⟨hpending, hk, hr, hextends, -⟩ := hfull.empties hs.unshared hrooted he
  exact ⟨⟨hk, hpending, _, hr⟩, hr, hmeanings.imp fun _ _ hmeaning => hmeaning.mono hextends⟩

theorem Empties.finish_eq (h : Empties c i bodies k) (hlimit : bodies.length ≤ stepLimit) :
    i.finish c = .ok k.model.finalize := by
  rw [finish, drain, h.run hlimit]

theorem empties_of_finish (h : i.finish c = .ok m) :
    ∃ bodies k, Empties c i bodies k ∧ bodies.length ≤ stepLimit ∧ k.model.finalize = m := by
  rw [finish] at h
  split at h
  · next k hdrain =>
    obtain ⟨bodies, hempties, hlength⟩ := empties_of_run hdrain
    exact ⟨bodies, k, hempties, hlength, Except.ok.inj h⟩
  · cases h

/-! Keys that have been imported. -/

section Again

variable {bodies₁ bodies₂ : List Pending} {k₁ k₂ : Importer} {keys₁ keys₂ : List String}
  {seeds₁ seeds₂ : List TypeExpr} (h₁ : Imported c keys₁ seeds₁ bodies₁ k₁)

include h₁

theorem Imported.meaning {key : String} (hkey : key ∈ keys₁) :
    ∃ e ∈ seeds₁, Meaning c k₁.model (QualifiedName.identifier key) e :=
  forall₂_mem_left h₁.meanings hkey

theorem Imported.shared (hmeanings : List.Forall₂ (fun key e =>
      Meaning c m (QualifiedName.identifier key) e) keys₂ seeds₂) (hsubset : keys₂ ⊆ keys₁) :
    Shared c k₁.model m seeds₂ := by
  intro e he
  obtain ⟨key, hkey, hmeaning⟩ := forall₂_mem_right hmeanings he
  obtain ⟨e₁, -, he₁⟩ := h₁.meaning (hsubset hkey)
  exact ⟨_, e₁, he₁, hmeaning⟩

theorem Imported.exists_twins (hs : Separate c []) (h₂ : Imported c keys₂ seeds₂ bodies₂ k₂)
    (hsubset : keys₂ ⊆ keys₁) : ∃ f : TypeId → TypeId, ∀ y, y < k₂.model.types.size →
      Twin k₁.model k₂.model bodies₁ bodies₂ (f y) y := by
  have htwins : ∀ y, ∃ x, y < k₂.model.types.size → Twin k₁.model k₂.model bodies₁ bodies₂ x y := by
    intro y
    by_cases hy : y < k₂.model.types.size
    · obtain ⟨x, hx⟩ := h₂.finished.full.exists_twin hs h₁.finished (h₁.shared h₂.meanings hsubset)
        h₂.rooted hy
      rw [h₂.finished.bodies_eq] at hx
      exact ⟨x, fun _ => hx⟩
    · exact ⟨0, fun h => absurd h hy⟩
  choose f hf using htwins
  exact ⟨f, hf⟩

/-- No more bodies are read when keys are imported again. -/
theorem Imported.exists_imports (hs : Separate c []) (htidy : Tidy c []) (hsubset : keys₂ ⊆ keys₁) :
    ∃ seeds₂ i bodies₂ k₂, Imports c {} keys₂ seeds₂ i ∧ Empties c i bodies₂ k₂ ∧
      bodies₂.length ≤ bodies₁.length := by
  have hmeant : ∀ key ∈ keys₂, ∃ e, Meaning c k₁.model (QualifiedName.identifier key) e := by
    intro key hkey
    obtain ⟨e, -, he⟩ := h₁.meaning (hsubset hkey)
    exact ⟨e, he⟩
  have hR := h₁.finished.full.passable hs.unshared h₁.finished.pending
  obtain ⟨seeds, i, himports⟩ := (tracked_empty c [] _).exists_imports hR hs.unshared hmeant
  obtain ⟨hfull, hrooted, -, hmeanings⟩ := himports.full hs (full_empty _ []) rooted_empty
  obtain ⟨bodies, k, hempties, hlength⟩ :=
    hfull.exists_empties hs htidy h₁.finished (h₁.shared hmeanings hsubset) hrooted
  exact ⟨seeds, i, bodies, k, himports, hempties, hlength⟩

end Again

end Importer

end SchemaCompiler
