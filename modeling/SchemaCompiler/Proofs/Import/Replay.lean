import SchemaCompiler.Proofs.Import.Tracking

/-! Importing again some of what was imported. Nothing fails that did not fail before, and no more bodies
are read. -/

namespace SchemaCompiler

namespace Importer

variable {c : ImportSettings} {bodies₁ read : List Pending} {k i : Importer} {p : Pending}
  {rest : List Pending} {seeds : List TypeExpr}

/-- A model has no more bodies than one in which each of them has a twin. -/
theorem length_le_of_twins {m₁ m₂ : Model} {bodies₂ : List Pending} (hd₁ : m₁.Distinct)
    (hd₂ : m₂.Distinct) (hnodup : (bodies₂.map Pending.id).Nodup)
    (htwins : ∀ p ∈ bodies₂, ∃ x, Twin m₁ m₂ bodies₁ bodies₂ x p.id) :
    bodies₂.length ≤ bodies₁.length := by
  have hexists : ∀ p : Pending, ∃ x, p ∈ bodies₂ → Twin m₁ m₂ bodies₁ bodies₂ x p.id := by
    intro p
    by_cases hp : p ∈ bodies₂
    · obtain ⟨x, hx⟩ := htwins p hp
      exact ⟨x, fun _ => hx⟩
    · exact ⟨0, fun h => absurd h hp⟩
  choose g hg using hexists
  have hdistinct : (bodies₂.map fun p => (⟨g p, p.schema⟩ : Pending)).Nodup := by
    refine List.Nodup.map_on (fun p hp p' hp' heq => ?_) hnodup.of_map
    have hsame : g p = g p' := congrArg Pending.id heq
    have hid := (hg p hp).counterpart.unique_right hd₁ hd₂ (hsame ▸ (hg p' hp').counterpart)
    exact List.inj_on_of_nodup_map hnodup hp hp' hid
  have hsubset : (bodies₂.map fun p => (⟨g p, p.schema⟩ : Pending)) ⊆ bodies₁ := by
    intro b hb
    obtain ⟨p, hp, rfl⟩ := List.mem_map.mp hb
    exact (hg p hp).body p.schema hp
  have hlength := (List.subperm_of_subset hdistinct hsubset).length_le
  rwa [List.length_map] at hlength

/-- A queue from which every next body can be read, but no more than `n` bodies, is read to its end. -/
theorem exists_empties_of_invariant {P : List Pending → Importer → Prop} {n : Nat}
    (hstep : ∀ {read i p rest}, P read i → i.pending = p :: rest →
      ∃ j, importBody c { i with pending := rest } p = (.ok (), j) ∧ P (read ++ [p]) j)
    (hbound : ∀ {read i}, P read i → (read ++ i.pending).length ≤ n) (hi : P read i) :
    ∃ bodies j, Empties c i bodies j ∧ (read ++ bodies).length ≤ n := by
  generalize hm : n - read.length = m
  induction m generalizing i read with
  | zero =>
    have hle := hbound hi
    cases hp : i.pending with
    | nil => exact ⟨[], i, .done hp, by simp at hle ⊢; omega⟩
    | cons p rest =>
      simp only [hp, List.length_append, List.length_cons] at hle
      omega
  | succ m ih =>
    cases hp : i.pending with
    | nil => exact ⟨[], i, .done hp, by simp; omega⟩
    | cons p rest =>
      obtain ⟨j, hj, hread⟩ := hstep hi hp
      obtain ⟨bodies, l, hl, hle⟩ := ih hread (by simp only [List.length_append, List.length_singleton]; omega)
      exact ⟨p :: bodies, l, .read hp hj hl, by simpa using hle⟩

section Replay

variable (hs : Separate c []) (htidy : Tidy c []) (hk : Finished c bodies₁ k)

include hs hk

theorem Full.readBody_succeeds (hi : Full c [] read [] i) (hshared : Shared c k.model i.model seeds)
    (hr : Rooted seeds i) (hp : i.pending = p :: rest) :
    ∃ j, importBody c { i with pending := rest } p = (.ok (), j) := by
  have hR := hk.full.passable hs.unshared hk.pending
  rw [hk.bodies_eq] at hR
  have htracked := tracked_of_twins c hi.coherent (List.subset_append_right _ _) fun q hq =>
    hi.exists_twin hs hk hshared hr (hi.coherent.ready.pending_lt q hq)
  obtain ⟨j, hj, -⟩ := htracked.readBody hR hs.unshared hp
  exact ⟨j, hj⟩

include htidy

/-- No import has more bodies than one that has met what was asked for. -/
theorem Full.length_le (hi : Full c [] read [] i) (hshared : Shared c k.model i.model seeds)
    (hr : Rooted seeds i) : (read ++ [] ++ i.pending).length ≤ bodies₁.length := by
  obtain ⟨seeds₁, hr₁⟩ := hk.rooted
  exact length_le_of_twins (hk.full.distinct hs htidy hr₁) (hi.distinct hs htidy hr) hi.nodup
    fun p hp => hi.exists_twin hs hk hshared hr (hi.lt p hp)

theorem Full.exists_empties (hi : Full c [] read [] i) (hshared : Shared c k.model i.model seeds)
    (hr : Rooted seeds i) :
    ∃ bodies j, Empties c i bodies j ∧ (read ++ bodies).length ≤ bodies₁.length := by
  refine exists_empties_of_invariant (P := fun read i =>
    Full c [] read [] i ∧ Shared c k.model i.model seeds ∧ Rooted seeds i) ?_ ?_ ⟨hi, hshared, hr⟩
  · rintro read i p rest ⟨hi, hshared, hr⟩ hp
    obtain ⟨j, hj⟩ := hi.readBody_succeeds hs hk hshared hr hp
    obtain ⟨hfull, hrooted, hextends, -⟩ := hi.readBody hs.unshared hr hp hj
    exact ⟨j, hj, hfull, hshared.mono hextends, hrooted⟩
  · rintro read i ⟨hi, hshared, hr⟩
    simpa using hi.length_le hs htidy hk hshared hr

end Replay

end Importer

end SchemaCompiler
