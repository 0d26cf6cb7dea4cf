import SchemaCompiler.Proofs.Model.Arena

/-! Following merged types. Every step of a chain of merged types leads to a type that precedes the
one before, so that a chain ends, within its bucket, at a type that stands for itself. -/

namespace SchemaCompiler

theorem countP_lt_countP {α : Type} {p q : α → Bool} {as : List α} (h : ∀ x ∈ as, p x → q x)
    {a : α} (ha : a ∈ as) (hp : p a = false) (hq : q a = true) : as.countP p < as.countP q := by
  induction as with
  | nil => simp at ha
  | cons b as ih =>
    have hle : as.countP p ≤ as.countP q :=
      List.countP_mono_left fun x hx => h x (List.mem_cons_of_mem _ hx)
    rcases List.mem_cons.mp ha with rfl | ha
    · simp only [List.countP_cons, hp, hq]
      simp
      omega
    · have hlt := ih (fun x hx => h x (List.mem_cons_of_mem _ hx)) ha
      have hb := h b List.mem_cons_self
      cases hpb : p b
      · simp only [List.countP_cons, hpb]
        simp
        omega
      · simp only [List.countP_cons, hpb, hb hpb]
        omega

namespace Model

variable {m : Model}

/-- The order in which one of several equal objects is chosen. -/
def precedence (m : Model) : TypeId → TypeId → Ordering :=
  compareLex (compareOn m.fullNameOf) compare

instance : Std.TransCmp m.precedence :=
  inferInstanceAs (Std.TransCmp (compareLex (compareOn m.fullNameOf) compare))

theorem precedes_iff {a b : TypeId} : m.precedes a b = true ↔ m.precedence a b = .lt := by
  simp [precedes, precedence, compareLex, compareOn]

theorem precedence_eq_iff {a b : TypeId} : m.precedence a b = .eq ↔ a = b := by
  constructor
  · intro h
    exact Std.LawfulEqOrd.eq_of_compare (Ordering.then_eq_eq.mp h).2
  · rintro rfl
    exact Std.ReflCmp.compare_self

theorem precedes_irrefl (a : TypeId) : m.precedes a a = false := by
  apply Bool.eq_false_iff.mpr
  rw [Ne, precedes_iff, precedence_eq_iff.mpr rfl]
  exact fun h => nomatch h

theorem precedes_trans {a b c : TypeId} (hab : m.precedes a b = true)
    (hbc : m.precedes b c = true) : m.precedes a c = true :=
  precedes_iff.mpr (Std.TransCmp.lt_trans (precedes_iff.mp hab) (precedes_iff.mp hbc))

theorem precedes_or {a b : TypeId} (hne : a ≠ b) :
    m.precedes a b = true ∨ m.precedes b a = true := by
  cases hc : m.precedence a b with
  | lt => exact .inl (precedes_iff.mpr hc)
  | eq => exact absurd (precedence_eq_iff.mp hc) hne
  | gt => exact .inr (precedes_iff.mpr (Std.OrientedCmp.lt_of_gt hc))

theorem not_precedes_trans {a b c : TypeId} (hab : m.precedes a b = false)
    (hbc : m.precedes b c = false) : m.precedes a c = false := by
  apply Bool.eq_false_iff.mpr
  intro hac
  rcases eq_or_ne b c with rfl | hne
  · simp [hab] at hac
  · have hcb := (precedes_or (m := m) hne).resolve_left (by simp [hbc])
    simp [precedes_trans hac hcb] at hab

/-- How many types precede `id`. -/
def rank (m : Model) (id : TypeId) : Nat :=
  (List.range m.types.size).countP (m.precedes · id)

theorem rank_lt {a b : TypeId} (ha : a < m.types.size) (h : m.precedes a b = true) :
    m.rank a < m.rank b :=
  countP_lt_countP (fun _ _ hx => precedes_trans hx h) (List.mem_range.mpr ha)
    (precedes_irrefl a) h

theorem rank_le (id : TypeId) : m.rank id ≤ m.types.size := by
  simpa [rank] using List.countP_le_length (p := (m.precedes · id)) (l := List.range m.types.size)

theorem follow_succ (n : Nat) (id : TypeId) :
    m.follow (n + 1) id = ((m.mergedInto? id).map (m.follow n)).getD id := by
  rw [follow]
  cases h : m.mergedInto? id <;> rw [mergedInto?] at h <;> rw [h] <;> rfl

theorem follow_of_live {id : TypeId} (h : m.mergedInto? id = none) (n : Nat) :
    m.follow n id = id := by
  cases n with
  | zero => rfl
  | succ n => simp [follow_succ, h]

theorem resolve_of_live {id : TypeId} (h : m.mergedInto? id = none) : m.resolve id = id :=
  follow_of_live h _

theorem WellFormed.rank_lt (h : m.WellFormed) {id r : TypeId} (hr : m.mergedInto? id = some r) :
    m.rank r < m.rank id := by
  obtain ⟨_, _, _, hmem, hp⟩ := h.merged hr
  exact Model.rank_lt (h.lt_size hmem) hp

/-- As many steps as types precede `id` are enough, and more change nothing. -/
theorem WellFormed.follow_eq (h : m.WellFormed) {n k : Nat} {id : TypeId} (hn : m.rank id ≤ n)
    (hk : m.rank id ≤ k) : m.follow n id = m.follow k id := by
  induction n generalizing k id with
  | zero =>
    cases hm : m.mergedInto? id with
    | none => rw [follow_of_live hm, follow_of_live hm]
    | some r =>
      have hlt := h.rank_lt hm
      omega
  | succ n ih =>
    cases hm : m.mergedInto? id with
    | none => rw [follow_of_live hm, follow_of_live hm]
    | some r =>
      have hlt := h.rank_lt hm
      obtain ⟨k, rfl⟩ : ∃ k', k = k' + 1 := ⟨k - 1, by omega⟩
      rw [follow_succ, follow_succ, hm]
      exact ih (by omega) (by omega)

theorem WellFormed.resolve_of_merged (h : m.WellFormed) {id r : TypeId}
    (hr : m.mergedInto? id = some r) : m.resolve id = m.resolve r := by
  have hlt := h.rank_lt hr
  have hle := m.rank_le id
  obtain ⟨n, hn⟩ : ∃ n, m.types.size = n + 1 := ⟨m.types.size - 1, by omega⟩
  rw [resolve, resolve, hn, follow_succ, hr]
  exact h.follow_eq (by omega) (by omega)

/-- What holds of the types that stand for themselves, and of a type that was merged if it holds of
the one it was merged into, holds of every type. -/
theorem WellFormed.induction_on (h : m.WellFormed) {P : TypeId → Prop}
    (live : ∀ id, m.mergedInto? id = none → P id)
    (merged : ∀ id r, m.mergedInto? id = some r → P r → P id) (id : TypeId) : P id := by
  have hall : ∀ n id, m.rank id ≤ n → P id := by
    intro n
    induction n with
    | zero =>
      intro id hn
      cases hm : m.mergedInto? id with
      | none => exact live id hm
      | some r =>
        have hlt := h.rank_lt hm
        omega
    | succ n ih =>
      intro id hn
      cases hm : m.mergedInto? id with
      | none => exact live id hm
      | some r =>
        have hlt := h.rank_lt hm
        exact merged id r hm (ih r (by omega))
  exact hall _ id (Nat.le_refl _)

theorem WellFormed.mergedInto?_resolve (h : m.WellFormed) (id : TypeId) :
    m.mergedInto? (m.resolve id) = none := by
  induction id using h.induction_on with
  | live id hm => rwa [resolve_of_live hm]
  | merged id r hm ih => rwa [h.resolve_of_merged hm]

theorem WellFormed.resolve_resolve (h : m.WellFormed) (id : TypeId) :
    m.resolve (m.resolve id) = m.resolve id :=
  resolve_of_live (h.mergedInto?_resolve id)

theorem WellFormed.resolve_mem (h : m.WellFormed) {key : GroupKey} {short : String} {id : TypeId}
    (hid : id ∈ m.bucket key short) : m.resolve id ∈ m.bucket key short := by
  induction id using h.induction_on with
  | live id hm => rwa [resolve_of_live hm]
  | merged id r hm ih =>
    obtain ⟨key', short', hi, hr, -⟩ := h.merged hm
    obtain rfl : key' = key := Option.some.inj ((h.filed hi).symm.trans (h.filed hid))
    obtain rfl := h.filed_once hi hid
    rw [h.resolve_of_merged hm]
    exact ih hr

theorem WellFormed.groupOf?_resolve (h : m.WellFormed) (id : TypeId) :
    m.groupOf? (m.resolve id) = m.groupOf? id := by
  induction id using h.induction_on with
  | live id hm => rw [resolve_of_live hm]
  | merged id r hm ih =>
    obtain ⟨_, _, hi, hr, -⟩ := h.merged hm
    rw [h.resolve_of_merged hm, ih, h.filed hi, h.filed hr]

theorem WellFormed.named_live (h : m.WellFormed) {key : GroupKey} {name : String} {id : TypeId}
    (hid : m.named? key name = some id) : m.mergedInto? id = none := by
  obtain ⟨t, ht, -, -, -, hm⟩ := h.named hid
  simp [mergedInto?, ht, hm]

theorem WellFormed.not_precedes_resolve (h : m.WellFormed) (id : TypeId) :
    m.precedes id (m.resolve id) = false := by
  induction id using h.induction_on with
  | live id hm => rw [resolve_of_live hm, precedes_irrefl]
  | merged id r hm ih =>
    obtain ⟨_, _, _, _, hp⟩ := h.merged hm
    rw [h.resolve_of_merged hm]
    apply Bool.eq_false_iff.mpr
    intro hpr
    simp [precedes_trans hp hpr] at ih

/-- Where a chain leads depends only on what each type is merged into. -/
theorem resolve_congr {m' : Model} (hsize : m'.types.size = m.types.size)
    (h : ∀ id, m'.mergedInto? id = m.mergedInto? id) (id : TypeId) :
    m'.resolve id = m.resolve id := by
  have hfollow : ∀ n id, m'.follow n id = m.follow n id := by
    intro n
    induction n with
    | zero => exact fun _ => rfl
    | succ n ih =>
      intro id
      rw [follow_succ, follow_succ, h, funext ih]
  rw [resolve, resolve, hsize, hfollow]

end Model

end SchemaCompiler
