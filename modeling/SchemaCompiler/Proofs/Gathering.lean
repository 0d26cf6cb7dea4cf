import Mathlib.Data.List.Perm.Basic

/-! Reading what stands at many places, one after the other, until something cannot be read. A place is
known by the numbers of the items on the way to it, and comes before another one in the order of these. -/

namespace SchemaCompiler

section Places

variable {α β : Type} {P : List Nat → β → Prop} {L L' : List (List Nat × β)}

/-- What is at the places of something, in their order. -/
structure Listing (P : List Nat → β → Prop) (L : List (List Nat × β)) : Prop where
  sorted : L.Pairwise fun a b => a.1 < b.1
  mem_iff : ∀ p b, (p, b) ∈ L ↔ P p b

theorem Listing.nil (h : ∀ p b, ¬P p b) : Listing P [] where
  sorted := .nil
  mem_iff p b := by simp [h]

theorem Listing.single (b : β) : Listing (fun p b' => p = [] ∧ b' = b) [([], b)] where
  sorted := List.pairwise_singleton _ _
  mem_iff p b' := by simp

theorem Listing.congr {Q : List Nat → β → Prop} (h : Listing P L) (hsame : ∀ p b, P p b ↔ Q p b) :
    Listing Q L where
  sorted := h.sorted
  mem_iff p b := (h.mem_iff p b).trans (hsame p b)

theorem Listing.unique (h : Listing P L) (h' : Listing P L') : L = L' := by
  have hnodup : ∀ {L : List (List Nat × β)}, L.Pairwise (fun a b => a.1 < b.1) → L.Nodup := by
    intro L hsorted
    refine hsorted.imp fun {a b} hlt heq => ?_
    rw [heq] at hlt
    exact List.lt_irrefl _ hlt
  have hperm : L.Perm L' := by
    refine (List.perm_ext_iff_of_nodup (hnodup h.sorted) (hnodup h'.sorted)).mpr fun ⟨p, b⟩ => ?_
    rw [h.mem_iff, h'.mem_iff]
  exact hperm.eq_of_pairwise (fun a b _ _ hab hba => absurd hba (List.lt_asymm hab)) h.sorted h'.sorted

/-- The places in the items of a list, of which the first has the number `n`. -/
def Among (n : Nat) (xs : List α) (P : α → List Nat → β → Prop) (p : List Nat) (b : β) : Prop :=
  ∃ i x q, xs[i]? = some x ∧ p = (n + i) :: q ∧ P x q b

theorem among_cons {n : Nat} {x : α} {xs : List α} {P : α → List Nat → β → Prop} {p : List Nat}
    {b : β} : Among n (x :: xs) P p b ↔ (∃ q, p = n :: q ∧ P x q b) ∨ Among (n + 1) xs P p b := by
  constructor
  · rintro ⟨_ | i, y, q, hi, rfl, hq⟩
    · obtain rfl := Option.some.inj hi
      exact .inl ⟨q, rfl, hq⟩
    · exact .inr ⟨i, y, q, hi, by rw [Nat.add_right_comm, Nat.add_assoc], hq⟩
  · rintro (⟨q, rfl, hq⟩ | ⟨i, y, q, hi, rfl, hq⟩)
    · exact ⟨0, x, q, rfl, rfl, hq⟩
    · exact ⟨i + 1, y, q, hi, by rw [Nat.add_right_comm, Nat.add_assoc], hq⟩

/-- The places in a first item, and then those in the others. -/
theorem Listing.cons {n : Nat} {x : α} {xs : List α} {P : α → List Nat → β → Prop}
    (h : Listing (P x) L) (h' : Listing (Among (n + 1) xs P) L') :
    Listing (Among n (x :: xs) P) (L.map (Prod.map (n :: ·) id) ++ L') where
  sorted := by
    refine List.pairwise_append.mpr ⟨List.pairwise_map.mpr (h.sorted.imp ?_), h'.sorted, ?_⟩
    · exact fun hlt => List.cons_lt_cons_iff.mpr (.inr ⟨rfl, hlt⟩)
    · rintro a ha ⟨p, b⟩ hb
      obtain ⟨⟨q, c⟩, -, rfl⟩ := List.mem_map.mp ha
      obtain ⟨i, y, r, -, rfl, -⟩ := (h'.mem_iff p b).mp hb
      exact List.cons_lt_cons_iff.mpr (.inl (by omega))
  mem_iff p b := by
    rw [among_cons, List.mem_append, h'.mem_iff, List.mem_map]
    refine or_congr_left ⟨?_, ?_⟩
    · rintro ⟨⟨q, c⟩, hq, heq⟩
      obtain ⟨rfl, rfl⟩ := Prod.mk.inj heq
      exact ⟨q, rfl, (h.mem_iff q c).mp hq⟩
    · rintro ⟨q, rfl, hq⟩
      exact ⟨(q, b), (h.mem_iff q b).mpr hq, rfl⟩

end Places

/-! The outcome of reading, which is all that was read, or else the first failure. -/

section Gathering

variable {α β ε : Type} {P : List Nat → Except ε α → Prop} {outcome : Except ε (List α)}

theorem mapM_eq_ok_iff {f : β → Except ε α} {bs : List β} {as : List α} :
    bs.mapM f = .ok as ↔ bs.map f = as.map Except.ok := by
  induction bs generalizing as with
  | nil => cases as <;> simp [pure, Except.pure]
  | cons b bs ih =>
    rw [List.mapM_cons, List.map_cons]
    cases hb : f b with
    | error e => cases as <;> simp [bind, Except.bind]
    | ok a =>
      have hrest : (bs.mapM f >>= fun rest => pure (a :: rest)) = .ok as ↔
          ∃ rest, bs.mapM f = .ok rest ∧ a :: rest = as := by
        cases bs.mapM f <;> simp [bind, Except.bind, pure, Except.pure]
      refine hrest.trans ?_
      simp only [ih]
      cases as <;> simp [and_comm]

/-- A run over a list fails with the first failure. -/
theorem mapM_eq_error_iff {f : β → Except ε α} {bs : List β} {e : ε} :
    bs.mapM f = .error e ↔ ∃ before b after, bs = before ++ b :: after ∧ f b = .error e ∧
      ∀ b' ∈ before, ∃ a, f b' = .ok a := by
  induction bs with
  | nil => simp [pure, Except.pure]
  | cons b bs ih =>
    rw [List.mapM_cons]
    constructor
    · intro h
      cases hb : f b with
      | error e' =>
        rw [hb] at h
        cases h
        exact ⟨[], b, bs, rfl, hb, by simp⟩
      | ok a =>
        have hbs : bs.mapM f = .error e := by
          rw [hb] at h
          cases hbs : bs.mapM f with
          | error e' => simpa [bind, Except.bind, hbs] using h
          | ok rest => simp [bind, Except.bind, pure, Except.pure, hbs] at h
        obtain ⟨before, b', after, rfl, hb', hbefore⟩ := ih.mp hbs
        exact ⟨b :: before, b', after, rfl, hb', List.forall_mem_cons.mpr ⟨⟨a, hb⟩, hbefore⟩⟩
    · rintro ⟨_ | ⟨c, before⟩, b', after, heq, hb', hbefore⟩
      · obtain ⟨rfl, -⟩ := List.cons.inj heq
        rw [hb']
        rfl
      · obtain ⟨rfl, rfl⟩ := List.cons.inj heq
        obtain ⟨⟨a, ha⟩, hbefore⟩ := List.forall_mem_cons.mp hbefore
        rw [ha, ih.mpr ⟨before, b', after, rfl, hb', hbefore⟩]
        rfl

/-- The outcome of reading what is at the places one after the other. -/
def Gathers (P : List Nat → Except ε α → Prop) (outcome : Except ε (List α)) : Prop :=
  ∃ L, Listing P L ∧ L.mapM Prod.snd = outcome

theorem Gathers.single (o : Except ε α) : Gathers (fun p o' => p = [] ∧ o' = o) (o.map ([·])) := by
  refine ⟨_, .single o, ?_⟩
  cases o <;> rfl

theorem Gathers.congr {Q : List Nat → Except ε α → Prop} (h : Gathers P outcome)
    (hsame : ∀ p o, P p o ↔ Q p o) : Gathers Q outcome := by
  obtain ⟨L, hL, hread⟩ := h
  exact ⟨L, hL.congr hsame, hread⟩

theorem gathers_among {n : Nat} {xs : List β} {P : β → List Nat → Except ε α → Prop}
    {f : β → Except ε (List α)} (h : ∀ x ∈ xs, Gathers (P x) (f x)) :
    Gathers (Among n xs P) (List.flatten <$> xs.mapM f) := by
  induction xs generalizing n with
  | nil =>
    refine ⟨[], .nil ?_, rfl⟩
    rintro p o ⟨i, x, q, hi, -⟩
    cases hi
  | cons x xs ih =>
    obtain ⟨L, hL, hread⟩ := h x List.mem_cons_self
    obtain ⟨L', hL', hread'⟩ := ih (n := n + 1) fun x hx => h x (List.mem_cons_of_mem _ hx)
    refine ⟨_, hL.cons hL', ?_⟩
    have hmap : (L.map (Prod.map (n :: ·) id)).mapM Prod.snd = L.mapM Prod.snd := by
      rw [List.mapM_map]
      rfl
    rw [List.mapM_append, hmap, hread, hread', List.mapM_cons]
    simp

theorem gathers_items {xs : List β} {P : β → List Nat → Except ε α → Prop}
    {f : β → Except ε (List α)} (h : ∀ x ∈ xs, Gathers (P x) (f x)) :
    Gathers (fun p o => ∃ i x q, xs[i]? = some x ∧ p = i :: q ∧ P x q o)
      (List.flatten <$> xs.mapM f) := by
  refine (gathers_among (n := 0) h).congr fun p o => ?_
  simp only [Among, Nat.zero_add]

theorem mem_map_ok {found : List (List Nat × α)} {p : List Nat} {o : Except ε α} :
    (p, o) ∈ found.map (Prod.map id .ok) ↔ ∃ a, (p, a) ∈ found ∧ o = .ok a := by
  rw [List.mem_map]
  constructor
  · rintro ⟨⟨q, a⟩, ha, heq⟩
    obtain ⟨rfl, rfl⟩ := Prod.mk.inj heq
    exact ⟨a, ha, rfl⟩
  · rintro ⟨a, ha, rfl⟩
    exact ⟨(p, a), ha, rfl⟩

/-- If everything can be read, the outcome is what is read, in order. -/
theorem Gathers.ok_iff (h : Gathers P outcome) {as : List α} : outcome = .ok as ↔
    ∃ found : List (List Nat × α), found.Pairwise (fun a b => a.1 < b.1) ∧
      (∀ p o, P p o ↔ ∃ a, (p, a) ∈ found ∧ o = .ok a) ∧ found.map Prod.snd = as := by
  obtain ⟨L, hL, rfl⟩ := h
  rw [mapM_eq_ok_iff]
  constructor
  · intro hall
    have hlength : L.length = as.length := by simpa using congrArg List.length hall
    obtain ⟨found, rfl, hfound⟩ : ∃ found : List (List Nat × α),
        L = found.map (Prod.map id .ok) ∧ found.map Prod.snd = as := by
      refine ⟨(L.map Prod.fst).zip as, ?_, List.map_snd_zip (by simp [hlength])⟩
      have hzip := List.zip_unzip L
      rw [List.unzip_eq_map, hall, List.zip_map_right] at hzip
      exact hzip.symm
    have hsorted := hL.sorted
    rw [List.pairwise_map] at hsorted
    refine ⟨found, hsorted, fun p o => ?_, hfound⟩
    rw [← hL.mem_iff, mem_map_ok]
  · rintro ⟨found, hsorted, hmem, rfl⟩
    have hfound : Listing P (found.map (Prod.map id .ok)) :=
      ⟨List.pairwise_map.mpr hsorted, fun p o => mem_map_ok.trans (hmem p o).symm⟩
    rw [hL.unique hfound, List.map_map, List.map_map]
    rfl

/-- If something cannot be read, the outcome is the first failure. -/
theorem Gathers.error_iff (h : Gathers P outcome) {e : ε} : outcome = .error e ↔
    ∃ p, P p (.error e) ∧ ∀ q o, q < p → P q o → ∃ a, o = .ok a := by
  obtain ⟨L, hL, rfl⟩ := h
  rw [mapM_eq_error_iff]
  constructor
  · rintro ⟨before, ⟨p, o⟩, after, rfl, rfl, hbefore⟩
    refine ⟨p, (hL.mem_iff p _).mp (by simp), fun q o hlt ho => ?_⟩
    obtain ⟨-, hrest, -⟩ := List.pairwise_append.mp hL.sorted
    rcases List.mem_append.mp ((hL.mem_iff q o).mpr ho) with hq | hq
    · exact hbefore _ hq
    · rcases List.mem_cons.mp hq with heq | hq
      · obtain ⟨rfl, -⟩ := Prod.mk.inj heq
        exact absurd hlt (List.lt_irrefl _)
      · exact absurd hlt (List.lt_asymm ((List.pairwise_cons.mp hrest).1 _ hq))
  · rintro ⟨p, hp, hall⟩
    obtain ⟨before, after, rfl⟩ := List.append_of_mem ((hL.mem_iff p _).mpr hp)
    refine ⟨before, _, after, rfl, rfl, fun ⟨q, o⟩ hq => ?_⟩
    have hlt : q < p := (List.pairwise_append.mp hL.sorted).2.2 _ hq _ List.mem_cons_self
    exact hall q o hlt ((hL.mem_iff q o).mp (List.mem_append_left _ hq))

end Gathering

end SchemaCompiler
