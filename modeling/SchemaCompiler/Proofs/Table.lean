import Mathlib.Data.List.Forall2
import SchemaCompiler.Model.Basic

/-! Looking up what was written into a table, and the order of its keys. The laws of lookup need no
order; that a table has one entry for each key does. -/

namespace SchemaCompiler

theorem optionOrder_eq_compare (a b : Option String) : optionOrder a b = compare a b := by
  cases a <;> cases b <;> rfl

theorem GroupKey.compare_eq_compareLex :
    (compare : GroupKey → GroupKey → Ordering) =
      compareLex (compareOn GroupKey.group) (compareOn GroupKey.version) := by
  funext a b
  change (compare a.group b.group).then (optionOrder a.version b.version) = _
  rw [optionOrder_eq_compare]
  rfl

instance : Std.TransOrd GroupKey := by
  rw [Std.TransOrd, GroupKey.compare_eq_compareLex]
  infer_instance

instance : Std.LawfulEqOrd GroupKey where
  compare_self := by
    intro a
    rw [GroupKey.compare_eq_compareLex]
    exact Std.ReflCmp.compare_self
  eq_of_compare := by
    intro a b h
    rw [GroupKey.compare_eq_compareLex] at h
    obtain ⟨hg, hv⟩ := Ordering.then_eq_eq.mp h
    cases a
    cases b
    simp_all [compareOn]

theorem ne_of_compare_lt {α : Type} [Ord α] [Std.LawfulEqOrd α] {a b : α}
    (h : compare a b = .lt) : a ≠ b := by
  rintro rfl
  have hself : compare a a = .eq := Std.ReflCmp.compare_self
  rw [hself] at h
  cases h

/-- An increasing list is known by its members. -/
theorem eq_of_increasing {α : Type} [Ord α] [Std.LawfulEqOrd α] [Std.TransOrd α] {as bs : List α}
    (has : as.Pairwise fun a b => compare a b = .lt) (hbs : bs.Pairwise fun a b => compare a b = .lt)
    (hmem : ∀ a, a ∈ as ↔ a ∈ bs) : as = bs := by
  refine List.Perm.eq_of_pairwise (fun a b _ _ hab hba => ?_) has hbs ?_
  · have hgt : compare a b = .gt := Std.OrientedCmp.gt_of_lt hba
    rw [hab] at hgt
    cases hgt
  · exact (List.perm_ext_iff_of_nodup (has.imp ne_of_compare_lt) (hbs.imp ne_of_compare_lt)).mpr hmem

section Sorting

variable {α : Type} (cmp : α → α → Ordering) [Std.TransCmp cmp]

omit [Std.TransCmp cmp] in
theorem ne_gt_iff (a b : α) : (cmp a b != .gt) = true ↔ (cmp a b).isLE = true := by
  rw [bne_iff_ne, Ordering.isLE_iff_ne_gt]

theorem ne_gt_trans (a b c : α) (hab : (cmp a b != .gt) = true) (hbc : (cmp b c != .gt) = true) :
    (cmp a c != .gt) = true := by
  rw [ne_gt_iff] at *
  exact Std.TransCmp.isLE_trans hab hbc

theorem ne_gt_total (a b : α) : (cmp a b != .gt || cmp b a != .gt) = true := by
  have hswap : cmp b a = (cmp a b).swap := Std.OrientedCmp.eq_swap
  rw [hswap]
  cases cmp a b <;> rfl

theorem pairwise_sorted (as : List α) :
    (as.mergeSort fun a b => cmp a b != .gt).Pairwise fun a b => (cmp a b != .gt) = true :=
  List.pairwise_mergeSort (ne_gt_trans cmp) (ne_gt_total cmp) as

end Sorting

namespace Table

variable {κ ν : Type} [Ord κ]

/-- The keys increase, so that there is one entry for each. -/
def Ordered (t : Table κ ν) : Prop :=
  t.Pairwise fun a b => compare a.1 b.1 = .lt

theorem get?_cons (k k' : κ) (v : ν) (t : Table κ ν) :
    get? k ((k', v) :: t) = if compare k k' == .eq then some v else get? k t := rfl

theorem mem_insert {k : κ} {v : ν} {e : κ × ν} {t : Table κ ν} (h : e ∈ insert k v t) :
    e = (k, v) ∨ e ∈ t := by
  induction t with
  | nil => simpa [insert] using h
  | cons e' t ih =>
    obtain ⟨k', v'⟩ := e'
    cases hc : compare k k' with
    | lt => simpa [insert, hc] using h
    | eq =>
      simp only [insert, hc, List.mem_cons] at h
      rcases h with rfl | h
      · exact .inl rfl
      · exact .inr (List.mem_cons_of_mem _ h)
    | gt =>
      simp only [insert, hc, List.mem_cons] at h
      rcases h with rfl | h
      · exact .inr List.mem_cons_self
      · exact (ih h).imp id (List.mem_cons_of_mem _)

section Lookup

variable [Std.LawfulEqOrd κ]

theorem mem_of_get? {k : κ} {v : ν} {t : Table κ ν} (h : get? k t = some v) : (k, v) ∈ t := by
  induction t with
  | nil => simp [get?] at h
  | cons e t ih =>
    obtain ⟨k', v'⟩ := e
    rw [get?_cons] at h
    by_cases hk : compare k k' = .eq
    · have hkk := Std.LawfulEqOrd.eq_of_compare hk
      simp_all
    · simp only [hk, beq_iff_eq, if_false] at h
      exact List.mem_cons_of_mem _ (ih h)

theorem get?_insert_self (k : κ) (v : ν) (t : Table κ ν) : get? k (insert k v t) = some v := by
  induction t with
  | nil => simp [insert, get?]
  | cons e t ih =>
    obtain ⟨k', v'⟩ := e
    cases hc : compare k k' with
    | lt => simp [insert, hc, get?]
    | eq => simp [insert, hc, get?]
    | gt => simp [insert, hc, get?, ih]

theorem get?_insert_of_ne {k k' : κ} (hne : k' ≠ k) (v : ν) (t : Table κ ν) :
    get? k' (insert k v t) = get? k' t := by
  have hno : compare k' k ≠ .eq := fun h => hne (Std.LawfulEqOrd.eq_of_compare h)
  induction t with
  | nil => simp [insert, get?, hno]
  | cons e t ih =>
    obtain ⟨l, w⟩ := e
    cases hc : compare k l with
    | lt => simp [insert, hc, get?, hno]
    | eq =>
      have hkl := Std.LawfulEqOrd.eq_of_compare hc
      subst hkl
      simp [insert, get?, hno]
    | gt => simp [insert, hc, get?, ih]

theorem get?_insert [DecidableEq κ] (k k' : κ) (v : ν) (t : Table κ ν) :
    get? k' (insert k v t) = if k' = k then some v else get? k' t := by
  by_cases h : k' = k
  · subst h
    simp [get?_insert_self]
  · simp [h, get?_insert_of_ne h]

theorem get?_alter [DecidableEq κ] (k k' : κ) (new : ν) (f : ν → ν) (t : Table κ ν) :
    get? k' (alter k new f t) = if k' = k then some (f ((get? k t).getD new)) else get? k' t :=
  get?_insert k k' _ t

end Lookup

section Order

variable [Std.LawfulEqOrd κ]

theorem Ordered.insert [Std.TransOrd κ] {k : κ} {v : ν} {t : Table κ ν} (h : t.Ordered) :
    (Table.insert k v t).Ordered := by
  induction t with
  | nil => exact List.pairwise_singleton _ _
  | cons e t ih =>
    obtain ⟨k', v'⟩ := e
    obtain ⟨hhead, htail⟩ := List.pairwise_cons.mp h
    cases hc : compare k k' with
    | lt =>
      simp only [Table.insert, hc]
      refine List.pairwise_cons.mpr ⟨?_, h⟩
      intro e he
      rcases List.mem_cons.mp he with rfl | he
      · exact hc
      · exact Std.TransCmp.lt_trans hc (hhead e he)
    | eq =>
      have hk := Std.LawfulEqOrd.eq_of_compare hc
      subst hk
      simp only [Table.insert, hc]
      exact List.pairwise_cons.mpr ⟨hhead, htail⟩
    | gt =>
      simp only [Table.insert, hc]
      refine List.pairwise_cons.mpr ⟨?_, ih htail⟩
      intro e he
      rcases mem_insert he with rfl | he
      · exact Std.OrientedCmp.lt_of_gt hc
      · exact hhead e he

theorem Ordered.alter [Std.TransOrd κ] {k : κ} {new : ν} {f : ν → ν} {t : Table κ ν} (h : t.Ordered) :
    (Table.alter k new f t).Ordered :=
  h.insert

theorem Ordered.get?_of_mem {k : κ} {v : ν} {t : Table κ ν} (h : t.Ordered) (hm : (k, v) ∈ t) :
    get? k t = some v := by
  induction t with
  | nil => simp at hm
  | cons e t ih =>
    obtain ⟨k', v'⟩ := e
    obtain ⟨hhead, htail⟩ := List.pairwise_cons.mp h
    rcases List.mem_cons.mp hm with he | hm
    · obtain ⟨rfl, rfl⟩ := Prod.mk.inj he
      simp [get?]
    · have hne : compare k k' ≠ .eq := fun he =>
        ne_of_compare_lt (hhead _ hm) (Std.LawfulEqOrd.eq_of_compare he).symm
      simp [get?, hne, ih htail hm]

theorem Ordered.get?_eq_some_iff {k : κ} {v : ν} {t : Table κ ν} (h : t.Ordered) :
    get? k t = some v ↔ (k, v) ∈ t :=
  ⟨mem_of_get?, h.get?_of_mem⟩

theorem Ordered.mem_values {v : ν} {t : Table κ ν} (h : t.Ordered) :
    v ∈ values t ↔ ∃ k, get? k t = some v := by
  simp [values, h.get?_eq_some_iff]

theorem Ordered.mem_keys {k : κ} {t : Table κ ν} (h : t.Ordered) :
    k ∈ keys t ↔ ∃ v, get? k t = some v := by
  simp [keys, h.get?_eq_some_iff]

/-- A table is known by its lookups. -/
theorem Ordered.ext [Std.TransOrd κ] {t t' : Table κ ν} (h : t.Ordered) (h' : t'.Ordered)
    (hget : ∀ k, get? k t = get? k t') : t = t' := by
  have hnodup : ∀ {t : Table κ ν}, t.Ordered → t.Nodup := fun ht =>
    ht.imp fun hlt he => ne_of_compare_lt hlt (congrArg Prod.fst he)
  have hperm : t.Perm t' := by
    refine (List.perm_ext_iff_of_nodup (hnodup h) (hnodup h')).mpr ?_
    rintro ⟨k, v⟩
    rw [← h.get?_eq_some_iff, hget, h'.get?_eq_some_iff]
  refine List.Perm.eq_of_pairwise (fun a b _ hb hab hba => ?_) h h' hperm
  have hswap : compare b.1 a.1 = (compare a.1 b.1).swap := Std.OrientedCmp.eq_swap
  rw [hab, hba] at hswap
  cases hswap

omit [Std.LawfulEqOrd κ] in
theorem get?_map {μ : Type} (F : ν → μ) (k : κ) (t : Table κ ν) :
    get? k (t.map fun e => (e.1, F e.2)) = (get? k t).map F := by
  induction t with
  | nil => rfl
  | cons e t ih =>
    obtain ⟨k', v⟩ := e
    rw [List.map_cons, get?_cons, get?_cons]
    split
    · rfl
    · exact ih

/-- What a table leaves under a key if each of its entries acts on its own key alone. -/
theorem Ordered.get?_foldl [DecidableEq κ] {μ : Type} {step : Table κ μ → κ × ν → Table κ μ}
    {f : ν → Option μ → Option μ}
    (hstep : ∀ s e k, get? k (step s e) = if k = e.1 then f e.2 (get? k s) else get? k s)
    {t : Table κ ν} (h : t.Ordered) (s : Table κ μ) (k : κ) :
    get? k (t.foldl step s) = match get? k t with
      | some v => f v (get? k s)
      | none => get? k s := by
  induction t generalizing s with
  | nil => rfl
  | cons e t ih =>
    obtain ⟨k', v⟩ := e
    obtain ⟨hhead, htail⟩ := List.pairwise_cons.mp h
    rw [List.foldl_cons, ih htail, hstep, get?_cons]
    by_cases hk : k = k'
    · subst hk
      have hnone : get? k t = none := by
        rw [Option.eq_none_iff_forall_ne_some]
        intro w hw
        exact ne_of_compare_lt (hhead _ (mem_of_get? hw)) rfl
      simp [hnone]
    · have hne : compare k k' ≠ .eq := fun h => hk (Std.LawfulEqOrd.eq_of_compare h)
      simp [hk, hne]

/-- What stands before an entry are the entries with smaller keys. -/
theorem Ordered.mem_before_iff [Std.TransOrd κ] {before after : Table κ ν} {k : κ} {v : ν} {e : κ × ν}
    (h : Ordered (before ++ (k, v) :: after)) :
    e ∈ before ↔ e ∈ before ++ (k, v) :: after ∧ compare e.1 k = .lt := by
  obtain ⟨-, hrest, hacross⟩ := List.pairwise_append.mp h
  constructor
  · intro he
    exact ⟨List.mem_append_left _ he, hacross e he _ List.mem_cons_self⟩
  · rintro ⟨he, hlt⟩
    rcases List.mem_append.mp he with he | he
    · exact he
    · rcases List.mem_cons.mp he with rfl | he
      · exact absurd rfl (ne_of_compare_lt hlt)
      · have hgt := Std.OrientedCmp.gt_of_lt ((List.pairwise_cons.mp hrest).1 e he)
        rw [hlt] at hgt
        cases hgt

theorem Ordered.nodup_keys {t : Table κ ν} (h : t.Ordered) : (keys t).Nodup :=
  List.pairwise_map.mpr (h.imp ne_of_compare_lt)

end Order

section Alike

variable {μ : Type} {R : ν → μ → Prop} {t : Table κ ν} {t' : Table κ μ}

/-- Tables with the same keys and values that `R` relates. -/
def Alike (R : ν → μ → Prop) (t : Table κ ν) (t' : Table κ μ) : Prop :=
  List.Forall₂ (fun e e' => e'.1 = e.1 ∧ R e.2 e'.2) t t'

omit [Ord κ] in
theorem Alike.keys_eq (h : Alike R t t') : keys t' = keys t := by
  induction h with
  | nil => rfl
  | cons he _ ih => simp only [keys, List.map_cons, he.1] at ih ⊢; rw [ih]

omit [Ord κ] in
theorem Alike.entries (h : Alike R t t') :
    List.Forall₂ (fun e e' => e ∈ t ∧ e' ∈ t' ∧ e'.1 = e.1 ∧ R e.2 e'.2) t t' := by
  induction h with
  | nil => exact .nil
  | cons he _ ih =>
    refine .cons ⟨List.mem_cons_self, List.mem_cons_self, he⟩ (ih.imp fun e e' hee' => ?_)
    exact ⟨List.mem_cons_of_mem _ hee'.1, List.mem_cons_of_mem _ hee'.2.1, hee'.2.2⟩

theorem Ordered.alike [Std.LawfulEqOrd κ] [Std.TransOrd κ] (h : t.Ordered) (h' : t'.Ordered)
    (hkeys : ∀ k, (∃ v, get? k t = some v) ↔ ∃ v, get? k t' = some v)
    (hR : ∀ k v v', get? k t = some v → get? k t' = some v' → R v v') : Alike R t t' := by
  have hsame : keys t = keys t' := by
    refine eq_of_increasing (List.pairwise_map.mpr h) (List.pairwise_map.mpr h') fun k => ?_
    rw [h.mem_keys, h'.mem_keys, hkeys]
  have halike : Alike (fun _ _ => True) t t' := by
    have hfirst : List.Forall₂ Eq (keys t) (keys t') := by
      rw [hsame]
      exact List.forall₂_refl _
    rw [keys, keys, List.forall₂_map_left_iff, List.forall₂_map_right_iff] at hfirst
    exact hfirst.imp fun e e' he => ⟨he.symm, trivial⟩
  refine halike.entries.imp fun e e' hee' => ?_
  obtain ⟨he, he', hkey, -⟩ := hee'
  refine ⟨hkey, hR e.1 e.2 e'.2 (h.get?_of_mem he) ?_⟩
  rw [← hkey]
  exact h'.get?_of_mem he'

theorem Alike.get?_eq_none (h : Alike R t t') {k : κ} (hk : get? k t = none) :
    get? k t' = none := by
  induction h with
  | nil => rfl
  | @cons e e' t t' he _ ih =>
    obtain ⟨k₁, v⟩ := e
    obtain ⟨k₂, v'⟩ := e'
    obtain rfl : k₂ = k₁ := he.1
    rw [get?_cons] at hk ⊢
    split at hk
    · cases hk
    · next hne => rw [if_neg hne, ih hk]

theorem Alike.get?_eq_some (h : Alike R t t') {k : κ} {v : ν} (hk : get? k t = some v) :
    ∃ v', get? k t' = some v' ∧ R v v' := by
  induction h with
  | nil => cases hk
  | @cons e e' t t' he _ ih =>
    obtain ⟨k₁, v₁⟩ := e
    obtain ⟨k₂, v₂⟩ := e'
    obtain rfl : k₂ = k₁ := he.1
    rw [get?_cons] at hk ⊢
    split at hk
    · next hc =>
      obtain rfl := Option.some.inj hk
      exact ⟨v₂, if_pos hc, he.2⟩
    · next hc =>
      rw [if_neg hc]
      exact ih hk

theorem Alike.insert (h : Alike R t t') (k : κ) {v : ν} {v' : μ} (hv : R v v') :
    Alike R (Table.insert k v t) (Table.insert k v' t') := by
  induction h with
  | nil => exact .cons ⟨rfl, hv⟩ .nil
  | @cons e e' t t' he ht ih =>
    obtain ⟨k₁, v₁⟩ := e
    obtain ⟨k₂, v₂⟩ := e'
    obtain rfl : k₂ = k₁ := he.1
    cases hc : compare k k₂ with
    | lt => simpa only [Alike, Table.insert, hc] using .cons ⟨rfl, hv⟩ (.cons he ht)
    | eq => simpa only [Alike, Table.insert, hc] using .cons ⟨rfl, hv⟩ ht
    | gt => simpa only [Alike, Table.insert, hc] using .cons he ih

end Alike

section Entries

theorem insert_append [Std.OrientedOrd κ] {k : κ} {v : ν} {t : Table κ ν}
    (h : ∀ e ∈ t, compare e.1 k = .lt) : insert k v t = t ++ [(k, v)] := by
  induction t with
  | nil => rfl
  | cons e t ih =>
    obtain ⟨k', v'⟩ := e
    have hgt : compare k k' = .gt := Std.OrientedCmp.gt_of_lt (h _ List.mem_cons_self)
    simp [insert, hgt, ih fun e he => h e (List.mem_cons_of_mem _ he)]

/-- A table is what its entries make. -/
theorem ofEntries_of_ordered [Std.OrientedOrd κ] {t : Table κ ν} (h : t.Ordered) : ofEntries t = t := by
  have hfold : ∀ (es t : Table κ ν), (t ++ es).Ordered →
      es.foldl (fun t e => Table.insert e.1 e.2 t) t = t ++ es := by
    intro es
    induction es with
    | nil => simp
    | cons e es ih =>
      intro t ht
      have hlast : ∀ x ∈ t, compare x.1 e.1 = .lt := fun x hx =>
        (List.pairwise_append.mp ht).2.2 x hx e List.mem_cons_self
      rw [List.foldl_cons, insert_append hlast, ih _ (by simpa using ht), List.append_assoc,
        List.singleton_append]
  simpa [ofEntries] using hfold t [] h

theorem ordered_ofEntries [Std.LawfulEqOrd κ] [Std.TransOrd κ] (entries : List (κ × ν)) :
    (ofEntries entries).Ordered := by
  have hfold : ∀ (es : List (κ × ν)) (t : Table κ ν), t.Ordered →
      Ordered (es.foldl (fun t e => Table.insert e.1 e.2 t) t) := by
    intro es
    induction es with
    | nil => exact fun t ht => ht
    | cons e es ih => exact fun t ht => ih _ ht.insert
  exact hfold entries [] List.Pairwise.nil

theorem mem_ofEntries {entries : List (κ × ν)} {e : κ × ν} (h : e ∈ ofEntries entries) :
    e ∈ entries := by
  have hfold : ∀ (es : List (κ × ν)) (t : Table κ ν),
      e ∈ es.foldl (fun t e => Table.insert e.1 e.2 t) t → e ∈ es ∨ e ∈ t := by
    intro es
    induction es with
    | nil => exact fun t h => .inr h
    | cons x es ih =>
      intro t h
      rcases ih _ h with h | h
      · exact .inl (List.mem_cons_of_mem _ h)
      · rcases mem_insert h with rfl | h
        · exact .inl List.mem_cons_self
        · exact .inr h
  simpa using hfold entries [] h

end Entries

end Table

section Sets

variable {α : Type} [Ord α] [Std.LawfulEqOrd α]

theorem mem_insertOnce {a b : α} {s : List α} : b ∈ insertOnce a s ↔ b = a ∨ b ∈ s := by
  induction s with
  | nil => simp [insertOnce]
  | cons c s ih =>
    cases hc : compare a c with
    | lt => simp [insertOnce, hc]
    | eq =>
      have hac := Std.LawfulEqOrd.eq_of_compare hc
      subst hac
      simp [insertOnce]
    | gt =>
      simp only [insertOnce, hc, List.mem_cons, ih]
      exact or_left_comm

theorem mem_setOf {b : α} {as : List α} : b ∈ setOf as ↔ b ∈ as := by
  have hfold : ∀ s : List α, b ∈ as.foldl (fun s a => insertOnce a s) s ↔ b ∈ as ∨ b ∈ s := by
    induction as with
    | nil => simp
    | cons a as ih =>
      intro s
      rw [List.foldl_cons, ih, mem_insertOnce, List.mem_cons, or_left_comm, or_assoc]
  simpa [setOf] using hfold []

theorem insertOnce_ordered [Std.TransOrd α] {a : α} {s : List α}
    (h : s.Pairwise fun x y => compare x y = .lt) :
    (insertOnce a s).Pairwise fun x y => compare x y = .lt := by
  induction s with
  | nil => exact List.pairwise_singleton _ _
  | cons b s ih =>
    obtain ⟨hhead, htail⟩ := List.pairwise_cons.mp h
    cases hc : compare a b with
    | lt =>
      simp only [insertOnce, hc]
      refine List.pairwise_cons.mpr ⟨?_, h⟩
      intro x hx
      rcases List.mem_cons.mp hx with rfl | hx
      · exact hc
      · exact Std.TransCmp.lt_trans hc (hhead x hx)
    | eq => simpa only [insertOnce, hc] using h
    | gt =>
      simp only [insertOnce, hc]
      refine List.pairwise_cons.mpr ⟨?_, ih htail⟩
      intro x hx
      rcases mem_insertOnce.mp hx with rfl | hx
      · exact Std.OrientedCmp.lt_of_gt hc
      · exact hhead x hx

theorem setOf_ordered [Std.TransOrd α] (as : List α) :
    (setOf as).Pairwise fun x y => compare x y = .lt := by
  have hfold : ∀ s : List α, s.Pairwise (fun x y => compare x y = .lt) →
      (as.foldl (fun s a => insertOnce a s) s).Pairwise (fun x y => compare x y = .lt) := by
    induction as with
    | nil => exact fun _ h => h
    | cons a as ih => exact fun s h => ih _ (insertOnce_ordered h)
  exact hfold [] List.Pairwise.nil

theorem nodup_setOf [Std.TransOrd α] (as : List α) : (setOf as).Nodup :=
  (setOf_ordered as).imp ne_of_compare_lt

theorem setOf_congr [Std.TransOrd α] {as bs : List α} (h : ∀ a, a ∈ as ↔ a ∈ bs) :
    setOf as = setOf bs :=
  eq_of_increasing (setOf_ordered as) (setOf_ordered bs) fun a => by rw [mem_setOf, mem_setOf, h]

end Sets

end SchemaCompiler
