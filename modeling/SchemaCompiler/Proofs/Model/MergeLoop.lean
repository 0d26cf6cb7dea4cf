import SchemaCompiler.Proofs.Model.Merge

/-! Merging the buckets of a group until a round changes nothing. Every other round takes a live
object away, so that the rounds end, and what is left are live objects that differ pairwise. -/

namespace SchemaCompiler

namespace Model

/-- The rounds of merging without a bound on their number: one that merges nothing is the last. -/
inductive MergeLoop (buckets : List (List TypeId)) : Model → Model → Prop
  | done {m} (h : m.mergeRound buckets = m) : MergeLoop buckets m m
  | again {m m'} (h : m.mergeRound buckets ≠ m) (rest : MergeLoop buckets (m.mergeRound buckets) m') :
    MergeLoop buckets m m'

variable {m : Model} {buckets : List (List TypeId)}

theorem mergeRounds_induction {P : Model → Prop}
    (hstep : ∀ m, P m → ∀ members ∈ buckets, P (m.mergeBucket members)) (n : Nat) (h : P m) :
    P (mergeRounds buckets n m) := by
  have hround : ∀ m, P m → P (m.mergeRound buckets) := by
    intro m hm
    have hfold : ∀ bs : List (List TypeId), (∀ b ∈ bs, b ∈ buckets) → ∀ m, P m →
        P (bs.foldl mergeBucket m) := by
      intro bs
      induction bs with
      | nil => exact fun _ _ hm => hm
      | cons b bs ih =>
        intro hbs m hm
        exact ih (fun c hc => hbs c (List.mem_cons_of_mem _ hc)) _
          (hstep m hm b (hbs b List.mem_cons_self))
    exact hfold buckets (fun _ hb => hb) m hm
  induction n generalizing m with
  | zero => exact h
  | succ n ih =>
    rw [mergeRounds]
    split
    · exact hround m h
    · exact ih (hround m h)

theorem redirectAll_eq_self {g : TypeId → TypeId} {ids : List TypeId} (h : ∀ i ∈ ids, g i = i) :
    redirectAll g ids m = m := by
  induction ids with
  | nil => rfl
  | cons j ids ih =>
    have hcons : redirectAll g (j :: ids) m =
        redirectAll g ids (if g j == j then m else m.redirect j (g j)) := rfl
    rw [hcons]
    simp only [h j List.mem_cons_self, beq_self_eq_true, if_true]
    exact ih fun i hi => h i (List.mem_cons_of_mem _ hi)

/-- Merging a bucket takes live objects away or changes nothing. -/
theorem liveCount_mergeBucket {members ids : List TypeId} (hlt : ∀ i ∈ members, i < m.types.size)
    (hsub : ∀ i ∈ members, i ∈ ids) :
    m.mergeBucket members = m ∨ (m.mergeBucket members).liveCount ids < m.liveCount ids := by
  by_cases hall : ∀ i ∈ members.filter m.isLive, m.standIn members i = i
  · left
    rw [mergeBucket_eq, redirectAll_eq_self hall]
  · right
    push Not at hall
    obtain ⟨i, hi, hne⟩ := hall
    obtain ⟨hmem, hlive⟩ := List.mem_filter.mp hi
    have hmerged := mergedInto?_mergeBucket hlt
    refine countP_lt_countP ?_ (hsub i hmem) ?_ hlive
    · intro j _ hj
      rw [isLive_iff] at hj ⊢
      rw [hmerged] at hj
      by_cases hs : m.standIn members j = j
      · rwa [if_pos hs] at hj
      · simp [hs] at hj
    · apply Bool.eq_false_iff.mpr
      rw [Ne, isLive_iff, hmerged, if_neg hne]
      simp

theorem size_mergeBucket (members : List TypeId) :
    (m.mergeBucket members).types.size = m.types.size := by
  have hplaces : ∀ i : TypeId, ((m.mergeBucket members).types[i]?).map (fun _ => ()) =
      (m.types[i]?).map fun _ => () := by
    intro i
    simp only [getElem?_mergeBucket, Option.map_map, Function.comp_def]
  exact size_eq_of_map hplaces

theorem mergeRound_eq_self (h : ∀ b ∈ buckets, m.mergeBucket b = m) :
    m.mergeRound buckets = m := by
  rw [mergeRound]
  induction buckets with
  | nil => rfl
  | cons b bs ih =>
    rw [List.foldl_cons, h b List.mem_cons_self]
    exact ih fun c hc => h c (List.mem_cons_of_mem _ hc)

theorem liveCount_mergeRound (hlt : ∀ i ∈ buckets.flatten, i < m.types.size) :
    (∀ b ∈ buckets, m.mergeBucket b = m) ∨
      (m.mergeRound buckets).liveCount buckets.flatten < m.liveCount buckets.flatten := by
  have hfold : ∀ bs : List (List TypeId), (∀ b ∈ bs, b ∈ buckets) → ∀ m : Model,
      (∀ i ∈ buckets.flatten, i < m.types.size) → (∀ b ∈ bs, m.mergeBucket b = m) ∨
        (m.mergeRound bs).liveCount buckets.flatten < m.liveCount buckets.flatten := by
    intro bs
    induction bs with
    | nil => exact fun _ _ _ => .inl (by simp)
    | cons b bs ih =>
      intro hbs m hlt
      have hb : ∀ i ∈ b, i ∈ buckets.flatten :=
        fun i hi => List.mem_flatten.mpr ⟨b, hbs b List.mem_cons_self, hi⟩
      have hrest := ih (fun c hc => hbs c (List.mem_cons_of_mem _ hc)) (m.mergeBucket b)
        (by simpa only [size_mergeBucket] using hlt)
      have hcons : m.mergeRound (b :: bs) = (m.mergeBucket b).mergeRound bs := rfl
      rw [hcons]
      rcases liveCount_mergeBucket (fun i hi => hlt i (hb i hi)) hb with he | hl
      · rw [he] at hrest ⊢
        refine hrest.imp (fun hall c hc => ?_) fun hl => hl
        rcases List.mem_cons.mp hc with rfl | hc
        · exact he
        · exact hall c hc
      · right
        rcases hrest with hall | hl'
        · rwa [mergeRound_eq_self hall]
        · exact Nat.lt_trans hl' hl
  exact hfold buckets (fun _ hb => hb) m hlt

theorem size_mergeRound : (m.mergeRound buckets).types.size = m.types.size := by
  rw [mergeRound]
  induction buckets generalizing m with
  | nil => rfl
  | cons b bs ih => rw [List.foldl_cons, ih, size_mergeBucket]

/-- As many rounds as there are live objects are enough for the loop to end by itself. -/
theorem mergeLoop_mergeRounds (hlt : ∀ i ∈ buckets.flatten, i < m.types.size) {n : Nat}
    (hn : m.liveCount buckets.flatten ≤ n) : MergeLoop buckets m (mergeRounds buckets n m) := by
  induction n generalizing m with
  | zero =>
    rcases liveCount_mergeRound hlt with hall | hl
    · exact .done (mergeRound_eq_self hall)
    · omega
  | succ n ih =>
    rw [mergeRounds]
    rcases liveCount_mergeRound hlt with hall | hl
    · have he := mergeRound_eq_self hall
      simp only [he, beq_self_eq_true, if_true]
      exact .done he
    · have hne : m.mergeRound buckets ≠ m := by
        intro he
        rw [he] at hl
        exact Nat.lt_irrefl _ hl
      have hcount : ((m.mergeRound buckets).liveCount buckets.flatten ==
          m.liveCount buckets.flatten) = false := by
        simpa using Nat.ne_of_lt hl
      simp only [hcount]
      refine .again hne (ih ?_ (by omega))
      simpa only [size_mergeRound] using hlt

theorem MergeLoop.fixed {m' : Model} (h : MergeLoop buckets m m') : m'.mergeRound buckets = m' := by
  induction h with
  | done h => exact h
  | again _ _ ih => exact ih

/-- Where a round changes nothing, equal live objects of a bucket are one. -/
theorem eq_of_fixed (hlt : ∀ i ∈ buckets.flatten, i < m.types.size)
    (h : m.mergeRound buckets = m) {members : List TypeId} (hmem : members ∈ buckets)
    {a b : TypeId} (ha : a ∈ members) (hb : b ∈ members) (hla : m.isLive a = true)
    (hlb : m.isLive b = true) (hs : m.structureOf a = m.structureOf b) : a = b := by
  have hall : ∀ b ∈ buckets, m.mergeBucket b = m := by
    refine (liveCount_mergeRound hlt).resolve_right ?_
    rw [h]
    exact Nat.lt_irrefl _
  have hsub : ∀ i ∈ members, i < m.types.size :=
    fun i hi => hlt i (List.mem_flatten.mpr ⟨members, hmem, hi⟩)
  have hself : ∀ i, m.isLive i = true → m.standIn members i = i := by
    intro i hi
    by_contra hne
    have hmerged := mergedInto?_mergeBucket hsub i
    rw [hall members hmem, if_neg hne, isLive_iff.mp hi] at hmerged
    cases hmerged
  rw [← hself a hla, ← hself b hlb]
  exact standIn_eq hb hlb ha hla hs

end Model

end SchemaCompiler
