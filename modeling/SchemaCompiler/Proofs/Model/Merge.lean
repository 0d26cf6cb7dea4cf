import SchemaCompiler.Proofs.Model.Resolve

/-! Merging the objects of one bucket. Each live object goes over to the first of its equals, its
stand-in; chains of merged types then lead to the stand-in of where they led before. -/

namespace SchemaCompiler

namespace TypeExpr

mutual

theorem mapIds_id : ∀ e : TypeExpr, e.mapIds id = e
  | primitive _ => rfl
  | wellKnown _ => rfl
  | type _ => rfl
  | ref _ => rfl
  | bareList => rfl
  | list item => by simp [mapIds, mapIds_id item]
  | bareMap => rfl
  | map value => by simp [mapIds, mapIds_id value]
  | union members => by simp [mapIds, mapAllIds_id members]

theorem mapAllIds_id : ∀ es : List TypeExpr, mapAllIds id es = es
  | [] => rfl
  | e :: es => by simp [mapAllIds, mapIds_id e, mapAllIds_id es]

end

mutual

theorem mapIds_mapIds (f g : TypeId → TypeId) :
    ∀ e : TypeExpr, (e.mapIds f).mapIds g = e.mapIds (g ∘ f)
  | primitive _ => rfl
  | wellKnown _ => rfl
  | type _ => rfl
  | ref _ => rfl
  | bareList => rfl
  | list item => by simp [mapIds, mapIds_mapIds f g item]
  | bareMap => rfl
  | map value => by simp [mapIds, mapIds_mapIds f g value]
  | union members => by simp [mapIds, mapAllIds_mapAllIds f g members]

theorem mapAllIds_mapAllIds (f g : TypeId → TypeId) :
    ∀ es : List TypeExpr, mapAllIds g (mapAllIds f es) = mapAllIds (g ∘ f) es
  | [] => rfl
  | e :: es => by simp [mapAllIds, mapIds_mapIds f g e, mapAllIds_mapAllIds f g es]

end

end TypeExpr

def TypeEntry.unmerged (t : TypeEntry) : TypeEntry := { t with mergedInto := none }

namespace Model

variable {m : Model} {members : List TypeId} {id : TypeId}

/-- The live objects of a bucket whose properties agree with those of `id`. -/
def equalsOf (m : Model) (members : List TypeId) (id : TypeId) : List TypeId :=
  (members.filter m.isLive).filter fun i => m.structureOf i == m.structureOf id

/-- The object that stands for `id` once its bucket is merged. -/
def standIn (m : Model) (members : List TypeId) (id : TypeId) : TypeId :=
  if id ∈ members ∧ m.isLive id = true then m.retainedOf (m.equalsOf members id) id else id

/-- Redirects each of `ids` to its image. -/
def redirectAll (g : TypeId → TypeId) (ids : List TypeId) (m : Model) : Model :=
  ids.foldl (fun merged id => if g id == id then merged else merged.redirect id (g id)) m

theorem redirect_eq_amend (m : Model) (id target : TypeId) :
    m.redirect id target = m.amend id fun t => { t with mergedInto := some target } := rfl

theorem mergeBucket_eq :
    m.mergeBucket members = redirectAll (m.standIn members) (members.filter m.isLive) m := by
  rw [mergeBucket, redirectAll, List.foldl_map]
  apply List.foldl_ext
  intro merged id hid
  obtain ⟨hmem, hlive⟩ := List.mem_filter.mp hid
  have hequals : (((members.filter m.isLive).map fun i => (i, m.structureOf i)).filter
      fun e => e.2 == m.structureOf id).map Prod.fst = m.equalsOf members id := by
    simp [equalsOf, List.filter_map, Function.comp_def]
  simp only [hequals, standIn, hmem, hlive, and_self, if_true]

theorem retainedOf_cons (i : TypeId) (ids : List TypeId) (best : TypeId) :
    m.retainedOf (i :: ids) best = m.retainedOf ids (if m.precedes i best then i else best) := rfl

theorem retainedOf_mem (ids : List TypeId) (best : TypeId) :
    m.retainedOf ids best = best ∨ m.retainedOf ids best ∈ ids := by
  induction ids generalizing best with
  | nil => exact .inl rfl
  | cons i ids ih =>
    rw [retainedOf_cons]
    rcases ih (if m.precedes i best then i else best) with hh | hh
    · rw [hh]
      by_cases hp : m.precedes i best = true
      · simp [hp]
      · simp [hp]
    · exact .inr (List.mem_cons_of_mem _ hh)

theorem not_precedes_retainedOf {ids : List TypeId} {best i : TypeId} (hi : i = best ∨ i ∈ ids) :
    m.precedes i (m.retainedOf ids best) = false := by
  induction ids generalizing best i with
  | nil =>
    obtain rfl := hi.resolve_right (by simp)
    exact precedes_irrefl i
  | cons j ids ih =>
    rw [retainedOf_cons]
    by_cases hp : m.precedes j best = true
    · rw [if_pos hp]
      rcases hi with rfl | hi
      · apply Bool.eq_false_iff.mpr
        intro hb
        have hj : m.precedes j (m.retainedOf ids j) = false := ih (.inl rfl)
        simp [precedes_trans hp hb] at hj
      · exact ih (List.mem_cons.mp hi)
    · rw [if_neg hp]
      rcases hi with hi | hi
      · exact ih (.inl hi)
      · rcases List.mem_cons.mp hi with rfl | hi
        · have hbest : m.precedes best (m.retainedOf ids best) = false := ih (.inl rfl)
          exact not_precedes_trans (Bool.eq_false_iff.mpr hp) hbest
        · exact ih (.inr hi)

theorem mem_equalsOf {i : TypeId} : i ∈ m.equalsOf members id ↔
    i ∈ members ∧ m.isLive i = true ∧ m.structureOf i = m.structureOf id := by
  simp only [equalsOf, List.mem_filter, beq_iff_eq, and_assoc]

theorem standIn_of_not (h : ¬(id ∈ members ∧ m.isLive id = true)) : m.standIn members id = id :=
  if_neg h

theorem mem_of_standIn_ne (h : m.standIn members id ≠ id) : id ∈ members ∧ m.isLive id = true := by
  by_contra hn
  exact h (standIn_of_not hn)

theorem standIn_mem (hid : id ∈ members) (hlive : m.isLive id = true) :
    m.standIn members id ∈ members ∧ m.isLive (m.standIn members id) = true ∧
      m.structureOf (m.standIn members id) = m.structureOf id := by
  rw [standIn, if_pos ⟨hid, hlive⟩]
  rcases retainedOf_mem (m.equalsOf members id) id with hh | hh
  · rw [hh]
    exact ⟨hid, hlive, rfl⟩
  · exact mem_equalsOf.mp hh

theorem not_precedes_standIn {i : TypeId} (hid : id ∈ members) (hlive : m.isLive id = true)
    (hi : i ∈ members) (hilive : m.isLive i = true) (hs : m.structureOf i = m.structureOf id) :
    m.precedes i (m.standIn members id) = false := by
  rw [standIn, if_pos ⟨hid, hlive⟩]
  exact not_precedes_retainedOf (.inr (mem_equalsOf.mpr ⟨hi, hilive, hs⟩))

/-- Equal objects of a bucket have one stand-in. -/
theorem standIn_eq {i : TypeId} (hid : id ∈ members) (hlive : m.isLive id = true)
    (hi : i ∈ members) (hilive : m.isLive i = true) (hs : m.structureOf i = m.structureOf id) :
    m.standIn members i = m.standIn members id := by
  by_contra hne
  obtain ⟨hm, hl, he⟩ := standIn_mem hid hlive
  obtain ⟨hm', hl', he'⟩ := standIn_mem hi hilive
  rcases precedes_or (m := m) hne with hp | hp
  · simp [not_precedes_standIn hid hlive hm' hl' (he'.trans hs)] at hp
  · simp [not_precedes_standIn hi hilive hm hl (he.trans hs.symm)] at hp

theorem standIn_standIn (members : List TypeId) (id : TypeId) :
    m.standIn members (m.standIn members id) = m.standIn members id := by
  by_cases h : id ∈ members ∧ m.isLive id = true
  · obtain ⟨hm, hl, he⟩ := standIn_mem h.1 h.2
    exact standIn_eq h.1 h.2 hm hl he
  · rw [standIn_of_not h, standIn_of_not h]

theorem structureOf_standIn (members : List TypeId) (id : TypeId) :
    m.structureOf (m.standIn members id) = m.structureOf id := by
  by_cases h : id ∈ members ∧ m.isLive id = true
  · exact (standIn_mem h.1 h.2).2.2
  · rw [standIn_of_not h]

theorem precedes_standIn (h : m.standIn members id ≠ id) :
    m.precedes (m.standIn members id) id = true := by
  obtain ⟨hid, hlive⟩ := mem_of_standIn_ne h
  exact (precedes_or h).resolve_right (by simp [not_precedes_standIn hid hlive hid hlive rfl])

/-! The effect on single types. -/

theorem getElem?_redirectAll (g : TypeId → TypeId) (ids : List TypeId) (m : Model) (i : TypeId) :
    (redirectAll g ids m).types[i]? = (m.types[i]?).map fun t =>
      if i ∈ ids ∧ g i ≠ i then { t with mergedInto := some (g i) } else t := by
  induction ids generalizing m with
  | nil => simp [redirectAll]
  | cons j ids ih =>
    have hcons : redirectAll g (j :: ids) m =
        redirectAll g ids (if g j == j then m else m.redirect j (g j)) := rfl
    rw [hcons, ih]
    by_cases hj : g j = j
    · by_cases hi : i = j
      · subst hi
        simp [hj]
      · simp [hj, hi]
    · simp only [beq_iff_eq, hj, if_false]
      rw [redirect_eq_amend, getElem?_amend]
      by_cases hi : i = j
      · subst hi
        cases m.types[i]? <;> simp [hj]
      · simp [hi]

theorem getElem?_mergeBucket (i : TypeId) :
    (m.mergeBucket members).types[i]? = (m.types[i]?).map fun t =>
      if m.standIn members i = i then t
      else { t with mergedInto := some (m.standIn members i) } := by
  rw [mergeBucket_eq, getElem?_redirectAll]
  congr 1
  funext t
  by_cases hs : m.standIn members i = i
  · simp [hs]
  · have hmem : i ∈ members.filter m.isLive := List.mem_filter.mpr (mem_of_standIn_ne hs)
    simp [hs, hmem]

theorem mergedInto?_mergeBucket (hlt : ∀ i ∈ members, i < m.types.size) (i : TypeId) :
    (m.mergeBucket members).mergedInto? i =
      if m.standIn members i = i then m.mergedInto? i else some (m.standIn members i) := by
  rw [mergedInto?, getElem?_mergeBucket]
  by_cases hs : m.standIn members i = i
  · simp [hs, mergedInto?]
  · have hmem := (mem_of_standIn_ne hs).1
    obtain ⟨t, ht⟩ : ∃ t, m.types[i]? = some t := ⟨_, Array.getElem?_eq_getElem (hlt i hmem)⟩
    simp [hs, ht]

/-! The effect on the whole model. -/

/-- `m'` comes from `m` by merging objects, none of them outside `ids`. -/
structure MergesTo (ids : List TypeId) (m m' : Model) : Prop extends
    SameUpTo TypeEntry.unmerged m m' where
  wellFormed : m'.WellFormed
  live : ∀ i, m'.mergedInto? i = none → m.mergedInto? i = none
  outside : ∀ i, i ∉ ids → m'.mergedInto? i = m.mergedInto? i
  resolve : ∀ i, m'.resolve (m.resolve i) = m'.resolve i

theorem MergesTo.refl (h : m.WellFormed) (ids : List TypeId) : MergesTo ids m m :=
  ⟨.refl _ m, h, fun _ hi => hi, fun _ _ => rfl, h.resolve_resolve⟩

theorem MergesTo.trans {ids : List TypeId} {m₁ m₂ m₃ : Model} (h : MergesTo ids m₁ m₂)
    (h' : MergesTo ids m₂ m₃) : MergesTo ids m₁ m₃ where
  toSameUpTo := h.toSameUpTo.trans h'.toSameUpTo
  wellFormed := h'.wellFormed
  live := fun i hi => h.live i (h'.live i hi)
  outside := fun i hi => (h'.outside i hi).trans (h.outside i hi)
  resolve := by
    intro i
    rw [← h'.resolve (m₁.resolve i), h.resolve, h'.resolve]

section MergesTo

variable {ids : List TypeId} {m' : Model}

theorem MergesTo.groupOf? (h : MergesTo ids m m') (i : TypeId) : m'.groupOf? i = m.groupOf? i :=
  h.map_getElem? (fun _ => rfl) i

theorem MergesTo.fullNameOf (h : MergesTo ids m m') (i : TypeId) :
    m'.fullNameOf i = m.fullNameOf i :=
  h.toSameUpTo.fullNameOf (fun _ => rfl) i

theorem MergesTo.precedes (h : MergesTo ids m m') (a b : TypeId) :
    m'.precedes a b = m.precedes a b :=
  precedes_congr (h.fullNameOf a) (h.fullNameOf b)

end MergesTo

theorem WellFormed.redirectAll {g : TypeId → TypeId} {ids : List TypeId} (h : m.WellFormed)
    (hg : ∀ i ∈ ids, g i ≠ i → ∃ key short,
      i ∈ m.bucket key short ∧ g i ∈ m.bucket key short ∧ m.precedes (g i) i = true) :
    (redirectAll g ids m).WellFormed ∧ (redirectAll g ids m).groups = m.groups ∧
      (redirectAll g ids m).index = m.index := by
  induction ids generalizing m with
  | nil => exact ⟨h, rfl, rfl⟩
  | cons j ids ih =>
    have hcons : Model.redirectAll g (j :: ids) m =
        Model.redirectAll g ids (if g j == j then m else m.redirect j (g j)) := rfl
    rw [hcons]
    by_cases hj : g j = j
    · simp only [hj, beq_self_eq_true, if_true]
      exact ih h fun i hi => hg i (List.mem_cons_of_mem _ hi)
    · simp only [beq_iff_eq, hj, if_false]
      obtain ⟨key, short, hm, hr, hp⟩ := hg j List.mem_cons_self hj
      rw [redirect_eq_amend]
      have hwf : (m.amend j fun t => { t with mergedInto := some (g j) }).WellFormed := by
        refine h.amend (fun _ => rfl) (fun _ => rfl) ?_ ?_
        · intro key' name t hn
          exact absurd hm (h.apart hn)
        · intro t r _ he
          obtain rfl := Option.some.inj he
          exact .inr ⟨key, short, hm, hr, hp⟩
      have hname : ∀ a, (m.amend j fun t => { t with mergedInto := some (g j) }).fullNameOf a =
          m.fullNameOf a := fullNameOf_amend fun _ => rfl
      refine ih hwf fun i hi hne => ?_
      obtain ⟨key, short, hm, hr, hp⟩ := hg i (List.mem_cons_of_mem _ hi) hne
      exact ⟨key, short, hm, hr, (precedes_congr (hname _) (hname _)).trans hp⟩

theorem WellFormed.mergeBucket_wellFormed (h : m.WellFormed) {key : GroupKey} {short : String}
    (hmem : ∀ i ∈ members, i ∈ m.bucket key short) :
    (m.mergeBucket members).WellFormed ∧ (m.mergeBucket members).groups = m.groups ∧
      (m.mergeBucket members).index = m.index := by
  rw [mergeBucket_eq]
  refine h.redirectAll fun i hi hne => ⟨key, short, hmem i ?_, hmem _ ?_, precedes_standIn hne⟩
  · exact (mem_of_standIn_ne hne).1
  · obtain ⟨hi, hlive⟩ := mem_of_standIn_ne hne
    exact (standIn_mem hi hlive).1

/-- Merging a bucket puts the stand-in of every object in its place. -/
theorem WellFormed.resolve_mergeBucket (h : m.WellFormed) {key : GroupKey} {short : String}
    (hmem : ∀ i ∈ members, i ∈ m.bucket key short) (i : TypeId) :
    (m.mergeBucket members).resolve i = m.standIn members (m.resolve i) := by
  have hwf := (h.mergeBucket_wellFormed hmem).1
  have hmerged := mergedInto?_mergeBucket fun i hi => h.lt_size (hmem i hi)
  induction i using h.induction_on with
  | live i hi =>
    rw [resolve_of_live hi]
    by_cases hs : m.standIn members i = i
    · rw [hs, resolve_of_live]
      rw [hmerged, if_pos hs, hi]
    · have hstep := hmerged i
      rw [if_neg hs] at hstep
      rw [hwf.resolve_of_merged hstep, resolve_of_live]
      rw [hmerged, if_pos (standIn_standIn members i), ← isLive_iff]
      obtain ⟨hmember, hlive⟩ := mem_of_standIn_ne hs
      exact (standIn_mem hmember hlive).2.1
  | merged i r hr ih =>
    have hs : m.standIn members i = i :=
      standIn_of_not fun hn => by simp [isLive_iff, hr] at hn
    have hstep := hmerged i
    rw [if_pos hs, hr] at hstep
    rw [hwf.resolve_of_merged hstep, ih, h.resolve_of_merged hr]

theorem WellFormed.mergeBucket (h : m.WellFormed) {key : GroupKey} {short : String}
    (hmem : ∀ i ∈ members, i ∈ m.bucket key short) :
    MergesTo members m (m.mergeBucket members) ∧
      ∀ i, (m.mergeBucket members).resolve i = m.standIn members (m.resolve i) := by
  obtain ⟨hwf, hgroups, hindex⟩ := h.mergeBucket_wellFormed hmem
  have hmerged := mergedInto?_mergeBucket fun i hi => h.lt_size (hmem i hi)
  have hresolve := h.resolve_mergeBucket hmem
  refine ⟨⟨⟨hgroups, hindex, ?_⟩, hwf, ?_, ?_, ?_⟩, hresolve⟩
  · intro i
    rw [getElem?_mergeBucket, Option.map_map]
    congr 1
    funext t
    by_cases hs : m.standIn members i = i <;> simp [hs, TypeEntry.unmerged]
  · intro i hi
    rw [hmerged] at hi
    by_cases hs : m.standIn members i = i
    · rwa [if_pos hs] at hi
    · simp [hs] at hi
  · intro i hi
    rw [hmerged, if_pos (standIn_of_not fun hn => hi hn.1)]
  · intro i
    rw [hresolve, hresolve, h.resolve_resolve]

end Model

end SchemaCompiler
