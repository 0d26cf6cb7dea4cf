import Mathlib.Data.List.Perm.Subperm
import Mathlib.Logic.Relation
import SchemaCompiler.Proofs.Model.Change

/-! The order of the types of a finalized group. A walk that places a type after everything it leads
to breaks this only where a type is met again while it is still open, and what is open leads to what
is being visited. -/

namespace SchemaCompiler

namespace Model

/-- An expression has a part, at any depth, that stands for the type `v` of the group `key`: a type
that is merged into `v`, or the name of `v`. -/
inductive Mentions (m : Model) (key : GroupKey) : TypeExpr → TypeId → Prop
  | type {id v} (hv : m.resolve id = v) (hg : m.groupOf? v = some key) : Mentions m key (.type id) v
  | ref {q v} (hq : GroupKey.of q = key) (hv : m.named? key q.name = some v) :
    Mentions m key (.ref q) v
  | list {item v} (h : Mentions m key item v) : Mentions m key (.list item) v
  | map {value v} (h : Mentions m key value v) : Mentions m key (.map value) v
  | union {members e v} (he : e ∈ members) (h : Mentions m key e v) :
    Mentions m key (.union members) v

/-- `u` and `v` are types of the group `key`, and what `u` is a synonym of or the type of one of its
properties mentions `v`. -/
def Refers (m : Model) (key : GroupKey) (u v : TypeId) : Prop :=
  ∃ t, m.types[u]? = some t ∧ t.group = key ∧
    ((∃ target, t.kind = .synonym target ∧ m.Mentions key target v) ∨
      ∃ p ∈ t.properties, m.Mentions key p.type v)

variable {m : Model} {key : GroupKey}

/-! What the walk reads are these references. -/

mutual

theorem mentions_of_leaf {leaf : TypeExpr} {v : TypeId} (hv : m.localTarget? key leaf = some v) :
    ∀ e : TypeExpr, leaf ∈ e.leaves → m.Mentions key e v
  | .primitive _, h => by
    obtain rfl := List.mem_singleton.mp h
    simp [localTarget?] at hv
  | .wellKnown _, h => by
    obtain rfl := List.mem_singleton.mp h
    simp [localTarget?] at hv
  | .type id, h => by
    obtain rfl := List.mem_singleton.mp h
    rw [localTarget?] at hv
    split at hv
    · next hg =>
      obtain rfl := Option.some.inj hv
      exact .type rfl (by simpa using hg)
    · cases hv
  | .ref q, h => by
    obtain rfl := List.mem_singleton.mp h
    rw [localTarget?] at hv
    split at hv
    · next hq => exact .ref (by simpa using hq) hv
    · cases hv
  | .bareList, h => by simp [TypeExpr.leaves] at h
  | .list item, h => .list (mentions_of_leaf hv item h)
  | .bareMap, h => by simp [TypeExpr.leaves] at h
  | .map value, h => .map (mentions_of_leaf hv value h)
  | .union members, h => by
    obtain ⟨e, he, hm⟩ := mentions_of_leaves hv members h
    exact .union he hm

theorem mentions_of_leaves {leaf : TypeExpr} {v : TypeId} (hv : m.localTarget? key leaf = some v) :
    ∀ es : List TypeExpr, leaf ∈ TypeExpr.allLeaves es → ∃ e ∈ es, m.Mentions key e v
  | [], h => by simp [TypeExpr.allLeaves] at h
  | e :: es, h => by
    rcases List.mem_append.mp h with h | h
    · exact ⟨e, List.mem_cons_self, mentions_of_leaf hv e h⟩
    · obtain ⟨e', he', hm⟩ := mentions_of_leaves hv es h
      exact ⟨e', List.mem_cons_of_mem _ he', hm⟩

end

theorem mem_allLeaves {leaf e : TypeExpr} {es : List TypeExpr} (he : e ∈ es)
    (h : leaf ∈ e.leaves) : leaf ∈ TypeExpr.allLeaves es := by
  induction es with
  | nil => simp at he
  | cons e' es ih =>
    rcases List.mem_cons.mp he with rfl | he
    · exact List.mem_append_left _ h
    · exact List.mem_append_right _ (ih he)

theorem Mentions.exists_leaf {e : TypeExpr} {v : TypeId} (h : m.Mentions key e v) :
    ∃ leaf ∈ e.leaves, m.localTarget? key leaf = some v := by
  induction h with
  | @type id v hv hg => exact ⟨.type id, List.mem_singleton_self _, by simp [localTarget?, hv, hg]⟩
  | @ref q v hq hv => exact ⟨.ref q, List.mem_singleton_self _, by simp [localTarget?, hq, hv]⟩
  | list _ ih => exact ih
  | map _ ih => exact ih
  | union he _ ih =>
    obtain ⟨leaf, hl, hv⟩ := ih
    exact ⟨leaf, mem_allLeaves he hl, hv⟩

theorem mentions_iff {e : TypeExpr} {v : TypeId} :
    m.Mentions key e v ↔ ∃ leaf ∈ e.leaves, m.localTarget? key leaf = some v := by
  constructor
  · exact Mentions.exists_leaf
  · rintro ⟨leaf, hl, hv⟩
    exact mentions_of_leaf hv e hl

theorem mem_exprs_iff {t : TypeEntry} {e : TypeExpr} :
    e ∈ t.exprs ↔ t.kind = .synonym e ∨ ∃ p ∈ t.properties, p.type = e := by
  rw [TypeEntry.exprs, List.mem_append, List.mem_map]
  cases t.kind <;> simp [eq_comm]

theorem refers_iff {u v : TypeId} :
    m.Refers key u v ↔ m.groupOf? u = some key ∧ v ∈ m.dependencies key u := by
  simp only [Refers, groupOf?, dependencies, leavesOf, exprsOf, List.mem_filterMap,
    List.mem_flatMap, mentions_iff]
  cases ht : m.types[u]? with
  | none => simp
  | some t =>
    simp only [Option.some.injEq, Option.map_some, Option.getD_some, exists_eq_left', mem_exprs_iff]
    refine and_congr_right fun _ => ?_
    constructor
    · rintro (⟨e, he, leaf, hl, hv⟩ | ⟨p, hp, leaf, hl, hv⟩)
      · exact ⟨leaf, ⟨e, .inl he, hl⟩, hv⟩
      · exact ⟨leaf, ⟨p.type, .inr ⟨p, hp, rfl⟩, hl⟩, hv⟩
    · rintro ⟨leaf, ⟨e, he | ⟨p, hp, rfl⟩, hl⟩, hv⟩
      · exact .inl ⟨e, he, leaf, hl, hv⟩
      · exact .inr ⟨p, hp, leaf, hl, hv⟩

theorem refers_of_mentions {u v : TypeId} {t : TypeEntry} {e : TypeExpr} (ht : m.types[u]? = some t)
    (hgroup : m.groupOf? u = some key) (he : e ∈ t.exprs) (hv : m.Mentions key e v) :
    m.Refers key u v := by
  rw [groupOf?, ht, Option.map_some, Option.some_inj] at hgroup
  refine ⟨t, ht, hgroup, (mem_exprs_iff.mp he).imp (fun hkind => ⟨e, hkind, hv⟩) ?_⟩
  rintro ⟨p, hp, rfl⟩
  exact ⟨p, hp, hv⟩

theorem WellFormed.mem_liveTypes (h : m.WellFormed) {id : TypeId} :
    id ∈ m.liveTypes key ↔ m.groupOf? id = some key ∧ m.isLive id = true := by
  constructor
  · intro hid
    rw [liveTypes] at hid
    cases hg : m.group? key with
    | none => simp [hg] at hid
    | some g =>
      simp only [hg, List.mem_filter, List.mem_append] at hid
      obtain ⟨hmem, hlive⟩ := hid
      refine ⟨?_, hlive⟩
      rcases hmem with hn | ha
      · obtain ⟨name, hname⟩ := (h.named_ordered hg).mem_values.mp hn
        have hid : m.named? key name = some id := by simpa [named?, hg] using hname
        obtain ⟨t, ht, hk, -⟩ := h.named hid
        rw [groupOf?, ht, Option.map_some, hk]
      · obtain ⟨short, hb⟩ := (h.mem_objects hg).mp ha
        exact h.filed hb
  · rintro ⟨hgroup, hlive⟩
    obtain ⟨t, ht, rfl⟩ := Option.map_eq_some_iff.mp hgroup
    have hplaced := h.placed ht
    rw [liveTypes]
    cases hg : m.group? t.group with
    | none => simp [named?, bucket, hg] at hplaced
    | some g =>
      refine List.mem_filter.mpr ⟨List.mem_append.mpr ?_, hlive⟩
      rcases hplaced with hn | hb
      · left
        exact (h.named_ordered hg).mem_values.mpr ⟨t.name, by simpa [named?, hg] using hn⟩
      · right
        exact (h.mem_objects hg).mpr hb

theorem WellFormed.live_entry (h : m.WellFormed) {id : TypeId} {t : TypeEntry}
    (hid : id ∈ m.liveTypes key) (ht : m.types[id]? = some t) :
    t.group = key ∧ t.mergedInto = none := by
  obtain ⟨hgroup, hlive⟩ := h.mem_liveTypes.mp hid
  rw [groupOf?, ht] at hgroup
  rw [isLive_iff, mergedInto?, ht] at hlive
  exact ⟨Option.some.inj hgroup, hlive⟩

theorem WellFormed.dependencies_live (h : m.WellFormed) {u v : TypeId}
    (hv : v ∈ m.dependencies key u) : v ∈ m.liveTypes key := by
  obtain ⟨leaf, -, hl⟩ := List.mem_filterMap.mp hv
  cases leaf with
  | type id =>
    rw [localTarget?] at hl
    split at hl
    · next hg =>
      obtain rfl := Option.some.inj hl
      exact h.mem_liveTypes.mpr ⟨by simpa using hg, isLive_iff.mpr (h.mergedInto?_resolve id)⟩
    · cases hl
  | ref q =>
    rw [localTarget?] at hl
    split at hl
    · obtain ⟨t, ht, hg, -⟩ := h.named hl
      have hgroup : m.groupOf? v = some key := by rw [groupOf?, ht, Option.map_some, hg]
      exact h.mem_liveTypes.mpr ⟨hgroup, isLive_iff.mpr (h.named_live hl)⟩
    · cases hl
  | _ => cases hl

/-! The walk. -/

/-- A type that was reached and is not in place yet. -/
def Walk.Open (w : Walk) (u : TypeId) : Prop := u ∈ w.seen ∧ u ∉ w.placed

/-- What holds of a walk through the group `key` at any time. -/
structure Walk.Sound (m : Model) (key : GroupKey) (w : Walk) : Prop where
  live : ∀ u ∈ w.seen, u ∈ m.liveTypes key
  nodup_seen : w.seen.Nodup
  seen : ∀ u ∈ w.placed, u ∈ w.seen
  nodup_placed : w.placed.Nodup
  leaves_first : ∀ u ∈ w.placed, ∀ v, m.Refers key u v → v ≠ u →
    [v, u].Sublist w.placed ∨ Relation.TransGen (m.Refers key) v u

/-- A part of a walk that leaves no type open. -/
structure Walk.Extends (w w' : Walk) : Prop where
  seen : ∀ u ∈ w.seen, u ∈ w'.seen
  unopened : ∀ u, w'.Open u ↔ w.Open u

theorem Walk.Extends.trans {w₁ w₂ w₃ : Walk} (h : w₁.Extends w₂) (h' : w₂.Extends w₃) :
    w₁.Extends w₃ :=
  ⟨fun u hu => h'.seen u (h.seen u hu), fun u => (h'.unopened u).trans (h.unopened u)⟩

theorem Walk.Extends.length_le {w w' : Walk} (h : w.Extends w') (hw : w.Sound m key) :
    w.seen.length ≤ w'.seen.length :=
  (hw.nodup_seen.subperm h.seen).length_le

theorem Walk.Sound.length_le {w : Walk} (hw : w.Sound m key) (h : m.WellFormed) :
    w.seen.length ≤ m.types.size := by
  have hsub : w.seen ⊆ List.range m.types.size := by
    intro u hu
    obtain ⟨hg, -⟩ := h.mem_liveTypes.mp (hw.live u hu)
    obtain ⟨t, ht, -⟩ := Option.map_eq_some_iff.mp hg
    exact List.mem_range.mpr (Array.getElem?_eq_some_iff.mp ht).1
  simpa using (hw.nodup_seen.subperm hsub).length_le

theorem Walk.sound_empty : Walk.Sound m key {} where
  live := by simp
  nodup_seen := List.nodup_nil
  seen := by simp
  nodup_placed := List.nodup_nil
  leaves_first := by simp

/-- What `step` is to achieve for a type that every open type leads to, if all types that were not
reached yet number fewer than `depth`. -/
def Places (m : Model) (key : GroupKey) (depth : Nat) (step : Walk → TypeId → Walk) : Prop :=
  ∀ w id, w.Sound m key → id ∈ m.liveTypes key → m.types.size < w.seen.length + depth →
    (∀ u, w.Open u → Relation.ReflTransGen (m.Refers key) u id) →
    (step w id).Sound m key ∧ w.Extends (step w id) ∧ id ∈ (step w id).seen

theorem Places.foldl {depth : Nat} {step : Walk → TypeId → Walk} (h : m.Places key depth step)
    {w : Walk} {ids : List TypeId} (hw : w.Sound m key) (hlive : ∀ i ∈ ids, i ∈ m.liveTypes key)
    (hdepth : m.types.size < w.seen.length + depth)
    (hopen : ∀ i ∈ ids, ∀ u, w.Open u → Relation.ReflTransGen (m.Refers key) u i) :
    (ids.foldl step w).Sound m key ∧ w.Extends (ids.foldl step w) ∧
      ∀ i ∈ ids, i ∈ (ids.foldl step w).seen := by
  induction ids generalizing w with
  | nil => exact ⟨hw, ⟨fun _ hu => hu, fun _ => Iff.rfl⟩, by simp⟩
  | cons i ids ih =>
    obtain ⟨hsound, hext, hseen⟩ :=
      h w i hw (hlive i List.mem_cons_self) hdepth (hopen i List.mem_cons_self)
    have hle := hext.length_le hw
    have hrest := ih hsound (fun j hj => hlive j (List.mem_cons_of_mem _ hj)) (by omega)
      fun j hj u hu => hopen j (List.mem_cons_of_mem _ hj) u ((hext.unopened u).mp hu)
    obtain ⟨hsound', hext', hseen'⟩ := hrest
    refine ⟨hsound', hext.trans hext', fun j hj => ?_⟩
    rcases List.mem_cons.mp hj with rfl | hj
    · exact hext'.seen j hseen
    · exact hseen' j hj

theorem Walk.Sound.enter {w : Walk} {id : TypeId} (hw : w.Sound m key)
    (hlive : id ∈ m.liveTypes key) (hid : id ∉ w.seen) :
    Walk.Sound m key { w with seen := id :: w.seen } where
  live := by
    intro u hu
    rcases List.mem_cons.mp hu with rfl | hu
    · exact hlive
    · exact hw.live u hu
  nodup_seen := List.nodup_cons.mpr ⟨hid, hw.nodup_seen⟩
  seen := fun u hu => List.mem_cons_of_mem _ (hw.seen u hu)
  nodup_placed := hw.nodup_placed
  leaves_first := hw.leaves_first

/-- A type may be placed once all it refers to was reached, as what is still open leads to it. -/
theorem Walk.Sound.place {w : Walk} {id : TypeId} (hw : w.Sound m key) (hid : w.Open id)
    (hseen : ∀ v, m.Refers key id v → v ∈ w.seen)
    (hopen : ∀ u, w.Open u → Relation.ReflTransGen (m.Refers key) u id) :
    Walk.Sound m key { w with placed := w.placed ++ [id] } where
  live := hw.live
  nodup_seen := hw.nodup_seen
  seen := by
    intro u hu
    rcases List.mem_append.mp hu with hu | hu
    · exact hw.seen u hu
    · obtain rfl := List.mem_singleton.mp hu
      exact hid.1
  nodup_placed := by
    refine List.nodup_append.mpr ⟨hw.nodup_placed, List.nodup_singleton _, ?_⟩
    rintro a ha b hb rfl
    obtain rfl := List.mem_singleton.mp hb
    exact hid.2 ha
  leaves_first := by
    intro u hu v hv hne
    rcases List.mem_append.mp hu with hu | hu
    · refine (hw.leaves_first u hu v hv hne).imp (fun hs => ?_) fun hs => hs
      exact hs.trans (List.sublist_append_left _ _)
    · obtain rfl := List.mem_singleton.mp hu
      by_cases hplaced : v ∈ w.placed
      · left
        exact (List.singleton_sublist.mpr hplaced).append (List.Sublist.refl [u])
      · right
        have hreach := hopen v ⟨hseen v hv, hplaced⟩
        exact (Relation.reflTransGen_iff_eq_or_transGen.mp hreach).resolve_left hne.symm

theorem WellFormed.resolve_liveTypes (h : m.WellFormed) {id : TypeId}
    (hid : id ∈ m.liveTypes key) : m.resolve id = id :=
  resolve_of_live (isLive_iff.mp (h.mem_liveTypes.mp hid).2)

theorem Walk.open_enter {w : Walk} {id : TypeId} (hout : id ∉ w.placed) (u : TypeId) :
    Walk.Open { w with seen := id :: w.seen } u ↔ u = id ∨ w.Open u := by
  simp only [Walk.Open, List.mem_cons]
  constructor
  · rintro ⟨rfl | hu, hp⟩
    · exact .inl rfl
    · exact .inr ⟨hu, hp⟩
  · rintro (rfl | ⟨hu, hp⟩)
    · exact ⟨.inl rfl, hout⟩
    · exact ⟨.inr hu, hp⟩

theorem WellFormed.places_visit (h : m.WellFormed) (key : GroupKey) (depth : Nat) :
    m.Places key depth (m.visit key depth) := by
  induction depth with
  | zero =>
    intro w id hw _ hdepth _
    have hle := hw.length_le h
    omega
  | succ depth ih =>
    intro w id hw hlive hdepth hopen
    simp only [visit, h.resolve_liveTypes hlive, List.contains_eq_mem, decide_eq_true_eq]
    by_cases hid : id ∈ w.seen
    · rw [if_pos hid]
      exact ⟨hw, ⟨fun _ hu => hu, fun _ => Iff.rfl⟩, hid⟩
    rw [if_neg hid]
    have hgroup := (h.mem_liveTypes.mp hlive).1
    have hout : id ∉ w.placed := fun hn => hid (hw.seen id hn)
    have hentered := Walk.open_enter hout
    have hreach : ∀ u, u = id ∨ w.Open u → Relation.ReflTransGen (m.Refers key) u id := by
      rintro u (rfl | hu)
      · exact .refl
      · exact hopen u hu
    have hbelow : ∀ v ∈ m.dependencies key id, v ∈ m.liveTypes key := fun v => h.dependencies_live
    obtain ⟨hsound, hext, hseen⟩ := ih.foldl (hw.enter hlive hid) hbelow
      (by simp only [List.length_cons]; omega)
      fun v hv u hu => (hreach u ((hentered u).mp hu)).tail (refers_iff.mpr ⟨hgroup, hv⟩)
    have hunopened := fun u => (hext.unopened u).trans (hentered u)
    have hplaced := hsound.place ((hunopened id).mpr (.inl rfl))
      (fun v hv => hseen v (refers_iff.mp hv).2) fun u hu => hreach u ((hunopened u).mp hu)
    refine ⟨hplaced, ⟨fun u hu => hext.seen u (List.mem_cons_of_mem _ hu), fun u => ?_⟩,
      hext.seen id List.mem_cons_self⟩
    have hu := hunopened u
    simp only [Walk.Open, List.mem_append, List.mem_singleton, not_or] at hu ⊢
    constructor
    · rintro ⟨hs, hp, hne⟩
      exact (hu.mp ⟨hs, hp⟩).resolve_left hne
    · intro hw'
      have hne : u ≠ id := by
        rintro rfl
        exact hid hw'.1
      obtain ⟨hs, hp⟩ := hu.mpr (.inr hw')
      exact ⟨hs, hp, hne⟩

/-- The types of a group in an order in which each stands after those it refers to, except where
these lead back to it. -/
structure LeavesFirst (m : Model) (key : GroupKey) (types : List TypeId) : Prop where
  mem : ∀ u, u ∈ types ↔ m.groupOf? u = some key ∧ m.isLive u = true
  nodup : types.Nodup
  before : ∀ u ∈ types, ∀ v, m.Refers key u v → v ≠ u →
    [v, u].Sublist types ∨ Relation.TransGen (m.Refers key) v u

theorem LeavesFirst.topological {types : List TypeId} (h : m.LeavesFirst key types)
    (hacyclic : ∀ u, ¬Relation.TransGen (m.Refers key) u u) {u v : TypeId} (hu : u ∈ types)
    (hv : m.Refers key u v) : [v, u].Sublist types := by
  have hne : v ≠ u := by
    rintro rfl
    exact hacyclic v (.single hv)
  rcases h.before u hu v hv hne with hs | hr
  · exact hs
  · exact absurd (hr.tail hv) (hacyclic v)

theorem WellFormed.leavesFirst_dependencyOrder (h : m.WellFormed) (key : GroupKey) :
    m.LeavesFirst key (m.dependencyOrder key) := by
  have hmem : ∀ u, u ∈ (m.liveTypes key).mergeSort (fun a b => m.nameOrder a b != .gt) ↔
      u ∈ m.liveTypes key := fun u => (List.mergeSort_perm _ _).mem_iff
  obtain ⟨hsound, hext, hseen⟩ := (h.places_visit key (m.types.size + 1)).foldl Walk.sound_empty
    (fun i hi => (hmem i).mp hi) (by simp) fun i _ u hu => absurd hu.1 (by simp)
  refine ⟨fun u => ⟨fun hu => ?_, fun hu => ?_⟩, hsound.nodup_placed, hsound.leaves_first⟩
  · exact h.mem_liveTypes.mp (hsound.live u (hsound.seen u hu))
  · by_contra hp
    have hopen := (hext.unopened u).mp ⟨hseen u ((hmem u).mpr (h.mem_liveTypes.mpr hu)), hp⟩
    simp [Walk.Open] at hopen

/-! The order in the finalized model. -/

theorem Mentions.congr {m' : Model} (hnamed : ∀ name, m.named? key name = m'.named? key name)
    (hresolve : ∀ id v, m.resolve id = v → m.groupOf? v = some key →
      m'.resolve id = v ∧ m'.groupOf? v = some key)
    {e : TypeExpr} {v : TypeId} (h : m.Mentions key e v) : m'.Mentions key e v := by
  induction h with
  | @type id v hv hg =>
    obtain ⟨hv', hg'⟩ := hresolve id v hv hg
    exact .type hv' hg'
  | @ref q v hq hv => exact .ref hq ((hnamed q.name).symm.trans hv)
  | list _ ih => exact .list ih
  | map _ ih => exact .map ih
  | union he _ ih => exact .union he ih

theorem Spares.mentions {m' : Model} (h : Spares key m m') (hm : m.WellFormed) {e : TypeExpr}
    {v : TypeId} : m'.Mentions key e v ↔ m.Mentions key e v := by
  constructor
  · refine Mentions.congr h.named? fun id v hv hg => ?_
    have hid : m.groupOf? id = some key := by
      rw [← h.groupOf?, ← h.wellFormed.groupOf?_resolve, hv, hg]
    exact ⟨(h.resolve hm hid).symm.trans hv, (h.groupOf? v).symm.trans hg⟩
  · refine Mentions.congr (fun name => (h.named? name).symm) fun id v hv hg => ?_
    have hid : m.groupOf? id = some key := by rw [← hm.groupOf?_resolve, hv, hg]
    exact ⟨(h.resolve hm hid).trans hv, (h.groupOf? v).trans hg⟩

theorem Spares.refers {m' : Model} (h : Spares key m m') (hm : m.WellFormed) :
    m'.Refers key = m.Refers key := by
  funext u v
  apply propext
  simp only [Refers, h.mentions hm]
  have hentry : ∀ t : TypeEntry, t.group = key →
      (m'.types[u]? = some t ↔ m.types[u]? = some t) := by
    intro t hg
    have hiff : m'.groupOf? u = some key ↔ m.groupOf? u = some key := by rw [h.groupOf?]
    constructor
    · intro ht
      have hk : m.groupOf? u = some key := hiff.mp (by rw [Model.groupOf?, ht, Option.map_some, hg])
      rwa [← h.types u hk]
    · intro ht
      have hk : m.groupOf? u = some key := by rw [Model.groupOf?, ht, Option.map_some, hg]
      rwa [h.types u hk]
  constructor
  · rintro ⟨t, ht, hg, hr⟩
    exact ⟨t, (hentry t hg).mp ht, hg, hr⟩
  · rintro ⟨t, ht, hg, hr⟩
    exact ⟨t, (hentry t hg).mpr ht, hg, hr⟩

theorem refers_setFinalized {g : Group} {view : FinalizedGroup} (hg : m.group? key = some g) :
    (m.setFinalized key g view).Refers key = m.Refers key := by
  have hnamed : ∀ name, (m.setFinalized key g view).named? key name = m.named? key name :=
    named?_setFinalized hg key
  have hmentions : ∀ e v, (m.setFinalized key g view).Mentions key e v ↔ m.Mentions key e v := by
    intro e v
    constructor
    · refine Mentions.congr hnamed fun i _ hv hk => ⟨?_, hk⟩
      rwa [← resolve_setFinalized i]
    · refine Mentions.congr (fun name => (hnamed name).symm) fun i _ hv hk => ⟨?_, hk⟩
      rwa [resolve_setFinalized i]
  funext u v
  simp only [Refers, hmentions]
  rfl

/-- Finalizing puts the live types of each group, each once, in an order in which a type stands after
those that it refers to, except where these lead back to it; without cycles, after all of them. -/
theorem finalize_leaves_first (cs : List Change) {key : GroupKey}
    (hkey : key ∈ (ofChanges cs).keys) :
    ∃ view, (ofChanges cs).finalize.finalized? key = some view ∧
      (ofChanges cs).finalize.LeavesFirst key view.types ∧
      ((∀ u, ¬Relation.TransGen ((ofChanges cs).finalize.Refers key) u u) →
        ∀ u ∈ view.types, ∀ v, (ofChanges cs).finalize.Refers key u v →
          [v, u].Sublist view.types) := by
  have hwf := wellFormed_ofChanges cs
  obtain ⟨before, g, hbefore, hg, -, hafter⟩ := hwf.finalized_group hkey
  have hreconcile := hbefore.reconcile hg
  have hg' := (hbefore.group?_reconcile hg key).trans hg
  have horder := hreconcile.leavesFirst_dependencyOrder key
  have hrefers : (ofChanges cs).finalize.Refers key = (before.reconcile g).Refers key := by
    rw [hafter.refers (hbefore.finalizeGroup key), finalizeGroup_eq hg, refers_setFinalized hg']
  have hfinalized : (ofChanges cs).finalize.finalized? key = some
      ((before.reconcile g).viewOf key ((before.reconcile g).dependencyOrder key)) := by
    rw [hafter.finalized?, finalizeGroup_eq hg, finalized?, group?_setFinalized, if_pos rfl]
    rfl
  have hlive : ∀ u, (ofChanges cs).finalize.groupOf? u = some key ∧
      (ofChanges cs).finalize.isLive u = true ↔
        (before.reconcile g).groupOf? u = some key ∧ (before.reconcile g).isLive u = true := by
    intro u
    rw [hafter.groupOf?, finalizeGroup_eq hg]
    refine and_congr_right fun hk => ?_
    have htypes := hafter.types u (by rw [finalizeGroup_eq hg]; exact hk)
    rw [isLive, isLive, htypes, finalizeGroup_eq hg]
    rfl
  have hfirst : (ofChanges cs).finalize.LeavesFirst key
      ((before.reconcile g).dependencyOrder key) := by
    refine ⟨fun u => (horder.mem u).trans (hlive u).symm, horder.nodup, ?_⟩
    rw [hrefers]
    exact horder.before
  exact ⟨_, hfinalized, hfirst, fun hacyclic u hu v hv => hfirst.topological hacyclic hu hv⟩

theorem finalize_leaves_first_pod :
    let core : GroupKey := ⟨"core", some "v1"⟩
    let owners : TypeExpr := .list (.ref ⟨"Pod", "core", some "v1"⟩)
    let cs : List Change :=
      [.registerNamed core "Pod" .resource none, .registerAnonymous 0 "spec" none none,
        .setProperties 0 [{ name := "spec", type := .type 1, required := true }],
        .setProperties 1 [{ name := "owners", type := owners, required := false }]]
    core ∈ (ofChanges cs).keys ∧ ∃ view, (ofChanges cs).finalize.finalized? core = some view ∧
      (ofChanges cs).finalize.LeavesFirst core view.types := by
  intro core owners cs
  have hkey : core ∈ (ofChanges cs).keys := by decide
  obtain ⟨view, hview, hfirst, -⟩ := finalize_leaves_first cs hkey
  exact ⟨hkey, view, hview, hfirst⟩

end Model

end SchemaCompiler
