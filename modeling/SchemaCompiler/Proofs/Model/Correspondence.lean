import SchemaCompiler.Proofs.Model.LeastMerge
import SchemaCompiler.Proofs.Model.LeavesFirst
import SchemaCompiler.Proofs.Model.UniqueName

/-! Groups of two models whose types correspond. Classes of equal objects that correspond are named
alike as far as names decide which comes first, and then the types of the groups come in the same
order. -/

namespace SchemaCompiler

/-! Lists that are sorted by keys. -/

theorem map_mergeSort_eq {α β κ : Type} (cmp : κ → κ → Ordering) [Std.TransCmp cmp]
    (hcmp : ∀ k k', cmp k k' = .eq → k = k') (key : α → κ) (key' : β → κ) {le : α → α → Bool}
    {le' : β → β → Bool} {as : List α} {bs : List β}
    (has : ∀ a ∈ as, ∀ b ∈ as, le a b = (cmp (key a) (key b) != .gt))
    (hbs : ∀ a ∈ bs, ∀ b ∈ bs, le' a b = (cmp (key' a) (key' b) != .gt))
    (hperm : (bs.map key').Perm (as.map key)) :
    (bs.mergeSort le').map key' = (as.mergeSort le).map key := by
  have hsort := List.map_mergeSort (s := fun k k' => cmp k k' != .gt) has
  have hsort' := List.map_mergeSort (s := fun k k' => cmp k k' != .gt) hbs
  rw [hsort, hsort']
  refine List.Perm.eq_of_pairwise (fun a b _ _ hab hba => ?_) (pairwise_sorted cmp _) (pairwise_sorted cmp _)
    (((List.mergeSort_perm _ _).trans hperm).trans (List.mergeSort_perm _ _).symm)
  rw [ne_gt_iff] at *
  exact hcmp a b (Std.OrientedCmp.isLE_antisymm hab hba)

theorem eq_map_of_map_eq {α β κ : Type} {key : α → κ} {key' : β → κ} {φ : α → β} {as : List α}
    {bs : List β} (h : bs.map key' = as.map key)
    (hφ : ∀ a ∈ as, ∀ b ∈ bs, key' b = key a → b = φ a) : bs = as.map φ := by
  induction bs generalizing as with
  | nil =>
    cases as with
    | nil => rfl
    | cons a as => simp at h
  | cons b bs ih =>
    cases as with
    | nil => simp at h
    | cons a as =>
      simp only [List.map_cons, List.cons.injEq] at h
      have hfirst := hφ a List.mem_cons_self b List.mem_cons_self h.1
      have hrest := ih h.2 fun a ha b hb =>
        hφ a (List.mem_cons_of_mem _ ha) b (List.mem_cons_of_mem _ hb)
      rw [List.map_cons, ← hfirst, ← hrest]

theorem TypeEntry.eq_of_unnamed {t t' : TypeEntry} (h : t'.unnamed = t.unnamed)
    (hname : t'.name = t.name) : t' = { t with qualified := t'.qualified } := by
  have hboth : t' = { t'.unnamed with name := t'.name, qualified := t'.qualified } := rfl
  rw [h, hname] at hboth
  exact hboth

namespace Model

variable {m m' : Model} {f : TypeId → TypeId} {members members' : List TypeId}

/-! Buckets that are merged alike. -/

theorem standIn_correspond (hmem : ∀ j, j ∈ members' ↔ ∃ i ∈ members, f i = j)
    (hlive : ∀ i ∈ members, m'.isLive (f i) = m.isLive i)
    (hstructure : ∀ i ∈ members, ∀ j ∈ members,
      m'.structureOf (f i) = m'.structureOf (f j) ↔ m.structureOf i = m.structureOf j)
    (hprecedes : ∀ i ∈ members, ∀ j ∈ members, m'.precedes (f i) (f j) = m.precedes i j)
    {id : TypeId} (hid : id ∈ members) :
    m'.standIn members' (f id) = f (m.standIn members id) := by
  have hid' : f id ∈ members' := (hmem _).mpr ⟨id, hid, rfl⟩
  by_cases hl : m.isLive id = true
  · have hl' : m'.isLive (f id) = true := by rwa [hlive id hid]
    obtain ⟨hs, hsl, hss⟩ := standIn_mem hid hl
    obtain ⟨hs', hsl', hss'⟩ := standIn_mem hid' hl'
    obtain ⟨j, hj, hfj⟩ := (hmem _).mp hs'
    rw [← hfj] at hsl' hss'
    rw [hlive j hj] at hsl'
    rw [hstructure j hj id hid] at hss'
    -- neither stand-in precedes the other
    have hleft : m.precedes j (m.standIn members id) = false :=
      not_precedes_standIn hid hl hj hsl' hss'
    have hright : m'.precedes (f (m.standIn members id)) (m'.standIn members' (f id)) = false := by
      refine not_precedes_standIn hid' hl' ((hmem _).mpr ⟨_, hs, rfl⟩) ?_ ?_
      · rw [hlive _ hs, hsl]
      · rw [hstructure _ hs id hid, hss]
    rw [← hfj, hprecedes _ hs j hj] at hright
    by_contra hne
    have hdiff : j ≠ m.standIn members id := by
      rintro he
      rw [← hfj, ← he] at hne
      exact hne rfl
    rcases precedes_or (m := m) hdiff with hp | hp
    · simp [hleft] at hp
    · simp [hright] at hp
  · have hl' : ¬m'.isLive (f id) = true := by rwa [hlive id hid]
    rw [standIn_of_not fun h => hl h.2, standIn_of_not fun h => hl' h.2]

/-- Rounds over corresponding buckets go on for as long. -/
theorem mergeRounds_correspond {R : Model → Model → Prop} {bs bs' : List (List TypeId)}
    (hstep : List.Forall₂ (fun b b' => ∀ m m', R m m' → R (m.mergeBucket b) (m'.mergeBucket b'))
      bs bs')
    (hcount : ∀ m m', R m m' → m'.liveCount bs'.flatten = m.liveCount bs.flatten) (n : Nat)
    (h : R m m') : R (mergeRounds bs n m) (mergeRounds bs' n m') := by
  have hround : ∀ m m', R m m' → R (m.mergeRound bs) (m'.mergeRound bs') := by
    clear h hcount
    induction hstep with
    | nil => exact fun _ _ h => h
    | cons hb _ ih => exact fun m m' h => ih _ _ (hb m m' h)
  induction n generalizing m m' with
  | zero => exact h
  | succ n ih =>
    have hnext := hround m m' h
    rw [mergeRounds, mergeRounds, hcount _ _ h, hcount _ _ hnext]
    split
    · exact hnext
    · exact ih hnext

/-- Naming corresponding types alike keeps entries that correspond by `F`, which leaves names alone. -/
theorem getElem?_assignNames_correspond {F : TypeEntry → TypeEntry}
    (hF : ∀ t n, F { t with name := n } = { F t with name := n }) (hf : Function.Injective f)
    {i : TypeId} (h : m'.types[f i]? = (m.types[i]?).map F) (names : List (TypeId × String)) :
    (m'.assignNames (names.map (Prod.map f id))).types[f i]? =
      ((m.assignNames names).types[i]?).map F := by
  induction names generalizing m m' with
  | nil => exact h
  | cons e names ih =>
    have hcons : ∀ (m : Model) (e : TypeId × String) names, m.assignNames (e :: names) =
        (m.amend e.1 fun t => { t with name := e.2 }).assignNames names := fun _ _ _ => rfl
    rw [List.map_cons, hcons, hcons]
    refine ih ?_
    rw [getElem?_amend, getElem?_amend]
    have hsame : f i = (Prod.map f id e).1 ↔ i = e.1 := ⟨fun he => hf he, fun he => congrArg f he⟩
    by_cases he : i = e.1
    · rw [if_pos he, if_pos (hsame.mpr he), h]
      cases m.types[i]? with
      | none => rfl
      | some t => exact congrArg some (hF t e.2).symm
    · rw [if_neg he, if_neg fun h => he (hsame.mp h), h]

/-- The entries once equal objects are merged and merged ones have taken over a full name. -/
theorem WellFormed.getElem?_mergeEquals (h : m.WellFormed) {key : GroupKey} {g : Group}
    (hg : m.group? key = some g) (i : TypeId) :
    (m.mergeEquals (Table.values g.anonymous)).types[i]? =
      ((m.merging g).types[i]?).map fun t =>
        if (m.merging g).isLive i = true then t
        else if i ∈ g.objects then
          { t with
            qualified := (((m.merging g).types[(m.merging g).resolve i]?).map
              TypeEntry.qualified).getD "" }
        else t := by
  have hqualified := h.map_qualified_mergeEquals hg i
  have hname := map_name_shared g.objects (m.merging g) i
  have hunnamed := (m.mergeEquals_renames g).entries i
  change ((m.mergeEquals (Table.values g.anonymous)).types[i]?).map _ = _ at hname
  cases ht : (m.merging g).types[i]? with
  | none =>
    rw [ht, Option.map_none, Option.map_eq_none_iff] at hname
    rw [hname, Option.map_none]
  | some t =>
    rw [ht, Option.map_some] at hname hunnamed
    obtain ⟨t', ht', hn⟩ := Option.map_eq_some_iff.mp hname
    rw [ht', Option.map_some, Option.some.injEq] at hunnamed
    rw [ht', ht, Option.map_some, Option.map_some] at hqualified
    rw [ht', Option.map_some, Option.some.injEq]
    refine (TypeEntry.eq_of_unnamed hunnamed hn).trans ?_
    by_cases hl : (m.merging g).isLive i = true
    · rw [if_neg (by simp [hl]), Option.some.injEq] at hqualified
      rw [if_pos hl, hqualified]
    · rw [if_neg hl]
      by_cases hi : i ∈ g.objects
      · rw [if_pos ⟨hi, by simpa using hl⟩] at hqualified
        rw [if_pos hi, ← hqualified, Option.getD_some]
      · rw [if_neg fun hn => hi hn.1, Option.some.injEq] at hqualified
        rw [if_neg hi, hqualified]

end Model

/-! Classes that are named in the same order. -/

namespace TypeExpr

mutual

theorem order_self : ∀ e : TypeExpr, e.order e = .eq
  | primitive _ => by simp [order]
  | wellKnown _ => by simp [order]
  | type _ => by simp [order]
  | ref q => by
    have hversion : optionOrder q.version q.version = .eq := by
      rw [optionOrder_eq_compare]
      exact Std.ReflCmp.compare_self
    simp [order, QualifiedName.order, hversion]
  | bareList => by simp [order]
  | list e => by rw [order, order_self e]
  | bareMap => by simp [order]
  | map e => by rw [order, order_self e]
  | union es => by rw [order, orderAll_self es]

theorem orderAll_self : ∀ es : List TypeExpr, orderAll es es = .eq
  | [] => rfl
  | e :: es => by rw [orderAll, order_self e, orderAll_self es]; rfl

end

end TypeExpr

theorem structureOrder_self (s : Structure) : structureOrder s s = .eq := by
  induction s with
  | nil => rfl
  | cons p s ih => simp [structureOrder, TypeExpr.order_self, ih]

/-- What decides which of two classes is named first before their contents are looked at. -/
abbrev ClassRank := Nat × Bool × String

namespace ClassRank

def order (a b : ClassRank) : Ordering :=
  (compare b.1 a.1).then ((compare b.2.1 a.2.1).then (compare a.2.2 b.2.2))

instance : Std.TransCmp order :=
  have : Std.TransCmp fun a b : ClassRank => compareOn (fun r : ClassRank => r.1) b a :=
    Std.TransCmp.opposite
  have : Std.TransCmp fun a b : ClassRank => compareOn (fun r : ClassRank => r.2.1) b a :=
    Std.TransCmp.opposite
  inferInstanceAs (Std.TransCmp (compareLex (fun a b => compareOn (fun r : ClassRank => r.1) b a)
    (compareLex (fun a b => compareOn (fun r : ClassRank => r.2.1) b a)
      (compareOn fun r : ClassRank => r.2.2))))

theorem eq_of_order {a b : ClassRank} (h : order a b = .eq) : a = b := by
  obtain ⟨hsize, hrest⟩ := Ordering.then_eq_eq.mp h
  obtain ⟨huniform, hname⟩ := Ordering.then_eq_eq.mp hrest
  have h₁ := Std.LawfulEqOrd.eq_of_compare hsize
  have h₂ := Std.LawfulEqOrd.eq_of_compare huniform
  have h₃ := Std.LawfulEqOrd.eq_of_compare hname
  exact Prod.ext h₁.symm (Prod.ext h₂.symm h₃)

end ClassRank

namespace AnonymousClass

def rank (c : AnonymousClass) : ClassRank := (c.size, c.uniform, c.fullName)

theorem order_of_rank_ne {a b : AnonymousClass} (h : a.rank ≠ b.rank) :
    a.order b = a.rank.order b.rank := by
  have hne : a.rank.order b.rank ≠ .eq := fun he => h (ClassRank.eq_of_order he)
  have hparts : a.order b = (a.rank.order b.rank).then
      ((structureOrder a.content b.content).then (compare a.retained b.retained)) := by
    simp [order, rank, ClassRank.order, Ordering.then_assoc]
  rw [hparts]
  cases ho : a.rank.order b.rank with
  | eq => exact absurd ho hne
  | lt => rfl
  | gt => rfl

theorem order_self (c : AnonymousClass) : c.order c = .eq := by
  simp [order, structureOrder_self]

/-- A class without its content, for the type that `φ` gives for the one that stands for it. -/
def retains (φ : TypeId → TypeId) (c : AnonymousClass) : AnonymousClass :=
  { c with retained := φ c.retained, content := [] }

end AnonymousClass

namespace Model

variable {m m' : Model} {key : GroupKey} {g : Group} {φ : TypeId → TypeId}
  {members members' : List TypeId}

theorem rank_classOf (m : Model) (members : List TypeId) (r : TypeId) :
    (m.classOf members r).rank = (members.countP (m.resolve · == r),
      members.all (fun i => !(m.resolve i == r) || m.fullNameOf i == m.fullNameOf r),
      m.fullNameOf r) := by
  simp [AnonymousClass.rank, classOf, List.countP_eq_length_filter, List.all_filter]

/-- Classes with the same members and full names rank alike. -/
theorem rank_classOf_eq (hperm : (members'.map fun i => (m'.resolve i, m'.fullNameOf i)).Perm
      (members.map fun i => (φ (m.resolve i), m.fullNameOf i)))
    {r : TypeId} (hinj : ∀ i ∈ members, φ (m.resolve i) = φ r → m.resolve i = r)
    (hfull : m'.fullNameOf (φ r) = m.fullNameOf r) :
    (m'.classOf members' (φ r)).rank = (m.classOf members r).rank := by
  have hsame : ∀ i ∈ members, (φ (m.resolve i) == φ r) = (m.resolve i == r) := by
    intro i hi
    rw [Bool.eq_iff_iff, beq_iff_eq, beq_iff_eq]
    exact ⟨hinj i hi, fun h => by rw [h]⟩
  have hsize : members'.countP (m'.resolve · == φ r) = members.countP (m.resolve · == r) := by
    have hcount := hperm.countP_eq fun e => e.1 == φ r
    rw [List.countP_map, List.countP_map] at hcount
    exact hcount.trans (List.countP_congr fun i hi => by simp [hsame i hi])
  have huniform : members'.all (fun i => !(m'.resolve i == φ r) || m'.fullNameOf i == m.fullNameOf r) =
      members.all (fun i => !(m.resolve i == r) || m.fullNameOf i == m.fullNameOf r) := by
    have hall := hperm.all_eq (f := fun e => !(e.1 == φ r) || e.2 == m.fullNameOf r)
    rw [List.all_map, List.all_map] at hall
    refine hall.trans ?_
    rw [Bool.eq_iff_iff, List.all_eq_true, List.all_eq_true]
    refine forall₂_congr fun i hi => ?_
    simp only [Function.comp, hsame i hi]
  rw [rank_classOf, rank_classOf, hfull, hsize, huniform]

/-- No two classes of a bucket rank alike. -/
def Untied (m : Model) (members : List TypeId) : Prop :=
  ∀ i ∈ members, ∀ j ∈ members,
    (m.classOf members (m.resolve i)).rank = (m.classOf members (m.resolve j)).rank →
      m.resolve i = m.resolve j

theorem Untied.order_classes (h : m.Untied members) {a b : AnonymousClass}
    (ha : a ∈ (setOf (members.map m.resolve)).map (m.classOf members))
    (hb : b ∈ (setOf (members.map m.resolve)).map (m.classOf members)) :
    (a.order b != .gt) = (a.rank.order b.rank != .gt) := by
  by_cases hrank : a.rank = b.rank
  · obtain ⟨r, hr, rfl⟩ := List.mem_map.mp ha
    obtain ⟨s, hs, rfl⟩ := List.mem_map.mp hb
    obtain ⟨i, hi, rfl⟩ := List.mem_map.mp (mem_setOf.mp hr)
    obtain ⟨j, hj, rfl⟩ := List.mem_map.mp (mem_setOf.mp hs)
    have hself : ∀ c : ClassRank, c.order c = .eq := fun _ => Std.ReflCmp.compare_self
    rw [h i hi j hj hrank, AnonymousClass.order_self, hself]
  · rw [AnonymousClass.order_of_rank_ne hrank]

/-- The objects of a bucket of `m'` are merged as those of a bucket of `m` are, where the type that `φ`
gives for one that stands for others there stands for them here. -/
structure MergedAlike (φ : TypeId → TypeId) (m m' : Model) (members members' : List TypeId) : Prop where
  perm : (members'.map fun i => (m'.resolve i, m'.fullNameOf i)).Perm
    (members.map fun i => (φ (m.resolve i), m.fullNameOf i))
  injective : ∀ i ∈ members, ∀ j ∈ members, φ (m.resolve i) = φ (m.resolve j) →
    m.resolve i = m.resolve j
  fullName : ∀ i ∈ members, m'.fullNameOf (φ (m.resolve i)) = m.fullNameOf (m.resolve i)

section MergedAlike

variable (h : MergedAlike φ m m' members members')

include h

theorem MergedAlike.rank {i : TypeId} (hi : i ∈ members) :
    (m'.classOf members' (φ (m.resolve i))).rank = (m.classOf members (m.resolve i)).rank :=
  rank_classOf_eq h.perm (fun j hj hij => h.injective j hj i hi hij) (h.fullName i hi)

theorem MergedAlike.perm_resolve :
    (members'.map m'.resolve).Perm (members.map fun i => φ (m.resolve i)) := by
  have hfirst := h.perm.map Prod.fst
  rwa [List.map_map, List.map_map] at hfirst

theorem MergedAlike.exists_member {i : TypeId} (hi : i ∈ members') :
    ∃ j ∈ members, φ (m.resolve j) = m'.resolve i :=
  List.mem_map.mp (h.perm_resolve.mem_iff.mp (List.mem_map_of_mem hi))

theorem MergedAlike.perm_retained :
    (setOf (members'.map m'.resolve)).Perm ((setOf (members.map m.resolve)).map φ) := by
  refine (List.perm_ext_iff_of_nodup (nodup_setOf _) ?_).mpr fun r => ?_
  · refine List.Nodup.map_on (fun r hr s hs hrs => ?_) (nodup_setOf _)
    obtain ⟨i, hi, rfl⟩ := List.mem_map.mp (mem_setOf.mp hr)
    obtain ⟨j, hj, rfl⟩ := List.mem_map.mp (mem_setOf.mp hs)
    exact h.injective i hi j hj hrs
  · rw [mem_setOf, h.perm_resolve.mem_iff, List.mem_map, List.mem_map]
    constructor
    · rintro ⟨i, hi, rfl⟩
      exact ⟨_, mem_setOf.mpr (List.mem_map_of_mem hi), rfl⟩
    · rintro ⟨s, hs, rfl⟩
      obtain ⟨i, hi, rfl⟩ := List.mem_map.mp (mem_setOf.mp hs)
      exact ⟨i, hi, rfl⟩

theorem MergedAlike.perm_ranks :
    (((setOf (members'.map m'.resolve)).map (m'.classOf members')).map AnonymousClass.rank).Perm
      (((setOf (members.map m.resolve)).map (m.classOf members)).map AnonymousClass.rank) := by
  rw [List.map_map, List.map_map]
  refine (h.perm_retained.map _).trans (List.Perm.of_eq ?_)
  rw [List.map_map]
  refine List.map_congr_left fun r hr => ?_
  obtain ⟨i, hi, rfl⟩ := List.mem_map.mp (mem_setOf.mp hr)
  exact h.rank hi

theorem MergedAlike.untied (huntied : m.Untied members) : m'.Untied members' := by
  intro i hi j hj hij
  obtain ⟨a, ha, hai⟩ := h.exists_member hi
  obtain ⟨b, hb, hbj⟩ := h.exists_member hj
  rw [← hai, ← hbj, h.rank ha, h.rank hb] at hij
  rw [← hai, ← hbj, huntied a ha b hb hij]

theorem classesOf_correspond (huntied : m.Untied members) :
    (m'.classesOf members').map (AnonymousClass.retains id) =
      (m.classesOf members).map (AnonymousClass.retains φ) := by
  have hsorted := map_mergeSort_eq ClassRank.order (fun _ _ => ClassRank.eq_of_order)
    AnonymousClass.rank AnonymousClass.rank (fun a ha b hb => huntied.order_classes ha hb)
    (fun a ha b hb => (h.untied huntied).order_classes ha hb) h.perm_ranks
  have hclass : m'.classesOf members' = (m.classesOf members).map fun c =>
      m'.classOf members' (φ c.retained) := by
    refine eq_map_of_map_eq hsorted fun c hc c' hc' hcc' => ?_
    obtain ⟨r, hr, rfl⟩ := List.mem_map.mp (List.mem_mergeSort.mp hc)
    obtain ⟨r', hr', rfl⟩ := List.mem_map.mp (List.mem_mergeSort.mp hc')
    obtain ⟨i, hi, rfl⟩ := List.mem_map.mp (mem_setOf.mp hr)
    obtain ⟨i', hi', rfl⟩ := List.mem_map.mp (mem_setOf.mp hr')
    obtain ⟨j, hj, hij⟩ := h.exists_member hi'
    rw [← hij, h.rank hj] at hcc'
    rw [← hij, huntied j hj i hi hcc']
    rfl
  rw [hclass, List.map_map]
  refine List.map_congr_left fun c hc => ?_
  obtain ⟨r, hr, rfl⟩ := List.mem_map.mp (List.mem_mergeSort.mp hc)
  obtain ⟨i, hi, rfl⟩ := List.mem_map.mp (mem_setOf.mp hr)
  have hparts := h.rank hi
  simp only [AnonymousClass.rank, Prod.mk.injEq] at hparts
  obtain ⟨hsize, huniform, hname⟩ := hparts
  simp only [Function.comp, AnonymousClass.retains, id]
  congr 1

end MergedAlike

/-! Names. -/

theorem furtherNames_retains (short : String) (taken : List String) (cs : List AnonymousClass) :
    furtherNames short taken (cs.map (AnonymousClass.retains φ)) =
      (furtherNames short taken cs).map (Prod.map φ id) := by
  induction cs generalizing taken with
  | nil => rfl
  | cons c rest ih =>
    simp only [List.map_cons, furtherNames, ih]
    rfl

theorem classNames_retains (short : String) (taken : List String) (cs : List AnonymousClass) :
    classNames short taken (cs.map (AnonymousClass.retains φ)) =
      (classNames short taken cs).map (Prod.map φ id) := by
  cases cs with
  | nil => rfl
  | cons c rest =>
    simp only [List.map_cons, classNames, furtherNames_retains, List.isEmpty_map]
    rfl

theorem groupNames_correspond {t t' : Table String (List TypeId)}
    (h : List.Forall₂ (fun b b' => b'.1 = b.1 ∧
      (m'.classesOf b'.2).map (AnonymousClass.retains id) =
        (m.classesOf b.2).map (AnonymousClass.retains φ)) t t') (taken : List String) :
    m'.groupNames taken t' = (m.groupNames taken t).map (Prod.map φ id) := by
  induction h generalizing taken with
  | nil => rfl
  | @cons b b' t t' hb _ ih =>
    have hnames := (classNames_retains (φ := id) b'.1 taken (m'.classesOf b'.2)).symm
    rw [Prod.map_id, List.map_id, hb.1, hb.2, classNames_retains] at hnames
    simp only [groupNames, hb.1, hnames, ih, List.map_append, List.map_map]
    rfl

theorem WellFormed.namings_congr (h : m.WellFormed) (hg : m.group? key = some g)
    (hclasses : ∀ short, (m'.merging g).classesOf ((m.merging g).bucket key short) =
      (m.merging g).classesOf ((m.merging g).bucket key short)) : m'.namings g = m.namings g := by
  rw [Model.namings, Model.namings, groupNames_congr (mergeEquals_renames m' g),
    groupNames_congr (mergeEquals_renames m g)]
  have hretained : List.Forall₂ (fun b b' => b'.1 = b.1 ∧
      ((m'.merging g).classesOf b'.2).map (AnonymousClass.retains id) =
        ((m.merging g).classesOf b.2).map (AnonymousClass.retains id)) g.anonymous g.anonymous := by
    refine List.forall₂_same.mpr fun b hb => ⟨rfl, ?_⟩
    have hbucket : (m.merging g).bucket key b.1 = b.2 := by
      rw [(h.merging hg).bucket, bucket_of_group? hg, (h.anonymous_ordered hg).get?_of_mem hb,
        Option.getD_some]
    rw [← hbucket, hclasses]
  rw [groupNames_correspond hretained, Prod.map_id, List.map_id]

/-! Order. -/

/-- The live types of a group of `m` correspond by `φ` to those of the group of `m'`, and so do the
types they depend on and what else the order and the output depend on, except for names. -/
structure Corresponds (φ : TypeId → TypeId) (key : GroupKey) (m m' : Model) : Prop where
  source : m.WellFormed
  target : m'.WellFormed
  size : m'.types.size = m.types.size
  mem_live : ∀ {u}, u ∈ m'.liveTypes key ↔ ∃ v ∈ m.liveTypes key, φ v = u
  injective : ∀ {u v}, u ∈ m.liveTypes key → v ∈ m.liveTypes key → φ u = φ v → u = v
  dependencies : ∀ u ∈ m.liveTypes key, m'.dependencies key (φ u) = (m.dependencies key u).map φ
  foreign : ∀ u ∈ m.liveTypes key, (m'.leavesOf (φ u)).filterMap (m'.foreignGroup? key) =
    (m.leavesOf u).filterMap (m.foreignGroup? key)
  generics : ∀ u ∈ m.liveTypes key, (m'.exprsOf (φ u)).flatMap TypeExpr.generics =
    (m.exprsOf u).flatMap TypeExpr.generics
  baseNames : ∀ u ∈ m.liveTypes key, m'.baseNamesOf (φ u) = m.baseNamesOf u

def Walk.mapIds (φ : TypeId → TypeId) (w : Walk) : Walk := ⟨w.seen.map φ, w.placed.map φ⟩

variable {w : Walk} {id : TypeId}

theorem foldl_visit {depth : Nat}
    (hvisit : ∀ {w id}, (∀ u ∈ w.seen, u ∈ m.liveTypes key) → id ∈ m.liveTypes key →
      m'.visit key depth (w.mapIds φ) (φ id) = (m.visit key depth w id).mapIds φ ∧
        ∀ u ∈ (m.visit key depth w id).seen, u ∈ m.liveTypes key)
    (hw : ∀ u ∈ w.seen, u ∈ m.liveTypes key) (ids : List TypeId)
    (hids : ∀ i ∈ ids, i ∈ m.liveTypes key) :
    (ids.map φ).foldl (m'.visit key depth) (w.mapIds φ) =
        (ids.foldl (m.visit key depth) w).mapIds φ ∧
      ∀ u ∈ (ids.foldl (m.visit key depth) w).seen, u ∈ m.liveTypes key := by
  induction ids generalizing w with
  | nil => exact ⟨rfl, hw⟩
  | cons i ids ih =>
    obtain ⟨hstep, hseen⟩ := hvisit hw (hids i List.mem_cons_self)
    rw [List.map_cons, List.foldl_cons, List.foldl_cons, hstep]
    exact ih hseen fun j hj => hids j (List.mem_cons_of_mem _ hj)

theorem Corresponds.visit (h : Corresponds φ key m m') (depth : Nat)
    (hw : ∀ u ∈ w.seen, u ∈ m.liveTypes key) (hid : id ∈ m.liveTypes key) :
    m'.visit key depth (w.mapIds φ) (φ id) = (m.visit key depth w id).mapIds φ ∧
      ∀ u ∈ (m.visit key depth w id).seen, u ∈ m.liveTypes key := by
  induction depth generalizing w id with
  | zero => exact ⟨rfl, hw⟩
  | succ depth ih =>
    have hφ := h.mem_live.mpr ⟨id, hid, rfl⟩
    have hseen : φ id ∈ w.seen.map φ ↔ id ∈ w.seen := by
      constructor
      · intro hmem
        obtain ⟨u, hu, he⟩ := List.mem_map.mp hmem
        rwa [← h.injective (hw u hu) hid he]
      · exact List.mem_map_of_mem
    simp only [Model.visit, h.source.resolve_liveTypes hid, h.target.resolve_liveTypes hφ,
      List.contains_eq_mem, decide_eq_true_eq, Walk.mapIds, hseen]
    by_cases hin : id ∈ w.seen
    · rw [if_pos hin, if_pos hin]
      exact ⟨rfl, hw⟩
    · rw [if_neg hin, if_neg hin]
      have hentered : ∀ u ∈ id :: w.seen, u ∈ m.liveTypes key := by
        intro u hu
        rcases List.mem_cons.mp hu with rfl | hu
        · exact hid
        · exact hw u hu
      obtain ⟨hbelow, hseen⟩ := foldl_visit (w := { w with seen := id :: w.seen }) ih hentered
        (m.dependencies key id) fun v hv => h.source.dependencies_live hv
      have hstart : Walk.mapIds φ { w with seen := id :: w.seen } =
          ⟨φ id :: w.seen.map φ, w.placed.map φ⟩ := rfl
      rw [hstart] at hbelow
      rw [h.dependencies id hid, hbelow]
      exact ⟨by simp [Walk.mapIds], hseen⟩

theorem nameOrder_eq {a b : TypeId} {s t : TypeEntry} (hs : m.types[a]? = some s)
    (ht : m.types[b]? = some t) : m.nameOrder a b =
      (compare s.name t.name).then (compare s.qualified t.qualified) := by
  simp [nameOrder, hs, ht]

/-- No two live types of the group have one name. -/
def DistinctNames (m : Model) (key : GroupKey) : Prop :=
  ∀ {a b : TypeId} {s t : TypeEntry}, a ∈ m.liveTypes key → b ∈ m.liveTypes key →
    m.types[a]? = some s → m.types[b]? = some t → s.name = t.name → a = b

theorem WellFormed.distinctNames_reconcile (h : m.WellFormed) (hg : m.group? key = some g) :
    (m.reconcile g).DistinctNames key := by
  intro a b s t ha hb hs ht hname
  obtain ⟨hak, hal⟩ := (h.reconcile hg).live_entry ha hs
  obtain ⟨hbk, hbl⟩ := (h.reconcile hg).live_entry hb ht
  exact h.eq_of_name_reconcile hg hs ht hal hbl hak hbk hname

theorem WellFormed.nameOrder_live (h : m.WellFormed) (hnames : m.DistinctNames key)
    {a b : TypeId} (ha : a ∈ m.liveTypes key) (hb : b ∈ m.liveTypes key) :
    (m.nameOrder a b != .gt) = (compare (((m.types[a]?).map TypeEntry.name).getD "")
      (((m.types[b]?).map TypeEntry.name).getD "") != .gt) := by
  obtain ⟨s, hs, -⟩ := Option.map_eq_some_iff.mp (h.mem_liveTypes.mp ha).1
  obtain ⟨t, ht, -⟩ := Option.map_eq_some_iff.mp (h.mem_liveTypes.mp hb).1
  rw [nameOrder_eq hs ht, hs, ht, Option.map_some, Option.map_some, Option.getD_some,
    Option.getD_some]
  by_cases hname : s.name = t.name
  · obtain rfl := hnames ha hb hs ht hname
    obtain rfl := Option.some.inj (hs.symm.trans ht)
    simp
  · have hne : compare s.name t.name ≠ .eq := fun he => hname (Std.LawfulEqOrd.eq_of_compare he)
    cases hc : compare s.name t.name with
    | eq => exact absurd hc hne
    | lt => rfl
    | gt => rfl

theorem WellFormed.nodup_liveTypes (h : m.WellFormed) : (m.liveTypes key).Nodup := by
  rw [liveTypes]
  cases hg : m.group? key with
  | none => exact List.nodup_nil
  | some g =>
    have hnamed := h.named_ordered hg
    have hanonymous := h.anonymous_ordered hg
    have hname : ∀ {n i}, (n, i) ∈ g.named → m.named? key n = some i := by
      intro n i hi
      rw [named?, hg, Option.bind_some, hnamed.get?_of_mem hi]
    have hbucket : ∀ {b}, b ∈ g.anonymous → b.2 = m.bucket key b.1 := by
      intro b hb
      rw [bucket_of_group? hg, hanonymous.get?_of_mem hb, Option.getD_some]
    refine List.Nodup.filter _ (List.nodup_append.mpr ⟨?_, ?_, ?_⟩)
    · refine List.pairwise_map.mpr (hnamed.imp_of_mem fun {a b} ha hb hlt he => ?_)
      obtain ⟨s, hs, -, hsn, -⟩ := h.named (hname ha)
      obtain ⟨t, ht, -, htn, -⟩ := h.named (hname hb)
      rw [he, ht] at hs
      obtain rfl := Option.some.inj hs
      exact ne_of_compare_lt hlt (hsn.symm.trans htn)
    · rw [Table.values, List.nodup_flatten, List.pairwise_map]
      refine ⟨fun l hl => ?_, hanonymous.imp_of_mem fun {a b} ha hb hlt => ?_⟩
      · obtain ⟨b, hb, rfl⟩ := List.mem_map.mp hl
        rw [hbucket hb]
        exact h.nodup key b.1
      · rw [hbucket ha, hbucket hb]
        intro i hi hi'
        exact ne_of_compare_lt hlt (h.filed_once hi hi')
    · rintro i hi j hj rfl
      obtain ⟨⟨n, i⟩, he, rfl⟩ := List.mem_map.mp hi
      obtain ⟨short, hs⟩ := (h.mem_objects hg).mp hj
      exact h.apart (hname he) hs

theorem Corresponds.perm_live (h : Corresponds φ key m m') :
    (m'.liveTypes key).Perm ((m.liveTypes key).map φ) := by
  refine (List.perm_ext_iff_of_nodup h.target.nodup_liveTypes ?_).mpr fun u => ?_
  · exact List.Nodup.map_on (fun u hu v hv => h.injective hu hv) h.source.nodup_liveTypes
  · rw [h.mem_live, List.mem_map]

theorem Corresponds.dependencyOrder (h : Corresponds φ key m m') (hnames : m.DistinctNames key)
    (hname : ∀ u ∈ m.liveTypes key,
      (m'.types[φ u]?).map TypeEntry.name = (m.types[u]?).map TypeEntry.name) :
    m'.dependencyOrder key = (m.dependencyOrder key).map φ := by
  have hnames' : m'.DistinctNames key := by
    intro a b s t ha hb hs ht hst
    obtain ⟨u, hu, rfl⟩ := h.mem_live.mp ha
    obtain ⟨v, hv, rfl⟩ := h.mem_live.mp hb
    have hun := hname u hu
    have hvn := hname v hv
    rw [hs] at hun
    rw [ht] at hvn
    obtain ⟨s', hs', hsn⟩ := Option.map_eq_some_iff.mp hun.symm
    obtain ⟨t', ht', htn⟩ := Option.map_eq_some_iff.mp hvn.symm
    rw [hnames hu hv hs' ht' (hsn.trans (hst.trans htn.symm))]
  have hperm : ((m'.liveTypes key).map fun u => ((m'.types[u]?).map TypeEntry.name).getD "").Perm
      ((m.liveTypes key).map fun u => ((m.types[u]?).map TypeEntry.name).getD "") := by
    refine (h.perm_live.map _).trans (List.Perm.of_eq ?_)
    rw [List.map_map]
    exact List.map_congr_left fun u hu => congrArg (Option.getD · "") (hname u hu)
  have hsorted := map_mergeSort_eq compare (fun _ _ => Std.LawfulEqOrd.eq_of_compare)
    (fun u => ((m.types[u]?).map TypeEntry.name).getD "")
    (fun u => ((m'.types[u]?).map TypeEntry.name).getD "")
    (fun a ha b hb => h.source.nameOrder_live hnames ha hb)
    (fun a ha b hb => h.target.nameOrder_live hnames' ha hb) hperm
  have hcandidates : (m'.liveTypes key).mergeSort (fun a b => m'.nameOrder a b != .gt) =
      ((m.liveTypes key).mergeSort fun a b => m.nameOrder a b != .gt).map φ := by
    refine eq_map_of_map_eq hsorted fun u hu v hv huv => ?_
    rw [List.mem_mergeSort] at hu hv
    obtain ⟨u', hu', rfl⟩ := h.mem_live.mp hv
    rw [hname u' hu'] at huv
    obtain ⟨s, hs, -⟩ := Option.map_eq_some_iff.mp (h.source.mem_liveTypes.mp hu).1
    obtain ⟨t, ht, -⟩ := Option.map_eq_some_iff.mp (h.source.mem_liveTypes.mp hu').1
    rw [hs, ht] at huv
    rw [hnames hu' hu ht hs huv]
  have hempty : Walk.mapIds φ {} = {} := rfl
  have hvisit := foldl_visit (w := {}) (h.visit (m.types.size + 1)) (by simp)
    ((m.liveTypes key).mergeSort fun a b => m.nameOrder a b != .gt)
    fun i hi => List.mem_mergeSort.mp hi
  rw [Model.dependencyOrder, Model.dependencyOrder, hcandidates, h.size, ← hempty, hvisit.1]
  rfl

/-- What the output needs to know about corresponding groups whose types have the same names. -/
theorem Corresponds.viewOf (h : Corresponds φ key m m') (hnames : m.DistinctNames key)
    (hname : ∀ u ∈ m.liveTypes key,
      (m'.types[φ u]?).map TypeEntry.name = (m.types[u]?).map TypeEntry.name) :
    m'.viewOf key (m'.dependencyOrder key) =
      { m.viewOf key (m.dependencyOrder key) with types := (m.dependencyOrder key).map φ } := by
  have horder := h.dependencyOrder hnames hname
  have hlive : ∀ u ∈ m.dependencyOrder key, u ∈ m.liveTypes key := fun u hu =>
    h.source.mem_liveTypes.mpr (((h.source.leavesFirst_dependencyOrder key).mem u).mp hu)
  rw [horder, Model.viewOf, Model.viewOf]
  have hmap : ∀ {β : Type} {f f' : TypeId → List β}, (∀ u ∈ m.liveTypes key, f' (φ u) = f u) →
      ((m.dependencyOrder key).map φ).flatMap f' = (m.dependencyOrder key).flatMap f := by
    intro β f f' hf
    rw [List.flatMap_map]
    exact List.flatMap_congr fun u hu => hf u (hlive u hu)
  rw [hmap h.foreign, hmap h.generics, hmap h.baseNames]

end Model

end SchemaCompiler
