import SchemaCompiler.Proofs.Model.Correspondence

/-! The order in which the classes of a bucket are named. It is total, so that the place of a class is
the number of classes that come before it. -/

namespace SchemaCompiler

theorem transCmp_comap {α β : Type} (cmp : β → β → Ordering) [Std.TransCmp cmp] (g : α → β) :
    Std.TransCmp fun a b => cmp (g a) (g b) where
  eq_swap := Std.OrientedCmp.eq_swap
  isLE_trans := Std.TransCmp.isLE_trans

theorem then_eq_left {a : Ordering} (h : a ≠ .eq) (b : Ordering) : a.then b = a := by
  cases a with
  | eq => exact absurd rfl h
  | lt => rfl
  | gt => rfl

/-- In a list that is in order, an element comes after as many others as are before it. -/
theorem getElem?_countP {α : Type} {cmp : α → α → Ordering} [Std.TransCmp cmp] {as : List α}
    (h : as.Pairwise fun a b => cmp a b = .lt) {a : α} (ha : a ∈ as) :
    as[as.countP (cmp · a == .lt)]? = some a := by
  induction as with
  | nil => cases ha
  | cons b as ih =>
    obtain ⟨hfirst, hrest⟩ := List.pairwise_cons.mp h
    by_cases hab : a = b
    · have hnone : (b :: as).countP (cmp · b == .lt) = 0 := by
        rw [List.countP_eq_zero]
        intro x hx
        rcases List.mem_cons.mp hx with rfl | hx
        · simp [Std.ReflCmp.compare_self]
        · have hgt : cmp x b = .gt := Std.OrientedCmp.gt_of_lt (hfirst x hx)
          simp [hgt]
      rw [hab, hnone]
      rfl
    · have hmem : a ∈ as := (List.mem_cons.mp ha).resolve_left hab
      rw [List.countP_cons, if_pos (by simp [hfirst a hmem]), List.getElem?_cons_succ]
      exact ih hrest hmem

/-- A piece of an expression as it is read from left to right: a number, or a text after a number. -/
abbrev Token := Nat × String

namespace Token

def order (a b : Token) : Ordering := compareLex (compareOn Prod.fst) (compareOn Prod.snd) a b

instance : Std.TransCmp order :=
  inferInstanceAs (Std.TransCmp (compareLex (compareOn Prod.fst) (compareOn Prod.snd)))

abbrev orderAll : List Token → List Token → Ordering := List.compareLex order

def ofNat (n : Nat) : Token := (n, "")

theorem order_eq (m n : Nat) (s t : String) :
    order (m, s) (n, t) = (compare m n).then (compare s t) := rfl

theorem order_ofNat (m n : Nat) : order (ofNat m) (ofNat n) = compare m n := by
  simp [order_eq, ofNat]

end Token

def QualifiedName.tokens (q : QualifiedName) : List Token :=
  [(0, q.name), (0, q.group), q.version.elim (0, "") fun v => (1, v)]

theorem QualifiedName.orderAll_tokens (a b : QualifiedName) (s t : List Token) :
    Token.orderAll (a.tokens ++ s) (b.tokens ++ t) = (a.order b).then (Token.orderAll s t) := by
  have hversion : Token.order (a.version.elim (0, "") fun v => (1, v))
      (b.version.elim (0, "") fun v => (1, v)) = optionOrder a.version b.version := by
    cases a.version <;> cases b.version <;> simp [optionOrder, Token.order_eq] <;> rfl
  simp [tokens, Token.orderAll, List.compareLex_cons_cons, Token.order_eq, hversion, order,
    Ordering.then_assoc]

namespace TypeExpr

mutual

/-- The tokens of an expression after its rank. They tell where the expression ends. -/
def restTokens : TypeExpr → List Token
  | primitive p => [.ofNat p.rank]
  | wellKnown w => [.ofNat w.rank]
  | type id => [.ofNat id]
  | ref q => q.tokens
  | bareList => []
  | list item => .ofNat item.rank :: restTokens item
  | bareMap => []
  | map value => .ofNat value.rank :: restTokens value
  | union members => allTokens members

def allTokens : List TypeExpr → List Token
  | [] => [.ofNat 0]
  | e :: es => .ofNat 1 :: .ofNat e.rank :: (restTokens e ++ allTokens es)

end

def tokens (e : TypeExpr) : List Token := .ofNat e.rank :: e.restTokens

theorem order_of_rank_ne {a b : TypeExpr} (h : a.rank ≠ b.rank) : a.order b = compare a.rank b.rank := by
  cases a <;> cases b <;> simp [rank, order] at h ⊢

/-- Expressions of different ranks are ordered before they are read any further. -/
theorem orderAll_tokens_of_rank_ne {a b : TypeExpr} (h : a.rank ≠ b.rank) (s t : List Token) :
    Token.orderAll (a.tokens ++ s) (b.tokens ++ t) = (a.order b).then (Token.orderAll s t) := by
  have hne : compare a.rank b.rank ≠ .eq := fun he => h (Std.LawfulEqOrd.eq_of_compare he)
  rw [order_of_rank_ne h, then_eq_left hne, tokens, tokens, List.cons_append, List.cons_append,
    Token.orderAll, List.compareLex_cons_cons, Token.order_ofNat, then_eq_left hne]

theorem orderAll_tokens_of_rank_eq {a b : TypeExpr} (h : a.rank = b.rank) (s t : List Token) :
    Token.orderAll (a.tokens ++ s) (b.tokens ++ t) =
      Token.orderAll (a.restTokens ++ s) (b.restTokens ++ t) := by
  rw [tokens, tokens, List.cons_append, List.cons_append, Token.orderAll, List.compareLex_cons_cons,
    Token.order_ofNat, h]
  simp

mutual

theorem orderAll_tokens : ∀ (a b : TypeExpr) (s t : List Token),
    Token.orderAll (a.tokens ++ s) (b.tokens ++ t) = (a.order b).then (Token.orderAll s t)
  | primitive p, b, s, t => by
    cases b with
    | primitive q =>
      refine (orderAll_tokens_of_rank_eq (by rfl) s t).trans ?_
      simp [restTokens, order, Token.orderAll, List.compareLex_cons_cons, Token.order_ofNat]
    | _ => exact orderAll_tokens_of_rank_ne (by simp [rank]) s t
  | wellKnown v, b, s, t => by
    cases b with
    | wellKnown w =>
      refine (orderAll_tokens_of_rank_eq (by rfl) s t).trans ?_
      simp [restTokens, order, Token.orderAll, List.compareLex_cons_cons, Token.order_ofNat]
    | _ => exact orderAll_tokens_of_rank_ne (by simp [rank]) s t
  | type i, b, s, t => by
    cases b with
    | type j =>
      refine (orderAll_tokens_of_rank_eq (by rfl) s t).trans ?_
      simp [restTokens, order, Token.orderAll, List.compareLex_cons_cons, Token.order_ofNat]
    | _ => exact orderAll_tokens_of_rank_ne (by simp [rank]) s t
  | ref q, b, s, t => by
    cases b with
    | ref r =>
      refine (orderAll_tokens_of_rank_eq (by rfl) s t).trans ?_
      rw [order]
      exact q.orderAll_tokens r s t
    | _ => exact orderAll_tokens_of_rank_ne (by simp [rank]) s t
  | bareList, b, s, t => by
    cases b with
    | bareList =>
      refine (orderAll_tokens_of_rank_eq (by rfl) s t).trans ?_
      rw [order_self]
      rfl
    | _ => exact orderAll_tokens_of_rank_ne (by simp [rank]) s t
  | list a, b, s, t => by
    cases b with
    | list b =>
      refine (orderAll_tokens_of_rank_eq (by rfl) s t).trans ?_
      rw [order]
      exact orderAll_tokens a b s t
    | _ => exact orderAll_tokens_of_rank_ne (by simp [rank]) s t
  | bareMap, b, s, t => by
    cases b with
    | bareMap =>
      refine (orderAll_tokens_of_rank_eq (by rfl) s t).trans ?_
      rw [order_self]
      rfl
    | _ => exact orderAll_tokens_of_rank_ne (by simp [rank]) s t
  | map a, b, s, t => by
    cases b with
    | map b =>
      refine (orderAll_tokens_of_rank_eq (by rfl) s t).trans ?_
      rw [order]
      exact orderAll_tokens a b s t
    | _ => exact orderAll_tokens_of_rank_ne (by simp [rank]) s t
  | union as, b, s, t => by
    cases b with
    | union bs =>
      refine (orderAll_tokens_of_rank_eq (by rfl) s t).trans ?_
      rw [order]
      exact orderAll_allTokens as bs s t
    | _ => exact orderAll_tokens_of_rank_ne (by simp [rank]) s t

theorem orderAll_allTokens : ∀ (as bs : List TypeExpr) (s t : List Token),
    Token.orderAll (allTokens as ++ s) (allTokens bs ++ t) =
      (orderAll as bs).then (Token.orderAll s t)
  | [], [], s, t => by
    simp [allTokens, orderAll, Token.orderAll, List.compareLex_cons_cons, Token.order_ofNat]
  | [], b :: bs, s, t => rfl
  | a :: as, [], s, t => rfl
  | a :: as, b :: bs, s, t => by
    have hfirst := orderAll_tokens a b (allTokens as ++ s) (allTokens bs ++ t)
    rw [orderAll_allTokens as bs s t, ← Ordering.then_assoc] at hfirst
    simpa [allTokens, orderAll, Token.orderAll, List.compareLex_cons_cons, Token.order_ofNat, tokens]
      using hfirst

end

theorem order_eq_orderAll (a b : TypeExpr) : a.order b = Token.orderAll a.tokens b.tokens := by
  have hnil : Token.orderAll [] [] = .eq := rfl
  have h := orderAll_tokens a b [] []
  rw [List.append_nil, List.append_nil, hnil, Ordering.then_eq] at h
  exact h.symm

instance : Std.TransCmp order := by
  have heq : order = fun a b => Token.orderAll a.tokens b.tokens :=
    funext fun a => funext fun b => order_eq_orderAll a b
  rw [heq]
  exact transCmp_comap Token.orderAll tokens

end TypeExpr

/-! Structures and classes. -/

def structureEntryOrder (p q : String × TypeExpr × Bool) : Ordering :=
  (compare p.1 q.1).then ((p.2.1.order q.2.1).then (compare p.2.2 q.2.2))

instance : Std.TransCmp structureEntryOrder :=
  have := transCmp_comap TypeExpr.order fun p : String × TypeExpr × Bool => p.2.1
  inferInstanceAs (Std.TransCmp (compareLex (compareOn fun p : String × TypeExpr × Bool => p.1)
    (compareLex (fun p q : String × TypeExpr × Bool => p.2.1.order q.2.1)
      (compareOn fun p : String × TypeExpr × Bool => p.2.2))))

theorem structureOrder_eq : structureOrder = List.compareLex structureEntryOrder := by
  funext as bs
  induction as generalizing bs with
  | nil => cases bs <;> rfl
  | cons a as ih =>
    cases bs with
    | nil => rfl
    | cons b bs =>
      rw [List.compareLex_cons_cons, ← ih]
      simp [structureOrder, structureEntryOrder, Ordering.then_assoc]

instance : Std.TransCmp structureOrder := by
  rw [structureOrder_eq]
  infer_instance

namespace AnonymousClass

theorem order_eq_rank (a b : AnonymousClass) : a.order b = (a.rank.order b.rank).then
    ((structureOrder a.content b.content).then (compare a.retained b.retained)) := by
  simp [order, rank, ClassRank.order, Ordering.then_assoc]

instance : Std.TransCmp order := by
  have heq : order = compareLex (fun a b => a.rank.order b.rank)
      (compareLex (fun a b => structureOrder a.content b.content) (compareOn retained)) :=
    funext fun a => funext fun b => order_eq_rank a b
  have := transCmp_comap ClassRank.order rank
  have := transCmp_comap structureOrder content
  rw [heq]
  infer_instance

theorem retained_eq_of_order {a b : AnonymousClass} (h : a.order b = .eq) : a.retained = b.retained := by
  rw [order_eq_rank, Ordering.then_eq_eq, Ordering.then_eq_eq] at h
  exact Std.LawfulEqOrd.eq_of_compare h.2.2

end AnonymousClass

namespace Model

variable {m m' : Model} {φ : TypeId → TypeId} {members members' : List TypeId} {r : TypeId}

theorem pairwise_classesOf (m : Model) (members : List TypeId) :
    (m.classesOf members).Pairwise fun a b => a.order b = .lt := by
  have hsorted : (m.classesOf members).Pairwise fun a b => (a.order b != .gt) = true :=
    pairwise_sorted AnonymousClass.order _
  have hdistinct := List.pairwise_map.mp (m.classesOf_nodup members)
  refine (hsorted.and hdistinct).imp fun {a b} hab => ?_
  obtain ⟨hab, hne⟩ := hab
  cases ho : a.order b with
  | lt => rfl
  | eq => exact absurd (AnonymousClass.retained_eq_of_order ho) hne
  | gt => simp [ho] at hab

theorem classesOf_perm (m : Model) (members : List TypeId) :
    (m.classesOf members).Perm ((setOf (members.map m.resolve)).map (m.classOf members)) :=
  List.mergeSort_perm _ _

/-- Classes that rank alike are next to each other, so that the ranks come in order. -/
theorem pairwise_ranks (m : Model) (members : List TypeId) :
    ((m.classesOf members).map AnonymousClass.rank).Pairwise fun a b => (a.order b).isLE = true := by
  rw [List.pairwise_map]
  refine (m.pairwise_classesOf members).imp fun {a b} hab => ?_
  rw [AnonymousClass.order_eq_rank, Ordering.then_eq_lt] at hab
  rcases hab with hab | ⟨hab, -⟩
  · rw [hab]
    rfl
  · rw [hab]
    rfl

theorem MergedAlike.ranks (h : MergedAlike φ m m' members members') :
    (m'.classesOf members').map AnonymousClass.rank = (m.classesOf members).map AnonymousClass.rank := by
  refine List.Perm.eq_of_pairwise (fun a b _ _ hab hba => ?_) (m'.pairwise_ranks members')
    (m.pairwise_ranks members) ?_
  · exact ClassRank.eq_of_order (Std.OrientedCmp.isLE_antisymm hab hba)
  · exact (((m'.classesOf_perm members').map _).trans h.perm_ranks).trans
      ((m.classesOf_perm members).map _).symm

/-! Places that do not depend on numbers. -/

end Model

def Structure.mapIds (f : TypeId → TypeId) (s : Structure) : Structure :=
  s.map fun e => (e.1, e.2.1.mapIds f, e.2.2)

def Structure.Mentions (s : Structure) (i : TypeId) : Prop := ∃ e ∈ s, .type i ∈ e.2.1.leaves

/-- Which of two structures comes first is the same whatever numbers the types in them have. -/
def Structure.ToldApart (s t : Structure) : Prop :=
  structureOrder s t ≠ .eq ∧ ∀ f : TypeId → TypeId, Set.InjOn f {i | Mentions s i ∨ Mentions t i} →
    structureOrder (mapIds f s) (mapIds f t) = structureOrder s t

namespace Model

variable {m m' : Model} {φ : TypeId → TypeId} {members members' : List TypeId}

/-- Numbers do not decide where the class that `r` stands for comes among those of its bucket. -/
def Unrivalled (m : Model) (members : List TypeId) (r : TypeId) : Prop :=
  ∀ i ∈ members, m.resolve i ≠ r →
    (m.classOf members (m.resolve i)).rank = (m.classOf members r).rank →
      Structure.ToldApart (m.structureOf (m.resolve i)) (m.structureOf r)

/-- The objects are merged alike and are made of the same, up to `φ`. -/
structure EqualsAlike (φ : TypeId → TypeId) (m m' : Model) (members members' : List TypeId) : Prop
    extends MergedAlike φ m m' members members' where
  structureOf : ∀ i ∈ members, m'.structureOf (φ (m.resolve i)) =
    Structure.mapIds φ (m.structureOf (m.resolve i))
  injOn : Set.InjOn φ {x | ∃ i ∈ members, Structure.Mentions (m.structureOf (m.resolve i)) x}

section EqualsAlike

variable (h : EqualsAlike φ m m' members members') {i j : TypeId}

include h

theorem EqualsAlike.order_structures (hi : i ∈ members) (hj : j ∈ members)
    (ht : Structure.ToldApart (m.structureOf (m.resolve i)) (m.structureOf (m.resolve j))) :
    structureOrder (m'.structureOf (φ (m.resolve i))) (m'.structureOf (φ (m.resolve j))) =
      structureOrder (m.structureOf (m.resolve i)) (m.structureOf (m.resolve j)) := by
  rw [h.structureOf i hi, h.structureOf j hj]
  refine ht.2 φ (h.injOn.mono ?_)
  rintro x (hx | hx)
  · exact ⟨i, hi, hx⟩
  · exact ⟨j, hj, hx⟩

theorem EqualsAlike.order_classOf (hi : i ∈ members) (hj : j ∈ members)
    (hr : m.Unrivalled members (m.resolve j)) :
    (m'.classOf members' (φ (m.resolve i))).order (m'.classOf members' (φ (m.resolve j))) =
      (m.classOf members (m.resolve i)).order (m.classOf members (m.resolve j)) := by
  by_cases hij : m.resolve i = m.resolve j
  · rw [hij, AnonymousClass.order_self, AnonymousClass.order_self]
  · rw [AnonymousClass.order_eq_rank, AnonymousClass.order_eq_rank, h.rank hi, h.rank hj]
    by_cases hrank : (m.classOf members (m.resolve i)).rank = (m.classOf members (m.resolve j)).rank
    · have ht := hr i hi hij hrank
      have hcontent : ∀ (m : Model) members r, (m.classOf members r).content = m.structureOf r :=
        fun _ _ _ => rfl
      rw [hcontent, hcontent, hcontent, hcontent, h.order_structures hi hj ht, then_eq_left ht.1,
        then_eq_left ht.1]
    · have hne : (m.classOf members (m.resolve i)).rank.order
          (m.classOf members (m.resolve j)).rank ≠ .eq := fun he => hrank (ClassRank.eq_of_order he)
      rw [then_eq_left hne, then_eq_left hne]

/-- An unrivalled class has the same place in both lists. -/
theorem EqualsAlike.exists_place (hj : j ∈ members)
    (hunrivalled : m.Unrivalled members (m.resolve j)) :
    ∃ k : Nat, (m.classesOf members)[k]? = some (m.classOf members (m.resolve j)) ∧
      (m'.classesOf members')[k]? = some (m'.classOf members' (φ (m.resolve j))) := by
  have hmem : ∀ {m : Model} {members : List TypeId} {r}, r ∈ members.map m.resolve →
      m.classOf members r ∈ m.classesOf members := fun hr =>
    (classesOf_perm _ _).mem_iff.mpr (List.mem_map_of_mem (mem_setOf.mpr hr))
  have hcount : (m'.classesOf members').countP
        (·.order (m'.classOf members' (φ (m.resolve j))) == .lt) =
      (m.classesOf members).countP (·.order (m.classOf members (m.resolve j)) == .lt) := by
    rw [(classesOf_perm _ _).countP_eq, (classesOf_perm _ _).countP_eq, List.countP_map,
      List.countP_map, h.perm_retained.countP_eq, List.countP_map]
    refine List.countP_congr fun r hr => ?_
    obtain ⟨i, hi, rfl⟩ := List.mem_map.mp (mem_setOf.mp hr)
    simp only [Function.comp, h.order_classOf hi hj hunrivalled]
  refine ⟨_, getElem?_countP (pairwise_classesOf _ _) (hmem (List.mem_map_of_mem hj)), ?_⟩
  rw [← hcount]
  refine getElem?_countP (pairwise_classesOf _ _) (hmem ?_)
  exact h.perm_resolve.mem_iff.mpr (List.mem_map.mpr ⟨j, hj, rfl⟩)

end EqualsAlike

/-! Names. They are given to places, whatever classes are there. -/

theorem nameIn_of_rank {c c' : AnonymousClass} (h : c'.rank = c.rank) (short : String)
    (taken : List String) (first only : Bool) :
    c'.nameIn short taken first only = c.nameIn short taken first only := by
  simp only [AnonymousClass.rank, Prod.mk.injEq] at h
  rw [AnonymousClass.nameIn, AnonymousClass.nameIn, h.2.1, h.2.2]

theorem furtherNames_of_ranks {cs cs' : List AnonymousClass}
    (h : cs'.map AnonymousClass.rank = cs.map AnonymousClass.rank) (short : String)
    (taken : List String) :
    (furtherNames short taken cs').map Prod.snd = (furtherNames short taken cs).map Prod.snd := by
  induction cs generalizing cs' taken with
  | nil =>
    rw [List.map_nil, List.map_eq_nil_iff] at h
    rw [h]
  | cons c cs ih =>
    obtain ⟨c', cs', rfl, hc, hcs⟩ := List.map_eq_cons_iff.mp h
    simp only [furtherNames, List.map_cons, nameIn_of_rank hc, ih hcs]

theorem classNames_of_ranks {cs cs' : List AnonymousClass}
    (h : cs'.map AnonymousClass.rank = cs.map AnonymousClass.rank) (short : String)
    (taken : List String) :
    (classNames short taken cs').map Prod.snd = (classNames short taken cs).map Prod.snd := by
  cases cs with
  | nil =>
    rw [List.map_nil, List.map_eq_nil_iff] at h
    rw [h]
  | cons c cs =>
    obtain ⟨c', cs', rfl, hc, hcs⟩ := List.map_eq_cons_iff.mp h
    have honly : cs'.isEmpty = cs.isEmpty := by
      have hempty := congrArg List.isEmpty hcs
      rwa [List.isEmpty_map, List.isEmpty_map] at hempty
    simp only [classNames, List.map_cons, nameIn_of_rank hc, honly, furtherNames_of_ranks hcs]

theorem exists_classNames {cs cs' : List AnonymousClass}
    (h : cs'.map AnonymousClass.rank = cs.map AnonymousClass.rank) (short : String)
    (taken : List String) {k : Nat} {c c' : AnonymousClass} (hc : cs[k]? = some c)
    (hc' : cs'[k]? = some c') : ∃ name, (c.retained, name) ∈ classNames short taken cs ∧
      (c'.retained, name) ∈ classNames short taken cs' := by
  have hentry : ∀ {cs : List AnonymousClass} {c}, cs[k]? = some c →
      ∃ e, (classNames short taken cs)[k]? = some e ∧ e.1 = c.retained := by
    intro cs c hc
    have hid := congrArg (·[k]?) (classNames_ids short taken cs)
    simp only [List.getElem?_map, hc, Option.map_some] at hid
    exact Option.map_eq_some_iff.mp hid
  obtain ⟨⟨i, name⟩, he, rfl⟩ := hentry hc
  obtain ⟨⟨i', name'⟩, he', rfl⟩ := hentry hc'
  have hname := congrArg (·[k]?) (classNames_of_ranks h short taken)
  simp only [List.getElem?_map, he, he', Option.map_some, Option.some.injEq] at hname
  refine ⟨name, List.mem_of_getElem? he, ?_⟩
  rw [← hname]
  exact List.mem_of_getElem? he'

/-- Types at the same place in the classes of corresponding buckets get the same name. -/
theorem exists_groupNames {t t' : Table String (List TypeId)}
    (h : List.Forall₂ (fun b b' => b'.1 = b.1 ∧ (m'.classesOf b'.2).map AnonymousClass.rank =
      (m.classesOf b.2).map AnonymousClass.rank) t t') (taken : List String)
    {b : String × List TypeId} (hb : b ∈ t) : ∃ b' ∈ t', b'.1 = b.1 ∧
      ∀ {k : Nat} {c c' : AnonymousClass}, (m.classesOf b.2)[k]? = some c → (m'.classesOf b'.2)[k]? = some c' →
        ∃ name, (c.retained, name) ∈ m.groupNames taken t ∧
          (c'.retained, name) ∈ m'.groupNames taken t' := by
  induction h generalizing taken with
  | nil => cases hb
  | @cons d d' t t' hd _ ih =>
    have hnames := classNames_of_ranks hd.2 d.1 taken
    simp only [groupNames, List.mem_append, hd.1, hnames]
    rcases List.mem_cons.mp hb with rfl | hb
    · refine ⟨d', List.mem_cons_self, hd.1, fun hc hc' => ?_⟩
      obtain ⟨name, hn, hn'⟩ := exists_classNames hd.2 b.1 taken hc hc'
      exact ⟨name, .inl hn, .inl hn'⟩
    · obtain ⟨b', hb', hshort, hplace⟩ := ih
        (((classNames d.1 taken (m.classesOf d.2)).map Prod.snd).reverse ++ taken) hb
      refine ⟨b', List.mem_cons_of_mem _ hb', hshort, fun hc hc' => ?_⟩
      obtain ⟨name, hn, hn'⟩ := hplace hc hc'
      exact ⟨name, .inr hn, .inr hn'⟩

end Model

end SchemaCompiler
