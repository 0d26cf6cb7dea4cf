import SchemaCompiler.Proofs.Model.ChosenName
import SchemaCompiler.Proofs.Model.ClassOrder
import SchemaCompiler.Proofs.Model.Independence
import SchemaCompiler.Proofs.Model.Turn

/-! The rule that objects are named by. The buckets of a group are gone through in order, and the classes
of a bucket from the largest on; what a class is called depends on the names that are in use by then. -/

namespace SchemaCompiler

/-- `short` with the least number from two on that makes it a name not in use. -/
def LeastNumbered (short : String) (used : String → Prop) (name : String) : Prop :=
  ∃ n, 2 ≤ n ∧ name = short ++ Nat.repr n ∧ ¬used name ∧ ∀ k, 2 ≤ k → k < n → used (short ++ Nat.repr k)

theorem leastNumbered_numbered (short : String) (taken : List String) :
    LeastNumbered short (· ∈ taken) (numbered short taken) := by
  obtain ⟨n, heq, hfree, hleast⟩ := exists_numbered short taken
  rw [heq]
  refine ⟨n + 2, Nat.le_add_left 2 n, rfl, hfree, fun k hk hlt => ?_⟩
  obtain ⟨j, rfl⟩ := Nat.exists_eq_add_of_le' hk
  exact hleast j (Nat.lt_of_add_lt_add_right hlt)

/-- The name of a class that does not get the short name: the full name if that is not in use yet and is
the class's `own`, and the short name with a number otherwise (which may read like the full name). -/
def LongOrNumbered (short long : String) (used : String → Prop) (own : Prop) (name : String) : Prop :=
  (¬used long ∧ own → name = long) ∧ (¬(¬used long ∧ own) → LeastNumbered short used name)

namespace Model

def nameOf (m : Model) (id : TypeId) : String :=
  ((m.types[id]?).map TypeEntry.name).getD ""

/-- The members of a bucket that `id` stands for. -/
def classMembers (m : Model) (members : List TypeId) (id : TypeId) : List TypeId :=
  members.filter (m.resolve · == id)

/-- The names of a bucket whose classes were named in the order `order`, where `used` were the names in use
before. Each class is given by what stands for it. -/
structure NamedBucket (m : Model) (short : String) (members : List TypeId) (used : String → Prop)
    (order : List TypeId) : Prop where
  classes : ∀ id, id ∈ order ↔ ∃ i ∈ members, m.resolve i = id
  once : order.Nodup
  largest_first : order.Pairwise fun a b =>
    (m.classMembers members b).length ≤ (m.classMembers members a).length
  /-- A free short name goes to one class, and none is larger. -/
  short_free : ¬used short → ∃ id ∈ order, ∀ i ∈ order, (m.nameOf i = short ↔ i = id) ∧
    (m.classMembers members i).length ≤ (m.classMembers members id).length
  short_used : used short → ∀ id ∈ order, m.nameOf id ≠ short
  /-- A full name is a class's own if all of the class share it or there is no other class. -/
  other : ∀ before id after, order = before ++ id :: after → m.nameOf id ≠ short →
    LongOrNumbered short (m.fullNameOf id) (fun name => used name ∨ name ∈ before.map m.nameOf)
      ((∀ i ∈ m.classMembers members id, m.fullNameOf i = m.fullNameOf id) ∨ order = [id]) (m.nameOf id)

/-- The names in use when the bucket `short` of a group has its turn: those of the named types, and those
handed out in buckets before it, whose classes are in the order `order`. -/
def UsedBefore (m : Model) (g : Group) (order : String → List TypeId) (short name : String) : Prop :=
  name ∈ Table.keys g.named ∨ ∃ earlier ∈ Table.keys g.anonymous, compare earlier short = .lt ∧
    ∃ id ∈ order earlier, m.nameOf id = name

variable {m m' : Model} {key : GroupKey} {g : Group} {short : String} {members : List TypeId}
  {taken : List String} {f : TypeId → String}

theorem furtherNames_append (short : String) (taken : List String) (cs cs' : List AnonymousClass) :
    furtherNames short taken (cs ++ cs') = furtherNames short taken cs ++
      furtherNames short (((furtherNames short taken cs).map Prod.snd).reverse ++ taken) cs' := by
  induction cs generalizing taken with
  | nil => rfl
  | cons c cs ih => simp [furtherNames, ih]

theorem groupNames_append (m : Model) (taken : List String) (t t' : Table String (List TypeId)) :
    m.groupNames taken (t ++ t') = m.groupNames taken t ++
      m.groupNames (((m.groupNames taken t).map Prod.snd).reverse ++ taken) t' := by
  induction t generalizing taken with
  | nil => rfl
  | cons b t ih => simp [groupNames, ih]

theorem map_snd_of_named {names : List (TypeId × String)} (h : ∀ e ∈ names, f e.1 = e.2) :
    names.map Prod.snd = (names.map Prod.fst).map f := by
  rw [List.map_map]
  exact List.map_congr_left fun e he => (h e he).symm

/-- What a class is called, in terms of what those before it in its bucket are called. -/
theorem name_of_split {cs before after : List AnonymousClass} {c : AnonymousClass}
    (h : ∀ e ∈ classNames short taken cs, f e.1 = e.2) (hsplit : cs = before ++ c :: after) :
    f c.retained = c.nameIn short (((before.map AnonymousClass.retained).map f).reverse ++ taken)
      before.isEmpty (before.isEmpty && after.isEmpty) := by
  subst hsplit
  cases before with
  | nil => exact h _ List.mem_cons_self
  | cons first before =>
    rw [List.cons_append, classNames, furtherNames_append] at h
    have hfirst : f first.retained = first.nameIn short taken true (before ++ c :: after).isEmpty :=
      h _ List.mem_cons_self
    have hbefore := map_snd_of_named fun e he => h e (List.mem_cons_of_mem _ (List.mem_append_left _ he))
    rw [furtherNames_ids] at hbefore
    have hname := h _ (List.mem_cons_of_mem _ (List.mem_append_right _ List.mem_cons_self))
    rw [hbefore, ← hfirst] at hname
    simpa using hname

/-- The classes `cs` of a bucket as they are in a model, and what they are called there. -/
structure NamedClasses (m : Model) (short : String) (members : List TypeId) (taken : List String)
    (cs : List AnonymousClass) : Prop where
  classes : ∀ id, id ∈ cs.map AnonymousClass.retained ↔ ∃ i ∈ members, m.resolve i = id
  once : (cs.map AnonymousClass.retained).Nodup
  sorted : cs.Pairwise fun a b => a.order b = .lt
  size : ∀ c ∈ cs, c.size = (m.classMembers members c.retained).length
  uniform : ∀ c ∈ cs, c.uniform = true ↔
    ∀ i ∈ m.classMembers members c.retained, m.fullNameOf i = m.fullNameOf c.retained
  fullName : ∀ c ∈ cs, c.fullName = m.fullNameOf c.retained
  name : ∀ before c after, cs = before ++ c :: after → m.nameOf c.retained =
    c.nameIn short (((before.map AnonymousClass.retained).map m.nameOf).reverse ++ taken) before.isEmpty
      (before.isEmpty && after.isEmpty)

section NamedClasses

variable {cs : List AnonymousClass} (h : m.NamedClasses short members taken cs)

include h

/-- No class has a name that is in use before it is named. -/
theorem NamedClasses.name_not_mem {before after : List AnonymousClass} {c : AnonymousClass}
    (hsplit : cs = before ++ c :: after) :
    m.nameOf c.retained ∉ taken ∧
      m.nameOf c.retained ∉ (before.map AnonymousClass.retained).map m.nameOf := by
  have hnew := c.nameIn_not_mem short (((before.map AnonymousClass.retained).map m.nameOf).reverse ++ taken)
    before.isEmpty (before.isEmpty && after.isEmpty)
  rw [← h.name before c after hsplit, List.mem_append, List.mem_reverse, not_or] at hnew
  exact hnew.symm

theorem NamedClasses.largest_first : (cs.map AnonymousClass.retained).Pairwise fun a b =>
    (m.classMembers members b).length ≤ (m.classMembers members a).length := by
  refine List.pairwise_map.mpr (h.sorted.imp_of_mem fun {a b} ha hb hlt => ?_)
  rw [← h.size a ha, ← h.size b hb]
  rw [AnonymousClass.order, Ordering.then_eq_lt] at hlt
  rcases hlt with hlt | ⟨heq, -⟩
  · exact Nat.le_of_lt (Nat.compare_eq_lt.mp hlt)
  · exact Nat.le_of_eq (Nat.compare_eq_eq.mp heq)

theorem NamedClasses.short_free (hmembers : members ≠ []) (hfree : short ∉ taken) :
    ∃ id ∈ cs.map AnonymousClass.retained, ∀ i ∈ cs.map AnonymousClass.retained,
      (m.nameOf i = short ↔ i = id) ∧
        (m.classMembers members i).length ≤ (m.classMembers members id).length := by
  have hne : cs ≠ [] := by
    rintro rfl
    obtain ⟨i, hi⟩ := List.exists_mem_of_ne_nil members hmembers
    exact List.not_mem_nil ((h.classes (m.resolve i)).mpr ⟨i, hi, rfl⟩)
  obtain ⟨first, rest, rfl⟩ := List.exists_cons_of_ne_nil hne
  have hfirst : m.nameOf first.retained = short := by
    rw [h.name [] first rest rfl, AnonymousClass.nameIn, if_pos (by simpa using hfree)]
  refine ⟨first.retained, List.mem_cons_self, fun i hi => ?_⟩
  rcases List.mem_cons.mp hi with rfl | hi
  · exact ⟨iff_of_true hfirst rfl, Nat.le_refl _⟩
  · have hsize := (List.pairwise_cons.mp h.largest_first).1 i hi
    obtain ⟨c, hc, rfl⟩ := List.mem_map.mp hi
    obtain ⟨before, after, rfl⟩ := List.append_of_mem hc
    have hsplit : first :: (before ++ c :: after) = (first :: before) ++ c :: after := rfl
    have hlater := (h.name_not_mem hsplit).2
    -- The first class has taken the short name by the time another one is named.
    have hother : m.nameOf c.retained ≠ short := by
      rintro hname
      rw [hname, ← hfirst] at hlater
      exact hlater List.mem_cons_self
    exact ⟨iff_of_false hother fun heq => hother (heq ▸ hfirst), hsize⟩

theorem NamedClasses.other {before after : List AnonymousClass} {c : AnonymousClass}
    (hsplit : cs = before ++ c :: after) (hne : m.nameOf c.retained ≠ short) :
    LongOrNumbered short (m.fullNameOf c.retained)
      (fun name => name ∈ taken ∨ name ∈ (before.map AnonymousClass.retained).map m.nameOf)
      ((∀ i ∈ m.classMembers members c.retained, m.fullNameOf i = m.fullNameOf c.retained) ∨
        before = [] ∧ after = [])
      (m.nameOf c.retained) := by
  have hc : c ∈ cs := hsplit ▸ List.mem_append_right _ List.mem_cons_self
  have hname := h.name before c after hsplit
  have hused : (fun name => name ∈ taken ∨ name ∈ (before.map AnonymousClass.retained).map m.nameOf) =
      (· ∈ ((before.map AnonymousClass.retained).map m.nameOf).reverse ++ taken) := by
    funext name
    rw [List.mem_append, List.mem_reverse, or_comm]
  rw [hused]
  -- From here on only membership in the names in use matters, not how they came about.
  generalize ((before.map AnonymousClass.retained).map m.nameOf).reverse ++ taken = names at hname ⊢
  have hlong : ((before.isEmpty && after.isEmpty || c.uniform) && !names.contains c.fullName) = true ↔
      m.fullNameOf c.retained ∉ names ∧
        ((∀ i ∈ m.classMembers members c.retained, m.fullNameOf i = m.fullNameOf c.retained) ∨
          before = [] ∧ after = []) := by
    simp only [Bool.and_eq_true, Bool.or_eq_true, h.uniform c hc, h.fullName c hc, List.isEmpty_iff,
      Bool.not_eq_true', ← Bool.not_eq_true, List.contains_iff_mem]
    exact and_comm.trans (and_congr_right' or_comm)
  rw [AnonymousClass.nameIn] at hname
  split at hname
  · exact absurd hname hne
  · rw [LongOrNumbered, ← hlong]
    split at hname
    · next htakes => exact ⟨fun _ => hname.trans (h.fullName c hc), fun hno => absurd htakes hno⟩
    · next htakes =>
      refine ⟨fun hyes => absurd hyes htakes, fun _ => ?_⟩
      rw [hname]
      exact leastNumbered_numbered short names

theorem NamedClasses.bucket (hmembers : members ≠ []) :
    m.NamedBucket short members (· ∈ taken) (cs.map AnonymousClass.retained) where
  classes := h.classes
  once := h.once
  largest_first := h.largest_first
  short_free := h.short_free hmembers
  short_used := by
    intro hused id hid hname
    obtain ⟨c, hc, rfl⟩ := List.mem_map.mp hid
    obtain ⟨before, after, hsplit⟩ := List.append_of_mem hc
    exact (h.name_not_mem hsplit).1 (hname ▸ hused)
  other := by
    intro before id after horder hne
    obtain ⟨before, rest, hsplit, rfl, hrest⟩ := List.map_eq_append_iff.mp horder
    obtain ⟨c, after, rfl, rfl, rfl⟩ := List.map_eq_cons_iff.mp hrest
    have hother := h.other hsplit hne
    have honly : before = [] ∧ after = [] ↔ cs.map AnonymousClass.retained = [c.retained] := by
      rw [horder]
      cases before <;> simp
    rwa [honly] at hother

end NamedClasses

/-- Naming the classes of a bucket makes it a named one, in any model where they are still its classes. -/
theorem namedClasses_classesOf (hresolve : ∀ i ∈ members, m'.resolve i = m.resolve i)
    (hfull : ∀ i ∈ members, m'.fullNameOf i = m.fullNameOf i) (hclosed : ∀ i ∈ members, m.resolve i ∈ members)
    (hnames : ∀ e ∈ classNames short taken (m.classesOf members), m'.nameOf e.1 = e.2) :
    m'.NamedClasses short members taken (m.classesOf members) := by
  have hmembers : m'.classMembers members = m.classMembers members := by
    funext id
    exact List.filter_congr fun i hi => by rw [hresolve i hi]
  have hclass : ∀ c ∈ m.classesOf members, c = m.classOf members c.retained ∧ c.retained ∈ members := by
    intro c hc
    obtain ⟨i, hi, hretained⟩ := mem_classesOf.mp (List.mem_map_of_mem hc)
    obtain ⟨id, -, rfl⟩ := List.mem_map.mp ((m.classesOf_perm members).mem_iff.mp hc)
    exact ⟨rfl, hretained ▸ hclosed i hi⟩
  constructor
  case classes =>
    intro id
    rw [mem_classesOf]
    exact exists_congr fun i => and_congr_right fun hi => by rw [hresolve i hi]
  case once => exact m.classesOf_nodup members
  case sorted => exact m.pairwise_classesOf members
  case size =>
    intro c hc
    rw [hmembers, (hclass c hc).1]
    rfl
  case uniform =>
    intro c hc
    obtain ⟨heq, hmem⟩ := hclass c hc
    rw [hmembers, hfull _ hmem, heq, classOf, List.all_eq_true]
    refine forall₂_congr fun i hi => ?_
    rw [beq_iff_eq, hfull i (List.mem_filter.mp hi).1]
  case fullName =>
    intro c hc
    obtain ⟨heq, hmem⟩ := hclass c hc
    rw [hfull _ hmem, heq]
    rfl
  case name => exact fun _ _ _ hsplit => name_of_split hnames hsplit

theorem WellFormed.key_mem_of_finalize (h : m.WellFormed) (hg : m.finalize.group? key = some g) :
    key ∈ m.keys := by
  by_contra hkey
  have hsame := (foldl_finalizeGroup_spares h hkey).group?
  rw [← Model.finalize, hg] at hsame
  exact hkey (h.mem_keys.mpr ⟨g, hsame.symm⟩)

/-- The classes of a bucket of the group in the order that they are named in, by what stands for each. -/
def namingOrder (m : Model) (g : Group) (short : String) : List TypeId :=
  (m.classesOf ((Table.get? short g.anonymous).getD [])).map AnonymousClass.retained

/-- The names in use when a bucket has its turn. -/
theorem usedBefore_iff {before after : Table String (List TypeId)}
    (hbuckets : g.anonymous = before ++ (short, members) :: after) (hordered : Table.Ordered g.anonymous)
    (hnames : ∀ e ∈ m.groupNames (Table.keys g.named) before, m'.nameOf e.1 = e.2) (name : String) :
    m'.UsedBefore g (m.namingOrder g) short name ↔
      name ∈ ((m.groupNames (Table.keys g.named) before).map Prod.snd).reverse ++ Table.keys g.named := by
  have hbefore : ∀ {e}, e ∈ before ↔ e ∈ g.anonymous ∧ compare e.1 short = .lt := by
    rw [hbuckets] at hordered ⊢
    exact hordered.mem_before_iff
  rw [List.mem_append, List.mem_reverse, map_snd_of_named hnames, groupNames_ids, or_comm, UsedBefore]
  refine or_congr_right ?_
  simp only [namingOrder, List.mem_map, List.mem_flatMap]
  constructor
  · rintro ⟨earlier, hkey, hlt, id, hid, hname⟩
    obtain ⟨members', hget⟩ := hordered.mem_keys.mp hkey
    rw [hget, Option.getD_some] at hid
    have hmem : (earlier, members') ∈ before := hbefore.mpr ⟨Table.mem_of_get? hget, hlt⟩
    exact ⟨id, ⟨_, hmem, hid⟩, hname⟩
  · rintro ⟨id, ⟨⟨earlier, members'⟩, hmem, hid⟩, hname⟩
    obtain ⟨hentry, hlt⟩ := hbefore.mp hmem
    have hget := hordered.get?_of_mem hentry
    refine ⟨earlier, hordered.mem_keys.mpr ⟨_, hget⟩, hlt, id, ?_, hname⟩
    rwa [hget, Option.getD_some]

theorem reconcile_renamesTo (m : Model) (g : Group) : RenamesTo ((m.namings g).map Prod.fst)
    (m.mergeEquals (Table.values g.anonymous)) (m.reconcile g) := by
  rw [reconcile_eq]
  exact assignNames_renamesTo _ _

/-- What finalizing makes of a group is what its turn made of it. -/
structure Turn (key : GroupKey) (g : Group) (m m' : Model) : Prop where
  wellFormed : m.WellFormed
  group? : m.group? key = some g
  after : Spares key (m.finalizeGroup key) m'

section Turn

variable (h : Turn key g m m')

include h

theorem Turn.nameOf {e : TypeId × String} (he : e ∈ m.namings g) : m'.nameOf e.1 = e.2 := by
  obtain ⟨hgroup, t, ht, hname, -⟩ := h.wellFormed.named_of_naming h.group? he
  rw [Model.nameOf, h.after.types _ ((h.wellFormed.groupOf?_finalizeGroup key e.1).trans hgroup),
    types_finalizeGroup h.group?, ht]
  exact hname

theorem Turn.resolve {i : TypeId} (hi : m.groupOf? i = some key) :
    m'.resolve i = (m.mergeEquals (Table.values g.anonymous)).resolve i := by
  rw [h.after.resolve (h.wellFormed.finalizeGroup key) ((h.wellFormed.groupOf?_finalizeGroup key i).trans hi),
    finalizeGroup_eq h.group?, resolve_setFinalized, (reconcile_renamesTo m g).resolve]

theorem Turn.fullNameOf {i : TypeId} (hi : m.groupOf? i = some key) :
    m'.fullNameOf i = (m.mergeEquals (Table.values g.anonymous)).fullNameOf i := by
  rw [h.after.fullNameOf ((h.wellFormed.groupOf?_finalizeGroup key i).trans hi),
    finalizeGroup_eq h.group?, fullNameOf_setFinalized, (reconcile_renamesTo m g).fullNameOf]

theorem Turn.resolve_mem (hmembers : Table.get? short g.anonymous = some members) {i : TypeId}
    (hi : i ∈ members) : (m.mergeEquals (Table.values g.anonymous)).resolve i ∈ members := by
  have hm := h.wellFormed.merging h.group?
  have hbucket : (m.merging g).bucket key short = members := by
    rw [hm.bucket, bucket_of_group? h.group?, hmembers, Option.getD_some]
  have hmem := hm.wellFormed.resolve_mem (hbucket.symm ▸ hi)
  rwa [hbucket, ← (m.mergeEquals_renames g).resolve] at hmem

/-- Each bucket of the group is named by the rule. -/
theorem Turn.namedBucket (hmembers : Table.get? short g.anonymous = some members) (hne : members ≠ []) :
    m'.NamedBucket short members
      (m'.UsedBefore g ((m.mergeEquals (Table.values g.anonymous)).namingOrder g) short)
      ((m.mergeEquals (Table.values g.anonymous)).namingOrder g short) := by
  have hordered := h.wellFormed.anonymous_ordered h.group?
  obtain ⟨before, after, hbuckets⟩ := List.append_of_mem (Table.mem_of_get? hmembers)
  have hnames : ∀ e ∈ (m.mergeEquals (Table.values g.anonymous)).groupNames (Table.keys g.named)
      (before ++ (short, members) :: after), m'.nameOf e.1 = e.2 := by
    intro e he
    rw [← hbuckets] at he
    exact h.nameOf he
  -- The bucket is named after those before it, and with their names in use.
  rw [groupNames_append, groupNames] at hnames
  have hgroup : ∀ i ∈ members, m.groupOf? i = some key := by
    intro i hi
    have hbucket : i ∈ m.bucket key short := by
      rwa [bucket_of_group? h.group?, hmembers, Option.getD_some]
    exact h.wellFormed.filed hbucket
  have hclasses := namedClasses_classesOf (fun i hi => h.resolve (hgroup i hi))
    (fun i hi => h.fullNameOf (hgroup i hi)) (fun i hi => h.resolve_mem hmembers hi)
    fun e he => hnames e (List.mem_append_right _ (List.mem_append_left _ he))
  have hbucket := hclasses.bucket hne
  have hused := funext fun name => propext (usedBefore_iff hbuckets hordered
    (fun e he => hnames e (List.mem_append_left _ he)) name)
  rw [← hused] at hbucket
  rwa [namingOrder, hmembers, Option.getD_some]

end Turn

/-- A class is called by the short name, its full name, or the short name with a number. -/
theorem NamedBucket.choice {used : String → Prop} {order : List TypeId}
    (h : m.NamedBucket short members used order) {id : TypeId} (hid : id ∈ order) :
    Choice short (m.fullNameOf id) (m.nameOf id) := by
  by_cases hshort : m.nameOf id = short
  · rw [hshort]
    exact .short
  obtain ⟨before, after, hsplit⟩ := List.append_of_mem hid
  obtain ⟨hlong, hnumbered⟩ := h.other before id after hsplit hshort
  by_cases howns : ¬(used (m.fullNameOf id) ∨ m.fullNameOf id ∈ before.map m.nameOf) ∧
      ((∀ i ∈ m.classMembers members id, m.fullNameOf i = m.fullNameOf id) ∨ order = [id])
  · rw [hlong howns]
    exact .long
  · obtain ⟨n, hn, heq, -⟩ := hnumbered howns
    obtain ⟨k, rfl⟩ := Nat.exists_eq_add_of_le' hn
    rw [heq]
    exact .numbered k

/-- Right after everything is finalized, the objects of each bucket of a group have their names by the
rule, in some order of their classes that goes from the largest on. -/
theorem finalize_names_buckets (cs : List Change) {key : GroupKey} {g : Group}
    (hg : (ofChanges cs).finalize.group? key = some g) :
    ∃ order : String → List TypeId, ∀ short members, Table.get? short g.anonymous = some members →
      members ≠ [] ∧
      (ofChanges cs).finalize.NamedBucket short members ((ofChanges cs).finalize.UsedBefore g order short)
        (order short) ∧
      ∀ id ∈ order short,
        Choice short ((ofChanges cs).finalize.fullNameOf id) ((ofChanges cs).finalize.nameOf id) := by
  have hwf := wellFormed_ofChanges cs
  obtain ⟨before, g₀, hbefore, hg₀, hafter, -⟩ := hwf.exists_turn (hwf.key_mem_of_finalize hg)
  have hfinal := hafter.group?
  rw [hg, finalizeGroup_eq hg₀, group?_setFinalized, if_pos rfl, Option.some_inj] at hfinal
  subst hfinal
  refine ⟨(before.mergeEquals (Table.values g₀.anonymous)).namingOrder g₀, fun short members hmembers => ?_⟩
  have hne : members ≠ [] := by
    rintro rfl
    exact ((stocked_ofChanges cs).finalize hwf) key _ short hg hmembers
  have hbucket := (Turn.mk hbefore hg₀ hafter).namedBucket hmembers hne
  exact ⟨hne, hbucket, fun id hid => hbucket.choice hid⟩

/-- An object whose short name a named type has, and its full name with it. -/
theorem finalize_names_buckets_spec :
    let core : GroupKey := ⟨"core", some "v1"⟩
    let cs : List Change := [.registerNamed core "Pod" .resource none,
      .registerNamed core "PodSpec" .resource none, .registerAnonymous 0 "spec" none none]
    let m := (ofChanges cs).finalize
    m.nameOf 2 = "PodSpec2" ∧ ∃ g, m.group? core = some g ∧ ∃ order : String → List TypeId,
      m.NamedBucket "PodSpec" [2] (m.UsedBefore g order "PodSpec") (order "PodSpec") := by
  intro core cs m
  have hbucket : (m.group? core).map (fun g => Table.get? "PodSpec" g.anonymous) = some (some [2]) := by
    decide +kernel
  obtain ⟨g, hg, hmembers⟩ := Option.map_eq_some_iff.mp hbucket
  obtain ⟨order, horder⟩ := finalize_names_buckets cs hg
  exact ⟨by decide +kernel, g, hg, order, (horder "PodSpec" [2] hmembers).2.1⟩

end Model

end SchemaCompiler
