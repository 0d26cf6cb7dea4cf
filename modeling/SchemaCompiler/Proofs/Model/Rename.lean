import Mathlib.Data.List.Perm.Subperm
import Std.Data.String.ToNat
import SchemaCompiler.Model.AnonymousName
import SchemaCompiler.Proofs.Model.Merge

/-! Giving objects their names. A pass over a group is a list of namings, computed from the names in
use so far; none of them repeats a name, and each class of equal objects gets one. -/

namespace SchemaCompiler

/-- A number is found, and it is the least one that makes a new name. -/
theorem exists_numbered (base : String) (taken : List String) :
    ∃ n, numbered base taken = base ++ Nat.repr (n + 2) ∧ base ++ Nat.repr (n + 2) ∉ taken ∧
      ∀ k < n, base ++ Nat.repr (k + 2) ∈ taken := by
  rw [numbered, List.find?_map]
  cases hfind : (List.range (taken.length + 1)).find?
    ((!taken.contains ·) ∘ fun n => base ++ Nat.repr (n + 2)) with
  | none =>
    let names := (List.range (taken.length + 1)).map fun n => base ++ Nat.repr (n + 2)
    have hnodup : names.Nodup := by
      refine List.Nodup.map ?_ List.nodup_range
      intro a b h
      have hrepr := Nat.repr_injective ((String.append_right_inj _).mp h)
      omega
    have hsub : names ⊆ taken := by
      intro name hname
      obtain ⟨n, hn, rfl⟩ := List.mem_map.mp hname
      simpa using List.find?_eq_none.mp hfind n hn
    have hlen := (hnodup.subperm hsub).length_le
    simp only [names, List.length_map, List.length_range] at hlen
    omega
  | some n =>
    obtain ⟨hfree, -, hleast⟩ := List.find?_range_eq_some.mp hfind
    exact ⟨n, rfl, by simpa using hfree, fun k hk => by simpa using hleast k hk⟩

theorem numbered_not_mem (base : String) (taken : List String) : numbered base taken ∉ taken := by
  obtain ⟨n, heq, hfree, -⟩ := exists_numbered base taken
  rwa [heq]

theorem AnonymousClass.nameIn_not_mem (c : AnonymousClass) (short : String) (taken : List String)
    (first only : Bool) : c.nameIn short taken first only ∉ taken := by
  rw [nameIn]
  split
  · next h =>
    rw [Bool.and_eq_true] at h
    simpa using h.2
  · split
    · next h =>
      rw [Bool.and_eq_true] at h
      simpa using h.2
    · exact numbered_not_mem short taken

/-- None of `names` is repeated or was taken before. -/
def Fresh (taken names : List String) : Prop :=
  names.Nodup ∧ ∀ n ∈ names, n ∉ taken

theorem Fresh.cons {taken names : List String} {n : String} (hn : n ∉ taken)
    (h : Fresh (n :: taken) names) : Fresh taken (n :: names) := by
  constructor
  · exact List.nodup_cons.mpr ⟨fun hm => h.2 n hm List.mem_cons_self, h.1⟩
  · intro k hk
    rcases List.mem_cons.mp hk with rfl | hk
    · exact hn
    · exact fun hm => h.2 k hk (List.mem_cons_of_mem _ hm)

theorem Fresh.append {taken a b : List String} (ha : Fresh taken a)
    (hb : Fresh (a.reverse ++ taken) b) : Fresh taken (a ++ b) := by
  constructor
  · refine List.nodup_append.mpr ⟨ha.1, hb.1, ?_⟩
    rintro x hx y hy rfl
    exact hb.2 x hy (List.mem_append_left _ (List.mem_reverse.mpr hx))
  · intro k hk
    rcases List.mem_append.mp hk with hk | hk
    · exact ha.2 k hk
    · exact fun hm => hb.2 k hk (List.mem_append_right _ hm)

def TypeEntry.unnamed (t : TypeEntry) : TypeEntry := { t with name := "", qualified := "" }

namespace Model

/-- The namings of the classes of a bucket after the first, in order. -/
def furtherNames (short : String) (taken : List String) :
    List AnonymousClass → List (TypeId × String)
  | [] => []
  | c :: rest =>
    let name := c.nameIn short taken false false
    (c.retained, name) :: furtherNames short (name :: taken) rest

/-- The namings of the classes of a bucket, in order. -/
def classNames (short : String) (taken : List String) :
    List AnonymousClass → List (TypeId × String)
  | [] => []
  | c :: rest =>
    let name := c.nameIn short taken true rest.isEmpty
    (c.retained, name) :: furtherNames short (name :: taken) rest

/-- The namings of all buckets of a group whose names in use are `taken`, in order. -/
def groupNames (m : Model) (taken : List String) :
    Table String (List TypeId) → List (TypeId × String)
  | [] => []
  | (short, members) :: rest =>
    let names := classNames short taken (m.classesOf members)
    names ++ m.groupNames ((names.map Prod.snd).reverse ++ taken) rest

def assignNames (m : Model) (names : List (TypeId × String)) : Model :=
  names.foldl (fun m e => m.setName e.1 e.2) m

theorem furtherNames_fresh (short : String) (taken : List String) (cs : List AnonymousClass) :
    Fresh taken ((furtherNames short taken cs).map Prod.snd) := by
  induction cs generalizing taken with
  | nil => exact ⟨List.nodup_nil, by simp [furtherNames]⟩
  | cons c rest ih => exact Fresh.cons (c.nameIn_not_mem short taken false false) (ih _)

theorem classNames_fresh (short : String) (taken : List String) (cs : List AnonymousClass) :
    Fresh taken ((classNames short taken cs).map Prod.snd) := by
  cases cs with
  | nil => exact ⟨List.nodup_nil, by simp [classNames]⟩
  | cons c rest =>
    exact Fresh.cons (c.nameIn_not_mem short taken true rest.isEmpty) (furtherNames_fresh _ _ _)

theorem groupNames_fresh (m : Model) (taken : List String) (t : Table String (List TypeId)) :
    Fresh taken ((m.groupNames taken t).map Prod.snd) := by
  induction t generalizing taken with
  | nil => exact ⟨List.nodup_nil, by simp [groupNames]⟩
  | cons b t ih =>
    simp only [groupNames, List.map_append]
    exact (classNames_fresh _ _ _).append (ih _)

theorem furtherNames_ids (short : String) (taken : List String) (cs : List AnonymousClass) :
    (furtherNames short taken cs).map Prod.fst = cs.map AnonymousClass.retained := by
  induction cs generalizing taken with
  | nil => rfl
  | cons c rest ih => simp [furtherNames, ih]

theorem classNames_ids (short : String) (taken : List String) (cs : List AnonymousClass) :
    (classNames short taken cs).map Prod.fst = cs.map AnonymousClass.retained := by
  cases cs with
  | nil => rfl
  | cons c rest => simp [classNames, furtherNames_ids]

theorem groupNames_ids (m : Model) (taken : List String) (t : Table String (List TypeId)) :
    (m.groupNames taken t).map Prod.fst =
      t.flatMap fun b => (m.classesOf b.2).map AnonymousClass.retained := by
  induction t generalizing taken with
  | nil => rfl
  | cons b t ih => simp [groupNames, classNames_ids, ih]

/-- A bucket has one class for each object that stands for one of its members. -/
theorem classesOf_retained (m : Model) (members : List TypeId) :
    ((m.classesOf members).map AnonymousClass.retained).Perm (setOf (members.map m.resolve)) := by
  rw [classesOf]
  refine ((List.mergeSort_perm _ _).map _).trans ?_
  simp [classOf, Function.comp_def]

theorem classesOf_nodup (m : Model) (members : List TypeId) :
    ((m.classesOf members).map AnonymousClass.retained).Nodup :=
  (m.classesOf_retained members).nodup_iff.mpr (nodup_setOf _)

theorem mem_classesOf {m : Model} {members : List TypeId} {id : TypeId} :
    id ∈ (m.classesOf members).map AnonymousClass.retained ↔ ∃ i ∈ members, m.resolve i = id := by
  rw [(m.classesOf_retained members).mem_iff, mem_setOf, List.mem_map]

/-! The pass as its namings. -/

theorem foldl_nameClass (short : String) (n : NamesInUse) (cs : List AnonymousClass) :
    cs.foldl (nameClass short false false) n =
      (((furtherNames short n.1 cs).map Prod.snd).reverse ++ n.1,
        n.2.assignNames (furtherNames short n.1 cs)) := by
  induction cs generalizing n with
  | nil => rfl
  | cons c rest ih =>
    rw [List.foldl_cons, ih]
    simp [nameClass, furtherNames, assignNames]

theorem nameClasses_eq (short : String) (n : NamesInUse) (cs : List AnonymousClass) :
    nameClasses short n cs =
      (((classNames short n.1 cs).map Prod.snd).reverse ++ n.1,
        n.2.assignNames (classNames short n.1 cs)) := by
  cases cs with
  | nil => rfl
  | cons c rest =>
    rw [nameClasses, foldl_nameClass]
    simp [nameClass, classNames, assignNames]

/-! What naming leaves alone. -/

/-- `m'` comes from `m` by changing names, none of them outside `ids`. -/
structure RenamesTo (ids : List TypeId) (m m' : Model) : Prop extends
    SameUpTo TypeEntry.unnamed m m' where
  outside : ∀ i, i ∉ ids → m'.types[i]? = m.types[i]?

theorem RenamesTo.refl (ids : List TypeId) (m : Model) : RenamesTo ids m m :=
  ⟨.refl _ m, fun _ _ => rfl⟩

theorem RenamesTo.trans {ids : List TypeId} {m₁ m₂ m₃ : Model} (h : RenamesTo ids m₁ m₂)
    (h' : RenamesTo ids m₂ m₃) : RenamesTo ids m₁ m₃ where
  toSameUpTo := h.toSameUpTo.trans h'.toSameUpTo
  outside := fun i hi => (h'.outside i hi).trans (h.outside i hi)

theorem RenamesTo.amend {ids : List TypeId} {id : TypeId} (m : Model)
    {f : TypeEntry → TypeEntry} (hid : id ∈ ids) (hf : ∀ t, (f t).unnamed = t.unnamed) :
    RenamesTo ids m (m.amend id f) where
  groups := rfl
  index := rfl
  entries := map_getElem?_amend hf
  outside := by
    intro i hi
    have hne : i ≠ id := by
      rintro rfl
      exact hi hid
    rw [getElem?_amend, if_neg hne]

section RenamesTo

variable {ids : List TypeId} {m m' : Model}

theorem RenamesTo.groupOf? (h : RenamesTo ids m m') (i : TypeId) : m'.groupOf? i = m.groupOf? i :=
  h.map_getElem? (fun _ => rfl) i

theorem RenamesTo.fullNameOf (h : RenamesTo ids m m') (i : TypeId) :
    m'.fullNameOf i = m.fullNameOf i :=
  h.toSameUpTo.fullNameOf (fun _ => rfl) i

theorem RenamesTo.mergedInto? (h : RenamesTo ids m m') (i : TypeId) :
    m'.mergedInto? i = m.mergedInto? i :=
  h.toSameUpTo.mergedInto? (fun _ => rfl) i

theorem RenamesTo.resolve (h : RenamesTo ids m m') (i : TypeId) : m'.resolve i = m.resolve i :=
  resolve_congr h.size_eq h.mergedInto? i

theorem RenamesTo.structureOf (h : RenamesTo ids m m') (i : TypeId) :
    m'.structureOf i = m.structureOf i := by
  have hh : (m'.types[i]?).map TypeEntry.properties = (m.types[i]?).map TypeEntry.properties :=
    h.map_getElem? (fun _ => rfl) i
  rw [Model.structureOf, Model.structureOf, funext h.resolve]
  cases hm : m.types[i]? <;> cases hm' : m'.types[i]? <;> simp_all

theorem RenamesTo.classesOf (h : RenamesTo ids m m') (members : List TypeId) :
    m'.classesOf members = m.classesOf members := by
  have hclass : m'.classOf members = m.classOf members := by
    funext r
    simp only [classOf, h.resolve, h.fullNameOf, h.structureOf]
  rw [Model.classesOf, Model.classesOf, hclass, funext h.resolve]

theorem RenamesTo.wellFormed (h : RenamesTo ids m m') (hm : m.WellFormed)
    (hids : ∀ i ∈ ids, ∃ key short, i ∈ m.bucket key short) : m'.WellFormed := by
  refine h.toSameUpTo.wellFormed hm (fun _ => rfl) (fun _ => rfl) (fun _ => rfl)
    fun {_ _ id} hid => ?_
  have hout : id ∉ ids := by
    intro hmem
    obtain ⟨key', short, hb⟩ := hids id hmem
    exact hm.apart hid hb
  rw [h.outside id hout]

end RenamesTo

theorem assignNames_renames {ids : List TypeId} {names : List (TypeId × String)} (m : Model)
    (h : ∀ e ∈ names, e.1 ∈ ids) : RenamesTo ids m (m.assignNames names) := by
  induction names generalizing m with
  | nil => exact RenamesTo.refl ids m
  | cons e names ih =>
    have hfirst : RenamesTo ids m (m.setName e.1 e.2) :=
      RenamesTo.amend m (h e List.mem_cons_self) fun _ => rfl
    exact hfirst.trans (ih _ fun e' he' => h e' (List.mem_cons_of_mem _ he'))

theorem shareQualified_renames {ids : List TypeId} {shared : List TypeId} (m : Model)
    (h : ∀ i ∈ shared, i ∈ ids) : RenamesTo ids m (shared.foldl shareQualified m) := by
  induction shared generalizing m with
  | nil => exact RenamesTo.refl ids m
  | cons i shared ih =>
    have hfirst : RenamesTo ids m (m.shareQualified i) := by
      rw [shareQualified]
      split
      · exact RenamesTo.refl ids m
      · split
        · exact RenamesTo.amend m (h i List.mem_cons_self) fun _ => rfl
        · exact RenamesTo.refl ids m
    exact hfirst.trans (ih _ fun j hj => h j (List.mem_cons_of_mem _ hj))

theorem groupNames_congr {ids : List TypeId} {m m' : Model} (h : RenamesTo ids m m')
    (taken : List String) (t : Table String (List TypeId)) :
    m'.groupNames taken t = m.groupNames taken t := by
  induction t generalizing taken with
  | nil => rfl
  | cons b t ih => simp only [groupNames, h.classesOf, ih]

theorem nameAnonymous_eq (m : Model) (taken : List String) (t : Table String (List TypeId)) :
    m.nameAnonymous taken t = m.assignNames (m.groupNames taken t) := by
  rw [nameAnonymous]
  induction t generalizing m taken with
  | nil => rfl
  | cons b t ih =>
    have hnames := assignNames_renames m (fun e (he : e ∈ classNames b.1 taken (m.classesOf b.2)) =>
      List.mem_map_of_mem he)
    rw [List.foldl_cons, nameBucket, nameClasses_eq, ih, groupNames_congr hnames]
    simp [groupNames, assignNames]

end Model

end SchemaCompiler
