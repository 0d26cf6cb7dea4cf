import Mathlib.Data.List.Infix
import Mathlib.Data.List.Pairwise
import SchemaCompiler.Proofs.QualifiedName

/-! How identifiers are laid out. An identifier is read exactly if it has one of the two layouts, and is
read as what that says. It has only one layout, since no group's identifiers begin as another group's
do, and what it is read as can be written in one way only. -/

namespace SchemaCompiler.QualifiedName

variable {reference id id' start group text : String} {table : List (String × String)}
  {q q' : QualifiedName}

/-- What a reference points at: the path in front, if there is one, is left out once. -/
def PointsAt (reference id : String) : Prop :=
  (∃ path ∈ referencePaths, reference = path ++ id) ∨ Bare reference ∧ reference = id

theorem pointsAt_iff : PointsAt reference id ↔ identifier reference = id := by
  constructor
  · rintro (⟨path, hpath, rfl⟩ | ⟨hbare, rfl⟩)
    · exact identifier_path hpath id
    · exact hbare.identifier
  · rintro rfl
    by_cases hbare : Bare reference
    · exact .inr ⟨hbare, hbare.identifier.symm⟩
    · rw [Bare] at hbare
      push Not at hbare
      obtain ⟨path, hpath, rest, hrest⟩ := hbare
      have hreference : reference = path ++ String.ofList rest := by
        apply String.ext
        rw [← hrest, String.toList_append, String.toList_ofList]
      refine .inl ⟨path, hpath, ?_⟩
      rw [hreference, identifier_path hpath]

/-! Reading off a table. -/

/-- No start in the table, with the dot behind it, begins with another one. -/
def Apart (table : List (String × String)) : Prop :=
  ∀ e ∈ table, ∀ e' ∈ table, (e.1 ++ ".").toList <+: (e'.1 ++ ".").toList → e = e'

/-- Neither text begins with the other one. -/
def Diverge (a b : String) : Prop := ¬a.toList <+: b.toList ∧ ¬b.toList <+: a.toList

instance : DecidableRel Diverge := fun a b =>
  inferInstanceAs (Decidable (¬a.toList <+: b.toList ∧ ¬b.toList <+: a.toList))

/-- How the identifiers of each group begin, and the identifiers that are listed on their own. -/
def beginnings : List String := groupTable.map (·.1 ++ ".") ++ specialTable.map Prod.fst

theorem beginnings_diverge : beginnings.Pairwise Diverge := by decide +kernel

theorem apart_groupTable : Apart groupTable := by
  have hstarts := List.pairwise_map.mp (List.pairwise_append.mp beginnings_diverge).1
  have hsymm : Std.Symm fun e e' : String × String => Diverge (e.1 ++ ".") (e'.1 ++ ".") :=
    ⟨fun _ _ => And.symm⟩
  intro e he e' he' hprefix
  by_contra hne
  exact (hstarts.forall he he' hne).1 hprefix

theorem diverge_of_special {e : String × String} {e' : String × String × String}
    (he : e ∈ groupTable) (he' : e' ∈ specialTable) : Diverge (e.1 ++ ".") e'.1 :=
  (List.pairwise_append.mp beginnings_diverge).2.2 _ (List.mem_map_of_mem he) _ (List.mem_map_of_mem he')

theorem prefix_of_afterStart? (h : afterStart? start id = some text) : start.toList <+: id.toList :=
  ⟨text.toList, by rw [← afterStart?_eq_some_iff.mp h, String.toList_append]⟩

/-- The only start that an identifier has in the table decides, wherever it stands. -/
theorem tabled?_of_only (honly : ∀ e ∈ table, (e.1 ++ ".").toList <+: id.toList → e = (start, group))
    (hmem : (start, group) ∈ table) (htext : afterStart? (start ++ ".") id = some text) :
    tabled? id table =
      (versionAndName? text).map fun (version, name) => ⟨name, group, some version⟩ := by
  induction table with
  | nil => cases hmem
  | cons e table ih =>
    obtain ⟨start', group'⟩ := e
    rw [tabled?]
    split
    · next text' htext' =>
      obtain ⟨rfl, rfl⟩ := Prod.mk.inj (honly _ List.mem_cons_self (prefix_of_afterStart? htext'))
      rw [Option.some.inj (htext'.symm.trans htext)]
    · next hnone =>
      refine ih (fun e he => honly e (List.mem_cons_of_mem _ he)) ?_
      rcases List.mem_cons.mp hmem with heq | hmem
      · obtain ⟨rfl, rfl⟩ := Prod.mk.inj heq
        rw [htext] at hnone
        cases hnone
      · exact hmem

theorem tabled?_eq_some_iff (h : Apart table) : tabled? id table = some q ↔ TabledAs table id q := by
  refine ⟨tabledAs_of_tabled?, ?_⟩
  rintro ⟨start, version, hmem, hversion, hid, hne, hdot, hname⟩
  have htext : afterStart? (start ++ ".") id = some (version ++ "." ++ q.name) :=
    afterStart?_eq_some_iff.mpr hid.symm
  have honly : ∀ e ∈ table, (e.1 ++ ".").toList <+: id.toList → e = (start, q.group) := by
    intro e he hprefix
    rcases List.prefix_or_prefix_of_prefix hprefix (prefix_of_afterStart? htext) with hle | hle
    · exact h e he _ hmem hle
    · exact (h _ hmem e he hle).symm
  obtain ⟨name, group, version'⟩ := q
  obtain rfl : version' = some version := hversion
  rw [tabled?_of_only honly hmem htext, versionAndName?_eq_some_iff.mpr ⟨hne, hdot, hname, rfl⟩,
    Option.map_some]

theorem tabled?_perm {table' : List (String × String)} (h : Apart table) (hperm : table'.Perm table)
    (id : String) : tabled? id table' = tabled? id table := by
  have h' : Apart table' := fun e he e' he' => h e (hperm.mem_iff.mp he) e' (hperm.mem_iff.mp he')
  apply Option.ext
  intro q
  rw [tabled?_eq_some_iff h, tabled?_eq_some_iff h', TabledAs, TabledAs]
  simp only [hperm.mem_iff]

/-! The two layouts. -/

/-- What an identifier says: it is listed on its own, or it is one of a tabled group's. -/
def LaidOut (id : String) (q : QualifiedName) : Prop :=
  (id, q.name, q.group) ∈ specialTable ∧ q.version = none ∨ TabledAs groupTable id q

theorem special?_of_mem (h : (id, q.name, q.group) ∈ specialTable) (hversion : q.version = none) :
    special? id = some q := by
  have hall : ∀ e ∈ specialTable, special? e.1 = some ⟨e.2.1, e.2.2, none⟩ := by decide
  rw [hall _ h, ← hversion]

/-- No identifier has both layouts. -/
theorem TabledAs.special?_eq_none (h : TabledAs groupTable id q) : special? id = none := by
  obtain ⟨start, version, hmem, -, rfl, -⟩ := h
  cases hs : special? (start ++ "." ++ (version ++ "." ++ q.name)) with
  | none => rfl
  | some q' =>
    refine absurd ?_ (diverge_of_special hmem (special?_eq_some hs).1).1
    exact prefix_of_afterStart? (afterStart?_eq_some_iff.mpr rfl)

theorem parse?_eq_some_iff :
    parse? reference = some q ↔ ∃ id, PointsAt reference id ∧ LaidOut id q := by
  constructor
  · intro h
    refine ⟨identifier reference, pointsAt_iff.mpr rfl, ?_⟩
    rcases parse?_eq_some h with hs | ⟨-, ht⟩
    · exact .inl (special?_eq_some hs)
    · exact .inr (tabledAs_of_tabled? ht)
  · rintro ⟨id, hpoints, hlaid⟩
    obtain rfl := pointsAt_iff.mp hpoints
    rw [parse?]
    rcases hlaid with ⟨hmem, hversion⟩ | ht
    · rw [special?_of_mem hmem hversion, Option.some_or]
    · rw [ht.special?_eq_none, Option.none_or]
      exact (tabled?_eq_some_iff apart_groupTable).mpr ht

/-! Writing names down. -/

/-- What stands behind the group where a name is written down. -/
def afterGroup (q : QualifiedName) : String :=
  match q.version with
  | some version => version ++ "." ++ q.name
  | none => q.name

theorem qualify_eq (q : QualifiedName) :
    (GroupKey.of q).qualify q.name = q.group ++ "." ++ q.afterGroup := by
  obtain ⟨name, group, version⟩ := q
  cases version with
  | none => rfl
  | some version => simp [GroupKey.qualify, GroupKey.display, GroupKey.of, afterGroup, String.append_assoc]

theorem LaidOut.group_undotted (h : LaidOut id q) : q.group ≠ "" ∧ '.' ∉ q.group.toList := by
  have hspecial : ∀ e ∈ specialTable, e.2.2 ≠ "" ∧ '.' ∉ e.2.2.toList := by simp [specialTable]
  have htabled : ∀ e ∈ groupTable, e.2 ≠ "" ∧ '.' ∉ e.2.toList := by simp [groupTable]
  rcases h with ⟨hmem, -⟩ | ⟨start, version, hmem, -⟩
  · exact hspecial _ hmem
  · exact htabled _ hmem

/-- A version stands where there is another dot. -/
theorem LaidOut.versionAndName? (h : LaidOut id q) :
    versionAndName? q.afterGroup = q.version.map (·, q.name) := by
  have hspecial : ∀ e ∈ specialTable, QualifiedName.versionAndName? e.2.1 = none := by
    simp [specialTable, QualifiedName.versionAndName?]
  rcases h with ⟨hmem, hversion⟩ | ⟨start, version, -, hversion, -, hne, hdot, hname⟩
  · rw [afterGroup, hversion]
    exact hspecial _ hmem
  · rw [afterGroup, hversion]
    exact versionAndName?_eq_some_iff.mpr ⟨hne, hdot, hname, rfl⟩

theorem LaidOut.afterGroup_ne (h : LaidOut id q) : q.afterGroup ≠ "" := by
  have hspecial : ∀ e ∈ specialTable, e.2.1 ≠ "" := by decide
  rcases h with ⟨hmem, hversion⟩ | ⟨start, version, -, hversion, -, hne, -⟩
  · rw [afterGroup, hversion]
    exact hspecial _ hmem
  · simp [afterGroup, hversion, hne]

/-- A name that was read can be told from its text: group and version end at the first two dots. -/
theorem LaidOut.eq_of_qualify_eq (h : LaidOut id q) (h' : LaidOut id' q')
    (heq : (GroupKey.of q).qualify q.name = (GroupKey.of q').qualify q'.name) : q = q' := by
  have hsplit : ∀ {id q}, LaidOut id q →
      QualifiedName.versionAndName? ((GroupKey.of q).qualify q.name) = some (q.group, q.afterGroup) :=
    fun h => versionAndName?_eq_some_iff.mpr
      ⟨h.group_undotted.1, h.group_undotted.2, h.afterGroup_ne, qualify_eq _⟩
  have hparts := hsplit h'
  rw [← heq, hsplit h, Option.some.injEq, Prod.mk.injEq] at hparts
  obtain ⟨hgroup, hafter⟩ := hparts
  have hversions := h'.versionAndName?
  rw [← hafter, h.versionAndName?] at hversions
  obtain ⟨name, group, version⟩ := q
  obtain ⟨name', group', version'⟩ := q'
  obtain rfl : group = group' := hgroup
  cases version with
  | none =>
    cases version' with
    | none => rw [show name = name' from hafter]
    | some version' => cases hversions
  | some version =>
    cases version' with
    | none => cases hversions
    | some version' =>
      obtain ⟨rfl, rfl⟩ := Prod.mk.inj (Option.some.inj hversions)
      rfl

/-- Identifiers are read without doubt: what a reference is read as is what the layout of its identifier
says, the order in which groups are listed does not matter, and references that are read alike, or as
names that are written alike, point at one identifier. -/
theorem parse?_unambiguous (reference : String) :
    (∀ q, parse? reference = some q ↔ ∃ id, PointsAt reference id ∧ LaidOut id q) ∧
      (∀ id, PointsAt reference id → ∀ table, table.Perm groupTable →
        (special? id).or (tabled? id table) = parse? reference) ∧
      ∀ reference' q q', parse? reference = some q → parse? reference' = some q' →
        q = q' ∨ (GroupKey.of q).qualify q.name = (GroupKey.of q').qualify q'.name →
          ∀ id id', PointsAt reference id → PointsAt reference' id' → id = id' := by
  refine ⟨fun q => parse?_eq_some_iff, ?_, ?_⟩
  · intro id hid table hperm
    rw [parse?, pointsAt_iff.mp hid, tabled?_perm apart_groupTable hperm]
  · intro reference' q q' hq hq' hsame id id' hid hid'
    obtain ⟨k, -, hk⟩ := parse?_eq_some_iff.mp hq
    obtain ⟨k', -, hk'⟩ := parse?_eq_some_iff.mp hq'
    obtain rfl : q = q' := hsame.elim (fun h => h) (hk.eq_of_qualify_eq hk')
    rw [← pointsAt_iff.mp hid, ← pointsAt_iff.mp hid', parse?_inj hq hq']

end SchemaCompiler.QualifiedName
