import Mathlib.Data.List.Nodup
import Mathlib.Data.List.TakeWhile
import SchemaCompiler.Import.Scope

/-! Reading identifiers. What an identifier is read as says which identifier it was, so that no two
definitions are read as one name. -/

namespace SchemaCompiler

theorem GroupKey.of_inj {q q' : QualifiedName} :
    GroupKey.of q = GroupKey.of q' ∧ q.name = q'.name ↔ q = q' := by
  obtain ⟨name, group, version⟩ := q
  obtain ⟨name', group', version'⟩ := q'
  simp only [GroupKey.of, GroupKey.mk.injEq, QualifiedName.mk.injEq]
  tauto

namespace QualifiedName

theorem afterStart?_eq_some_iff {start text rest : String} :
    afterStart? start text = some rest ↔ start ++ rest = text := by
  simp only [afterStart?, Option.map_eq_some_iff, List.isPrefixOf?_eq_some_iff_append_eq]
  constructor
  · rintro ⟨cs, hcs, rfl⟩
    apply String.ext
    simpa using hcs
  · rintro rfl
    exact ⟨rest.toList, by simp, by simp⟩

/-- No reference path stands in front of the key. -/
def Bare (key : String) : Prop := ∀ path ∈ referencePaths, ¬path.toList <+: key.toList

theorem Bare.identifier {key : String} (h : Bare key) : identifier key = key := by
  have hnone : referencePaths.findSome? (afterStart? · key) = none := by
    rw [List.findSome?_eq_none_iff]
    intro path hpath
    cases hrest : afterStart? path key with
    | none => rfl
    | some rest =>
      have hkey := afterStart?_eq_some_iff.mp hrest
      refine absurd ?_ (h path hpath)
      exact ⟨rest.toList, by rw [← hkey, String.toList_append]⟩
  simp [QualifiedName.identifier, hnone]

/-- A key may be written with either path in front of it. -/
theorem identifier_path {path : String} (h : path ∈ referencePaths) (key : String) :
    identifier (path ++ key) = key := by
  have hself : ∀ start, afterStart? start (start ++ key) = some key := fun start =>
    afterStart?_eq_some_iff.mpr rfl
  simp only [referencePaths, List.mem_cons, List.not_mem_nil, or_false] at h
  rcases h with rfl | rfl
  · simp [identifier, referencePaths, hself]
  · have hfirst : afterStart? "#/definitions/" ("#/components/schemas/" ++ key) = none := by
      simp [afterStart?, String.toList_append, List.isPrefixOf?]
    simp [identifier, referencePaths, hself, hfirst]

/-! What is read. -/

theorem ofList_ne_empty_iff {cs : List Char} : String.ofList cs ≠ "" ↔ cs.isEmpty = false := by
  cases cs <;> simp

theorem versionAndName?_eq_some_iff {text version name : String} :
    versionAndName? text = some (version, name) ↔
      version ≠ "" ∧ '.' ∉ version.toList ∧ name ≠ "" ∧ text = version ++ "." ++ name := by
  constructor
  · intro h
    rw [versionAndName?] at h
    split at h
    · cases h
    · next dot rest hrest =>
      split at h
      · cases h
      · next hfull =>
        rw [Bool.or_eq_true, not_or, Bool.not_eq_true, Bool.not_eq_true] at hfull
        obtain ⟨rfl, rfl⟩ := Prod.mk.inj (Option.some.inj h)
        -- what stops the version is a dot
        have hdot : dot = '.' := by
          have hstop := List.head_dropWhile_not (· != '.') (l := text.toList) (by simp [hrest])
          simpa [hrest] using hstop
        have hsplit := List.takeWhile_append_dropWhile (p := (· != '.')) (l := text.toList)
        rw [hrest, hdot] at hsplit
        refine ⟨ofList_ne_empty_iff.mpr hfull.1, fun hmem => ?_, ofList_ne_empty_iff.mpr hfull.2, ?_⟩
        · rw [String.toList_ofList] at hmem
          simpa using List.mem_takeWhile_imp hmem
        · apply String.ext
          simpa using hsplit.symm
  · rintro ⟨hversion, hdot, hname, rfl⟩
    have hpass : ∀ c ∈ version.toList, (c != '.') = true := by
      intro c hc
      rw [bne_iff_ne]
      rintro rfl
      exact hdot hc
    have htext : (version ++ "." ++ name).toList = version.toList ++ '.' :: name.toList := by simp
    have hbefore : (version ++ "." ++ name).toList.takeWhile (· != '.') = version.toList := by
      rw [htext, List.takeWhile_append_of_pos hpass]
      simp
    have hafter : (version ++ "." ++ name).toList.dropWhile (· != '.') = '.' :: name.toList := by
      rw [htext, List.dropWhile_append_of_pos hpass]
      simp
    simp only [versionAndName?, hbefore, hafter]
    simp [hversion, hname]

/-- The identifier is what a group's identifiers start with, a version without dots and a name, with
dots in between. -/
def TabledAs (table : List (String × String)) (id : String) (q : QualifiedName) : Prop :=
  ∃ start version, (start, q.group) ∈ table ∧ q.version = some version ∧
    id = start ++ "." ++ (version ++ "." ++ q.name) ∧ version ≠ "" ∧ '.' ∉ version.toList ∧ q.name ≠ ""

theorem tabledAs_of_tabled? {id : String} {table : List (String × String)} {q : QualifiedName}
    (h : tabled? id table = some q) : TabledAs table id q := by
  induction table with
  | nil => cases h
  | cons e table ih =>
    obtain ⟨start, group⟩ := e
    rw [tabled?] at h
    split at h
    · next text htext =>
      obtain ⟨⟨version, name⟩, hsplit, rfl⟩ := Option.map_eq_some_iff.mp h
      obtain ⟨hversion, hdot, hname, hrest⟩ := versionAndName?_eq_some_iff.mp hsplit
      refine ⟨start, version, List.mem_cons_self, rfl, ?_, hversion, hdot, hname⟩
      rw [← afterStart?_eq_some_iff.mp htext, hrest]
    · obtain ⟨start', version, hmem, hrest⟩ := ih h
      exact ⟨start', version, List.mem_cons_of_mem _ hmem, hrest⟩

theorem special?_eq_some {id : String} {q : QualifiedName} (h : special? id = some q) :
    (id, q.name, q.group) ∈ specialTable ∧ q.version = none := by
  obtain ⟨e, he, rfl⟩ := Option.map_eq_some_iff.mp h
  have hid : e.1 = id := by simpa using List.find?_some he
  refine ⟨?_, rfl⟩
  rw [← hid]
  exact List.mem_of_find?_eq_some he

theorem parse?_eq_some {key : String} {q : QualifiedName} (h : parse? key = some q) :
    special? (identifier key) = some q ∨
      special? (identifier key) = none ∧ tabled? (identifier key) groupTable = some q := by
  rw [parse?] at h
  cases hs : special? (identifier key) with
  | none => exact .inr ⟨rfl, by simpa [hs] using h⟩
  | some q' => exact .inl (by simpa [hs] using h)

theorem eq_of_groupTable {start start' group : String} (h : (start, group) ∈ groupTable)
    (h' : (start', group) ∈ groupTable) : start = start' := by
  have hnodup : (groupTable.map Prod.snd).Nodup := by decide
  exact (Prod.mk.inj (List.inj_on_of_nodup_map hnodup h h' rfl)).1

theorem eq_of_specialTable {id id' name group : String} (h : (id, name, group) ∈ specialTable)
    (h' : (id', name, group) ∈ specialTable) : id = id' := by
  have hnodup : (specialTable.map Prod.snd).Nodup := by decide
  exact (Prod.mk.inj (List.inj_on_of_nodup_map hnodup h h' rfl)).1

/-- Keys that are read as the same name have the same identifier. -/
theorem parse?_inj {key key' : String} {q : QualifiedName} (h : parse? key = some q)
    (h' : parse? key' = some q) : identifier key = identifier key' := by
  rcases parse?_eq_some h with hs | ⟨-, ht⟩
  · obtain ⟨hmem, hversion⟩ := special?_eq_some hs
    rcases parse?_eq_some h' with hs' | ⟨-, ht'⟩
    · exact eq_of_specialTable hmem (special?_eq_some hs').1
    · obtain ⟨-, version, -, hversion', -⟩ := tabledAs_of_tabled? ht'
      rw [hversion] at hversion'
      cases hversion'
  · obtain ⟨start, version, hmem, hversion, hid, -⟩ := tabledAs_of_tabled? ht
    rcases parse?_eq_some h' with hs' | ⟨-, ht'⟩
    · rw [(special?_eq_some hs').2] at hversion
      cases hversion
    · obtain ⟨start', version', hmem', hversion', hid', -⟩ := tabledAs_of_tabled? ht'
      obtain rfl := eq_of_groupTable hmem hmem'
      obtain rfl := Option.some.inj (hversion.symm.trans hversion')
      rw [hid, hid']

/-! Well-known definitions. -/

def quantityKey : String := "io.k8s.apimachinery.pkg.api.resource.Quantity"

def intOrStringKey : String := "io.k8s.apimachinery.pkg.util.intstr.IntOrString"

/-- The definitions that every output has ready-made, by identifier. -/
def wellKnownAt? (id : String) : Option WellKnown :=
  if id = quantityKey then some .quantity
  else if id = intOrStringKey then some .intOrString
  else none

theorem wellKnown?_of_parse? {key : String} {q : QualifiedName} (h : parse? key = some q) :
    wellKnown? q = wellKnownAt? (identifier key) := by
  rcases parse?_eq_some h with hs | ⟨hs, ht⟩
  · obtain ⟨hmem, hversion⟩ := special?_eq_some hs
    obtain ⟨name, group, version⟩ := q
    obtain rfl : version = none := hversion
    generalize identifier key = id at hmem
    simp only [specialTable, List.mem_cons, Prod.mk.injEq, List.not_mem_nil, or_false] at hmem
    rcases hmem with ⟨rfl, rfl, rfl⟩ | ⟨rfl, rfl, rfl⟩ | ⟨rfl, rfl, rfl⟩ | ⟨rfl, rfl, rfl⟩ <;> decide
  · obtain ⟨start, version, -, hversion, -⟩ := tabledAs_of_tabled? ht
    have hleft : wellKnown? q = none := by simp [wellKnown?, isSpecial, hversion]
    have hne : ∀ id, special? id ≠ none → identifier key ≠ id := by
      rintro id hid rfl
      exact hid hs
    rw [hleft, wellKnownAt?, if_neg (hne _ (by decide)), if_neg (hne _ (by decide))]

end QualifiedName

end SchemaCompiler
