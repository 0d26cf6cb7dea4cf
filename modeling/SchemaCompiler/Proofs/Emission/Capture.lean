import SchemaCompiler.Proofs.Emission.Containment
import SchemaCompiler.Proofs.Emission.Identifier

/-! Items that capture names. A module is written with names of the language and its libraries, which an
item of the module takes over if it has the same name. Where overrides name no types, an object gets
such a name from the properties it lies under. Some item bears the short name of every object, whatever
name that is. -/

namespace SchemaCompiler

open Naming (shortName longName typeName typeWord typeLetters_eq append_words_eq typeWord_ne longName_eq
  exists_digit_repr)

/-- All names that a module may use for other things than its items. -/
def libraryNames : List String := ["Option", "Vec", "Box", "String", "BTreeMap", "Serialize",
  "Deserialize", "Resource", "NamespacedResource", "ClusterResource"]

/-- The names that a type is spelled with, those of items apart. -/
def TypeText.borrows : TypeText → List String
  | builtin name => if name = "String" then [name] else []
  | item _ _ boxed => if boxed then ["Box"] else []
  | vec t => "Vec" :: t.borrows
  | dict t => "BTreeMap" :: "String" :: t.borrows
  | _ => []

def Field.borrows (f : Field) : List String :=
  (if f.optional then ["Option"] else []) ++ f.type.borrows

/-- What an implementation of the traits of a resource is written with. -/
def ApiResource.borrows (r : ApiResource) : List String :=
  ["Resource", "Option", Model.scopeName r.namespaced]

def ItemBody.borrows : ItemBody → List String
  | synonym target => target.borrows
  | record fields resource =>
    ["Serialize", "Deserialize"] ++ fields.flatMap Field.borrows ++
      (resource.map ApiResource.borrows).getD []

variable {name : String}

theorem TypeText.borrows_subset : ∀ t : TypeText, t.borrows ⊆ libraryNames
  | builtin name => by
    rw [borrows]
    split
    · next hname =>
      subst hname
      decide
    · exact List.nil_subset _
  | item _ _ true => by simp [borrows, libraryNames]
  | item _ _ false => List.nil_subset _
  | vec t => List.cons_subset.mpr ⟨by decide, t.borrows_subset⟩
  | dict t => List.cons_subset.mpr ⟨by decide, List.cons_subset.mpr ⟨by decide, t.borrows_subset⟩⟩
  | base _ | foreign .. | canonical .. => List.nil_subset _

theorem Field.borrows_subset (f : Field) : f.borrows ⊆ libraryNames := by
  rw [borrows]
  refine List.append_subset.mpr ⟨?_, f.type.borrows_subset⟩
  split
  · decide
  · exact List.nil_subset _

theorem ApiResource.borrows_subset (r : ApiResource) : r.borrows ⊆ libraryNames := by
  cases hr : r.namespaced <;> simp [borrows, hr, Model.scopeName, libraryNames]

theorem ItemBody.borrows_subset : ∀ body : ItemBody, body.borrows ⊆ libraryNames
  | synonym target => target.borrows_subset
  | record fields resource => by
    refine List.append_subset.mpr ⟨List.append_subset.mpr ⟨by decide, fun name hname => ?_⟩, ?_⟩
    · obtain ⟨f, -, hname⟩ := List.mem_flatMap.mp hname
      exact f.borrows_subset hname
    · cases resource with
      | none => exact List.nil_subset _
      | some r => exact r.borrows_subset

/-- The names that records are written with, whatever their fields. -/
def recordNames : List String :=
  ["Serialize", "Deserialize", "Option", "Resource", "NamespacedResource", "ClusterResource"]

/-- Other names come from the types that an item is made of. -/
theorem ItemBody.exists_text {body : ItemBody} (h : name ∈ body.borrows) (hname : name ∉ recordNames) :
    ∃ text ∈ body.texts, name ∈ text.borrows := by
  cases body with
  | synonym target => exact ⟨target, List.mem_singleton_self target, h⟩
  | record fields resource =>
    rw [borrows] at h
    rcases List.mem_append.mp h with h | h
    · rcases List.mem_append.mp h with h | h
      · have hfixed : ["Serialize", "Deserialize"] ⊆ recordNames := by decide
        exact absurd (hfixed h) hname
      · obtain ⟨f, hf, h⟩ := List.mem_flatMap.mp h
        rcases List.mem_append.mp h with h | h
        · split at h
          · have hfixed : ["Option"] ⊆ recordNames := by decide
            exact absurd (hfixed h) hname
          · cases h
        · exact ⟨f.type, List.mem_map_of_mem hf, h⟩
    · cases resource with
      | none => cases h
      | some r =>
        have hfixed : r.borrows ⊆ recordNames := by
          cases hr : r.namespaced <;> simp [ApiResource.borrows, hr, Model.scopeName, recordNames]
        exact absurd (hfixed h) hname

/-! The names in the text of a module. -/

/-- Somewhere within `text` stands `name`. -/
def Occurs (name text : String) : Prop := name.toList <:+: text.toList

instance (name text : String) : Decidable (Occurs name text) :=
  inferInstanceAs (Decidable (name.toList <:+: text.toList))

theorem occurs_literal {name text : List Char} (h : name <:+: text) :
    Occurs (String.ofList name) (String.ofList text) := by
  rwa [Occurs, String.toList_ofList, String.toList_ofList]

theorem Occurs.refl (name : String) : Occurs name name := List.infix_rfl

theorem Occurs.append_left {text : String} (h : Occurs name text) (before : String) :
    Occurs name (before ++ text) := by
  rw [Occurs, String.toList_append]
  exact h.trans (List.suffix_append _ _).isInfix

theorem Occurs.append_right {text : String} (h : Occurs name text) (after : String) :
    Occurs name (text ++ after) := by
  rw [Occurs, String.toList_append]
  exact h.trans (List.prefix_append _ _).isInfix

theorem occurs_intercalate {separator : String} {names : List String} (h : name ∈ names) :
    Occurs name (separator.intercalate names) := by
  induction names with
  | nil => cases h
  | cons first rest ih =>
    cases rest with
    | nil =>
      rw [List.mem_singleton.mp h, String.intercalate_singleton]
      exact .refl first
    | cons second rest =>
      rw [String.intercalate_cons_cons]
      rcases List.mem_cons.mp h with rfl | h
      · exact ((Occurs.refl name).append_right separator).append_right _
      · exact (ih h).append_left _

theorem TypeText.occurs_render {t : TypeText} (h : name ∈ t.borrows) : Occurs name t.render := by
  induction t with
  | builtin other =>
    rw [borrows] at h
    split at h
    · rw [List.mem_singleton.mp h]
      exact .refl other
    · cases h
  | item id other boxed =>
    cases boxed with
    | false => cases h
    | true =>
      rw [List.mem_singleton.mp h]
      have hbox : Occurs "Box" "Box<" := occurs_literal (by decide)
      exact (hbox.append_right other).append_right ">"
  | vec t ih =>
    rcases List.mem_cons.mp h with rfl | h
    · have hvec : Occurs "Vec" "Vec<" := occurs_literal (by decide)
      exact (hvec.append_right t.render).append_right ">"
    · exact ((ih h).append_left "Vec<").append_right ">"
  | dict t ih =>
    rcases List.mem_cons.mp h with rfl | h
    · have hmap : Occurs "BTreeMap" "BTreeMap<String, " := occurs_literal (by decide)
      exact (hmap.append_right t.render).append_right ">"
    · rcases List.mem_cons.mp h with rfl | h
      · have hstring : Occurs "String" "BTreeMap<String, " := occurs_literal (by decide)
        exact (hstring.append_right t.render).append_right ">"
      · exact ((ih h).append_left "BTreeMap<String, ").append_right ">"
  | _ => cases h

theorem TypeText.isEmpty_render {t : TypeText} (h : name ∈ t.borrows) : t.render.isEmpty = false := by
  rw [← Bool.not_eq_true, String.isEmpty_iff]
  intro hempty
  have hoccurs := occurs_render h
  rw [hempty, Occurs, String.toList_empty, List.infix_nil, String.toList_eq_nil_iff] at hoccurs
  have hnone : "" ∉ libraryNames := by decide
  exact hnone (hoccurs ▸ t.borrows_subset h)

namespace Emission

theorem occurs_fieldType {f : Field} (h : name ∈ f.borrows) : Occurs name (fieldType f) := by
  rw [Field.borrows] at h
  rw [fieldType]
  split at h
  · next hoptional =>
    rw [if_pos hoptional]
    rcases List.mem_append.mp h with h | h
    · rw [List.mem_singleton.mp h]
      have hoption : Occurs "Option" "Option<" := occurs_literal (by decide)
      exact (hoption.append_right f.type.render).append_right ">"
    · exact ((TypeText.occurs_render h).append_left "Option<").append_right ">"
  · next hrequired =>
    rw [if_neg hrequired]
    exact TypeText.occurs_render h

theorem exists_fieldLine {f : Field} (h : name ∈ f.borrows) : ∃ line ∈ fieldLines f, Occurs name line := by
  refine ⟨_, List.mem_append_right _ (List.mem_singleton_self _), ?_⟩
  exact (((occurs_fieldType h).append_left _).append_right ",").append_left "    "

theorem exists_resourceLine {r : ApiResource} (h : name ∈ r.borrows) (owner : String) :
    ∃ line ∈ resourceLines owner r, Occurs name line := by
  have hresource : Occurs "Resource" "impl Resource for " := occurs_literal (by decide)
  have hoption : Occurs "Option" "    const PLURAL: Option<&'static str> = " := occurs_literal (by decide)
  rw [ApiResource.borrows] at h
  rcases List.mem_cons.mp h with rfl | h
  · exact ⟨_, .tail _ (.head _), (hresource.append_right owner).append_right " \x7b"⟩
  rcases List.mem_cons.mp h with rfl | h
  · exact ⟨_, .tail _ (.tail _ (.tail _ (.tail _ (.head _)))), (hoption.append_right _).append_right ";"⟩
  · rw [List.mem_singleton.mp h]
    refine ⟨_, List.mem_of_getLast? rfl, ?_⟩
    exact ((((Occurs.refl _).append_left "impl ").append_right " for ").append_right owner).append_right
      " \x7b\x7d"

theorem exists_itemLine {item : Item} (h : name ∈ item.body.borrows) :
    ∃ line ∈ itemLines item, Occurs name line := by
  cases hbody : item.body with
  | synonym target =>
    rw [hbody, ItemBody.borrows] at h
    refine ⟨"pub type " ++ item.name ++ " = " ++ target.render ++ ";", ?_, ?_⟩
    · rw [itemLines, hbody]
      simp only [TypeText.isEmpty_render h, Bool.false_eq_true, if_false]
      exact .tail _ (List.mem_append_right _ (List.mem_singleton_self _))
    · exact ((TypeText.occurs_render h).append_left _).append_right ";"
  | record fields resource =>
    have hlines : itemLines item = "" :: commentLines 0 item.description ++
        (["#[derive(Clone, Debug, Default, PartialEq, Serialize, Deserialize)]",
          "pub struct " ++ item.name ++ " \x7b"] ++ fields.flatMap fieldLines ++ ["\x7d"] ++
            (resource.map (resourceLines item.name)).getD []) := by
      rw [itemLines, hbody]
      rfl
    rw [hbody, ItemBody.borrows] at h
    rw [hlines]
    rcases List.mem_append.mp h with h | h
    · rcases List.mem_append.mp h with h | h
      · refine ⟨_, List.mem_append_right _ (.head _), ?_⟩
        rcases List.mem_cons.mp h with rfl | h
        · exact occurs_literal (by decide)
        · rw [List.mem_singleton.mp h]
          exact occurs_literal (by decide)
      · obtain ⟨f, hf, h⟩ := List.mem_flatMap.mp h
        obtain ⟨line, hline, hoccurs⟩ := exists_fieldLine h
        refine ⟨line, ?_, hoccurs⟩
        have hmem : line ∈ fields.flatMap fieldLines := List.mem_flatMap.mpr ⟨f, hf, hline⟩
        simp [hmem]
    · cases resource with
      | none => cases h
      | some r =>
        obtain ⟨line, hline, hoccurs⟩ := exists_resourceLine h item.name
        exact ⟨line, List.mem_append_right _ (List.mem_append_right _ hline), hoccurs⟩

def importedNames (view : FinalizedGroup) : List String :=
  ["Deserialize", "Serialize"] ++ (if view.generics.contains "Dict" then ["BTreeMap"] else []) ++
    importedTraits view.baseTypes

/-- The names that a module uses for other things than its items. -/
def borrowed (view : FinalizedGroup) (items : List Item) : List String :=
  importedNames view ++ items.flatMap (·.body.borrows)

variable {s : Source} {annotations : Annotations} {m : Model} {apiModule : String} {key : GroupKey}
  {view : FinalizedGroup} {items : List Item} {item : Item}

theorem importedNames_subset : importedNames view ⊆ libraryNames := by
  refine List.append_subset.mpr ⟨List.append_subset.mpr ⟨by decide, ?_⟩, fun name h => ?_⟩
  · split
    · decide
    · exact List.nil_subset _
  · rw [importedTraits] at h
    split at h
    · cases h
    · rw [mem_setOf] at h
      rcases List.mem_cons.mp h with rfl | h
      · decide
      · have htrait : name ∈ traitNames := by simpa using (List.mem_filter.mp h).2
        exact (show traitNames ⊆ libraryNames by decide) htrait

theorem borrowed_subset : borrowed view items ⊆ libraryNames := by
  refine List.append_subset.mpr ⟨importedNames_subset, fun name h => ?_⟩
  obtain ⟨i, -, h⟩ := List.mem_flatMap.mp h
  exact i.body.borrows_subset h

theorem mem_groupLines {line : String} (h : line = "use serde::\x7bDeserialize, Serialize\x7d;" ∨
    line ∈ importLines view ∨ line ∈ items.flatMap itemLines) : line ∈ groupLines key view items := by
  rw [groupLines]
  simp only [List.mem_append, List.mem_cons]
  tauto

theorem map_imported (h : view.generics.contains "Dict" = true) :
    "use std::collections::BTreeMap;" ∈ importLines view := by
  rw [importLines, if_pos h]
  exact List.mem_append_left _ (.head _)

theorem traits_imported (h : name ∈ importedTraits view.baseTypes) :
    "use super::base::\x7b" ++ ", ".intercalate (importedTraits view.baseTypes) ++ "\x7d;" ∈
      importLines view := by
  rw [importLines]
  refine List.mem_append_right _ ?_
  cases htraits : importedTraits view.baseTypes with
  | nil =>
    rw [htraits] at h
    cases h
  | cons first rest => exact .head _

/-- Whatever a module borrows stands in its text. -/
theorem exists_line_of_borrowed (key : GroupKey) (h : name ∈ borrowed view items) :
    ∃ line ∈ groupLines key view items, Occurs name line := by
  rcases List.mem_append.mp h with h | h
  · rcases List.mem_append.mp h with h | h
    · rcases List.mem_append.mp h with h | h
      · refine ⟨_, mem_groupLines (.inl rfl), ?_⟩
        rcases List.mem_cons.mp h with rfl | h
        · exact occurs_literal (by decide)
        · rw [List.mem_singleton.mp h]
          exact occurs_literal (by decide)
      · split at h
        · next hgenerics =>
          rw [List.mem_singleton.mp h]
          exact ⟨_, mem_groupLines (.inr (.inl (map_imported hgenerics))), occurs_literal (by decide)⟩
        · cases h
    · exact ⟨_, mem_groupLines (.inr (.inl (traits_imported h))),
        ((occurs_intercalate h).append_left _).append_right _⟩
  · obtain ⟨i, hi, h⟩ := List.mem_flatMap.mp h
    obtain ⟨line, hline, hoccurs⟩ := exists_itemLine h
    exact ⟨line, mem_groupLines (.inr (.inr (List.mem_flatMap.mpr ⟨i, hi, hline⟩))), hoccurs⟩

theorem ne_numbered (h : name ∈ libraryNames) (short : String) (n : Nat) : name ≠ short ++ Nat.repr n := by
  rintro rfl
  have hnone : (libraryNames.all fun name => name.toList.all (!·.isDigit)) = true := by decide
  obtain ⟨d, ds, hrepr, hdigits⟩ := exists_digit_repr n
  have hdigit := List.all_eq_true.mp (List.all_eq_true.mp hnone _ h) d (by simp [hrepr])
  rw [hdigits d List.mem_cons_self] at hdigit
  cases hdigit

/-- No words make up one of these names together. -/
theorem root_eq_of_append {root own : String} {ws : List (List Char)} (hown : own.toList = ws.flatMap typeWord)
    (hname : name = "Vec" ∨ name = "Box") (h : root ++ own = name) : root = name := by
  obtain ⟨d, rest, heq, hd, hrest⟩ : ∃ d rest, name.toList = d :: rest ∧ (d = 'V' ∨ d = 'B') ∧
      (rest = ['e', 'c'] ∨ rest = ['o', 'x']) := by
    rcases hname with rfl | rfl
    · exact ⟨'V', ['e', 'c'], rfl, .inl rfl, .inl rfl⟩
    · exact ⟨'B', ['o', 'x'], rfl, .inr rfl, .inr rfl⟩
  have hlower : ∀ c ∈ rest, c.isLower = true := by rcases hrest with rfl | rfl <;> simp
  have hlist := congrArg String.toList h
  rw [String.toList_append, hown, heq] at hlist
  rcases append_words_eq hlower hlist with hroot | ⟨-, w, -, hw⟩
  · rw [← String.toList_inj, hroot, heq]
  · exact absurd hw (typeWord_ne hd hrest)

theorem root_eq_of_name {root : String} {path : List String} (hname : name = "Vec" ∨ name = "Box")
    (h : name = shortName root path ∨ name = longName root path) : root = name := by
  have hlong : ∀ path, name = longName root path → root = name := by
    intro path h
    obtain ⟨own, ws, heq, hws, -⟩ := longName_eq root path
    exact root_eq_of_append hws hname (heq.symm.trans h.symm)
  rcases h with h | h
  · match path, h with
    | [], h => exact h.symm
    | [property], h => exact hlong [property] h
    | property :: _ :: _, h =>
      -- What comes of a property alone stands behind no name at all.
      obtain ⟨ws, hws⟩ := typeLetters_eq property.toList
      have hwords : (typeName property).toList = ws.flatMap typeWord := by
        rw [typeName, String.toList_ofList, hws]
      have hempty : "" = name := root_eq_of_append hwords hname (String.empty_append.trans h.symm)
      rw [← hempty] at hname
      exact absurd hname (by decide)
  · exact hlong path h

/-- An object that captures a name has it from the properties it lies under, and it is none of two. -/
theorem captures_by_path (h : s.compile annotations = .ok m)
    (hnames : ∀ name, ¬annotations.GivesTypeName name) (hview : m.finalized? key = some view)
    (hitem : item ∈ groupItems m apiModule view) (hname : item.name ∈ libraryNames)
    {parent : TypeId} {property : String} (hdeclared : m.declared? item.id = some (parent, property)) :
    item.name ≠ "Vec" ∧ item.name ≠ "Box" ∧ ∃ root above,
      m.LiesUnder s.Names key item.id root (property :: above) ∧
        (item.name = shortName root.name (property :: above) ∨
          item.name = longName root.name (property :: above)) := by
  have hfinished := s.finished h
  obtain ⟨t, ht, heq, rfl, hlive⟩ := entry_of_item hfinished hview hitem
  have hsome := hdeclared
  rw [Model.declared?, ht, Option.bind_some] at hsome
  obtain ⟨root, above, hunder⟩ := s.liesUnder_of_declared h hnames ht hsome
  have hchosen := (s.choice_of_liesUnder h hnames hunder ht hlive).short_or_long fun n =>
    heq ▸ ne_numbered hname _ _
  rw [heq] at hchosen
  have hplain : ¬(item.name = "Vec" ∨ item.name = "Box") := by
    intro hplain
    -- The type at the root would bear the name, and one name stands for one type.
    have hroot := root_eq_of_name hplain hchosen
    obtain ⟨i, hnamed, -, hdescends⟩ := hunder.descends
    obtain ⟨t', ht', hgroup', hname', -, hlive'⟩ := hfinished.wellFormed.named hnamed
    have hid := hfinished.unique ht ht' hlive hlive' hgroup'.symm (by rw [heq, hname', hroot])
    have hnone := hdescends.declared?_root
    rw [← hid, hdeclared] at hnone
    cases hnone
  exact ⟨fun hvec => hplain (.inl hvec), fun hbox => hplain (.inr hbox), root, above, hunder, hchosen⟩

/-- The short name of each object is borne by an item of the module. -/
theorem exists_item_short (h : s.compile annotations = .ok m)
    (hnames : ∀ name, ¬annotations.GivesTypeName name) (hview : m.finalized? key = some view) {id : TypeId}
    {root : TypeEntry} {path : List String} (hunder : m.LiesUnder s.Names key id root path) :
    ∃ item ∈ groupItems m apiModule view, item.name = shortName root.name path := by
  obtain ⟨i, t, ht, rfl, hname, hlive⟩ := s.exists_short h hnames hunder
  obtain ⟨view', item, hview', -, hitem, hsole⟩ :=
    exists_item (s.finished h) apiModule ht (by rw [Model.mergedInto?, ht]; exact hlive)
  obtain rfl := Option.some.inj (hview.symm.trans hview')
  exact ⟨item, mem_of_filter_eq_singleton hsole, hitem.trans hname⟩

/-- Which items take over a name that their module borrows and that its text is written with. Named
types do if the source calls them so. Objects do by the names that come of the properties they lie
under, and an object whose short name is borrowed always makes some item take it over. -/
theorem compiled_captures (h : s.compile annotations = .ok m)
    (hnames : ∀ name, ¬annotations.GivesTypeName name) (hview : m.finalized? key = some view) :
    (∀ name ∈ borrowed view (groupItems m apiModule view), name ∈ libraryNames ∧
      ∃ line ∈ groupLines key view (groupItems m apiModule view), Occurs name line) ∧
    (∀ item ∈ groupItems m apiModule view, item.name ∈ borrowed view (groupItems m apiModule view) →
      (m.declared? item.id = none → s.Names key item.name) ∧
      ∀ parent property, m.declared? item.id = some (parent, property) →
        item.name ≠ "Vec" ∧ item.name ≠ "Box" ∧ ∃ root above,
          m.LiesUnder s.Names key item.id root (property :: above) ∧
            (item.name = shortName root.name (property :: above) ∨
              item.name = longName root.name (property :: above))) ∧
    ∀ id root path, m.LiesUnder s.Names key id root path →
      shortName root.name path ∈ borrowed view (groupItems m apiModule view) →
        ∃ item ∈ groupItems m apiModule view, item.name = shortName root.name path ∧
          item.name ∈ borrowed view (groupItems m apiModule view) := by
  refine ⟨fun name hname => ⟨borrowed_subset hname, exists_line_of_borrowed key hname⟩,
    fun item hitem hname => ?_, fun id root path hunder hshort => ?_⟩
  · refine ⟨fun hnone => ?_, fun parent property hdeclared =>
      captures_by_path h hnames hview hitem (borrowed_subset hname) hdeclared⟩
    obtain ⟨t, ht, heq, rfl, -⟩ := entry_of_item (s.finished h) hview hitem
    rw [Model.declared?, ht, Option.bind_some] at hnone
    rw [← heq]
    exact s.names_of_undeclared h hnames ht hnone
  · obtain ⟨item, hitem, hname⟩ := exists_item_short h hnames hview hunder
    exact ⟨item, hitem, hname, hname ▸ hshort⟩

/-- A struct with an optional field borrows the name that its type is wrapped in. -/
theorem option_mem_borrowed {id : TypeId} {fields : List Field} (hfields : StructFor m apiModule id fields)
    {f : Field} (hf : f ∈ fields) (hoptional : f.optional = true) (hgroup : m.groupOf? id = some key)
    (hview : m.finalized? key = some view) : "Option" ∈ borrowed view (groupItems m apiModule view) := by
  obtain ⟨group, view', item, resource, hgroup', hview', hitem, -, hbody⟩ := hfields
  obtain rfl := Option.some.inj (hgroup.symm.trans hgroup')
  obtain rfl := Option.some.inj (hview.symm.trans hview')
  have hfield : "Option" ∈ f.borrows := by
    rw [Field.borrows, if_pos hoptional]
    exact List.mem_append_left _ (List.mem_singleton_self _)
  have hstruct : "Option" ∈ item.body.borrows := by
    rw [hbody, ItemBody.borrows]
    exact List.mem_append_left _ (List.mem_append_right _ (List.mem_flatMap.mpr ⟨f, hf, hfield⟩))
  exact List.mem_append_right _ (List.mem_flatMap.mpr ⟨item, hitem, hstruct⟩)

end Emission

/-! A service whose specification has options. -/

namespace ServiceOptions

open Importer
open TextRecord (parse?_service)
open Emission (StructFor borrowed compiled_captures exists_struct exists_item_short groupItems
  option_mem_borrowed)

def core : GroupKey := ⟨"core", some "v1"⟩

def options : Schema where
  properties := [("mode", { type := some "string" })]

def spec : Schema where
  properties := [("options", options)]

def service : Schema where
  properties := [("spec", spec)]

def document : OpenApiDocument where
  definitions := [("io.k8s.api.core.v1.Service", service)]

/-- The import of the document before its queue is read. -/
def registered : Importer :=
  (define {} "io.k8s.api.core.v1.Service" ⟨"Service", "core", some "v1"⟩ service).enqueue 0 service

def property (name : String) (type : TypeExpr) : Property where
  name
  type
  required := false

/-- The state after a body with one object has been read. -/
def withObject (i : Importer) (id : TypeId) (name : String) (body : Schema) : Importer :=
  let j := { i with pending := [] }.registerObject id name none body
  { j with model := j.model.setProperties id [property name (.type i.model.types.size)] }

def first : Importer := withObject registered 0 "spec" spec

def second : Importer := withObject first 1 "options" options

def last : Importer := { second with
  pending := []
  model := second.model.setProperties 2 [property "mode" (.primitive .string)] }

theorem options_isObject : options.IsObject :=
  ⟨"", [("mode", { type := some "string" })], by simp [options, Schema.shape, Schema.markedShape]⟩

theorem spec_isObject : spec.IsObject :=
  ⟨"", [("options", options)], by simp [spec, Schema.shape, Schema.markedShape]⟩

theorem compile_eq : document.compile [] = .ok last.model.finalize := by
  have hservice : importRef {} (document.settings []) "io.k8s.api.core.v1.Service" =
      (.ok (.type 0), registered) :=
    importRef_record (by decide) rfl parse?_service (by decide) rfl rfl rfl
  have himports : Imports (document.settings []) {} (Table.keys document.schemas) [.type 0] registered :=
    .cons hservice (.nil _)
  have hempties : Empties (document.settings []) registered [⟨0, service⟩, ⟨1, spec⟩, ⟨2, options⟩] last :=
    .read rfl (importBody_single rfl rfl (by decide) rfl (importProperty_object spec_isObject rfl)) <|
      .read rfl (importBody_single rfl rfl (by decide) rfl (importProperty_object options_isObject rfl)) <|
        .read rfl (importBody_single rfl rfl (by decide) rfl (importProperty_plain text_shape rfl))
          (.done rfl)
  exact himports.importKeys_eq.trans (hempties.finish_eq (by decide))

theorem names_eq : (Source.document document).names = [(core, "Service")] := by
  simp [Source.names, Source.definitionNames, OpenApiDocument.schemas, document, Table.keys, parse?_service,
    GroupKey.of, core]

theorem declared?_eq : last.model.finalize.declared? 2 = some (1, "options") ∧
    last.model.finalize.declared? 1 = some (0, "spec") := by
  decide +kernel

/-- The options lie under the specification of the service, so that their short name is their own. -/
theorem exists_liesUnder : ∃ root above,
    last.model.finalize.LiesUnder (Source.document document).Names core 2 root ("options" :: above) ∧
      shortName root.name ("options" :: above) = "Option" := by
  have hoptions : (last.model.finalize.types[2]?).map TypeEntry.group = some core := by decide +kernel
  obtain ⟨t, ht, hcore⟩ := Option.map_eq_some_iff.mp hoptions
  have hdeclared : t.declared? = some (1, "options") := by
    have hsome := declared?_eq.1
    rwa [Model.declared?, ht, Option.bind_some] at hsome
  obtain ⟨root, above, hunder⟩ := Source.liesUnder_of_declared (s := .document document) compile_eq
    Annotations.not_givesTypeName_nil ht hdeclared
  rw [hcore] at hunder
  refine ⟨root, above, hunder, ?_⟩
  obtain ⟨i, -, -, hdescends⟩ := hunder.descends
  cases hdescends with
  | top hid hroot =>
    obtain ⟨rfl, -⟩ := Prod.mk.inj (Option.some.inj (hid.symm.trans declared?_eq.1))
    cases hroot.symm.trans declared?_eq.2
  | under _ hparent => cases hparent <;> rfl

/-- The specification of the service is optional. -/
theorem exists_view : ∃ view, last.model.finalize.finalized? core = some view ∧
    "Option" ∈ borrowed view (groupItems last.model.finalize "k8s_models" view) := by
  have hfinished : last.model.finalize.Finished := Source.finished (s := .document document) compile_eq
  have hgroup : last.model.finalize.groupOf? 0 = some core := by decide +kernel
  have hkind : last.model.finalize.kind? (last.model.finalize.resolve 0) = some .resource := by
    decide +kernel
  have hproperties : last.model.finalize.propertiesOf (last.model.finalize.resolve 0) =
      [property "spec" (.type 1)] := by
    decide +kernel
  obtain ⟨view, hview⟩ := hfinished.view hgroup
  have hsize : 0 < last.model.finalize.types.size := by decide +kernel
  obtain ⟨fields, hfields⟩ := (exists_struct hfinished "k8s_models" hsize).resolve_left (by simp [hkind])
  obtain ⟨spelling, heq⟩ := hfields.fields_eq
  rw [hproperties] at heq
  have hspec : spelling.field (last.model.finalize.resolve 0) (property "spec" (.type 1)) ∈ fields :=
    heq ▸ List.mem_singleton_self _
  exact ⟨view, hview, option_mem_borrowed hfields hspec rfl hgroup hview⟩

/-- The item for the options has the name that its module wraps optional fields in, and it has the name
from the properties alone. -/
theorem options_capture : ∃ view, last.model.finalize.finalized? core = some view ∧
    ∃ item ∈ groupItems last.model.finalize "k8s_models" view, item.name = "Option" ∧
      "Option" ∈ borrowed view (groupItems last.model.finalize "k8s_models" view) ∧
        last.model.finalize.declared? item.id ≠ none := by
  obtain ⟨root, above, hunder, hshort⟩ := exists_liesUnder
  obtain ⟨view, hview, hborrowed⟩ := exists_view
  obtain ⟨-, hitems, hshorts⟩ := compiled_captures (s := .document document) compile_eq
    Annotations.not_givesTypeName_nil hview
  obtain ⟨item, hitem, hname, hcaptures⟩ := hshorts 2 root ("options" :: above) hunder (hshort ▸ hborrowed)
  refine ⟨view, hview, item, hitem, hname.trans hshort, hborrowed, fun hnone => ?_⟩
  have hsource := (hitems item hitem hcaptures).1 hnone
  rw [hname, hshort, Source.Names, names_eq] at hsource
  exact absurd hsource (by decide)

/-- Items may take over names that their module uses for other things. -/
theorem not_capture_free : ¬∀ (s : Source) (annotations : Annotations) (m : Model) (key : GroupKey)
    (view : FinalizedGroup), s.compile annotations = .ok m →
    (∀ name, ¬annotations.GivesFieldName name) → (∀ name, ¬annotations.GivesTypeName name) →
    m.finalized? key = some view → ∀ item ∈ groupItems m "k8s_models" view,
      item.name ∉ borrowed view (groupItems m "k8s_models" view) := by
  intro h
  obtain ⟨root, above, hunder, hshort⟩ := exists_liesUnder
  obtain ⟨view, hview, hborrowed⟩ := exists_view
  obtain ⟨item, hitem, hname⟩ := exists_item_short (s := .document document) compile_eq
    Annotations.not_givesTypeName_nil hview hunder
  refine h (.document document) [] _ core view compile_eq Annotations.not_givesFieldName_nil
    Annotations.not_givesTypeName_nil hview item hitem ?_
  rw [hname, hshort]
  exact hborrowed

end ServiceOptions

end SchemaCompiler
