import SchemaCompiler.Proofs.Emission.DistinctField
import SchemaCompiler.Proofs.Naming.Identifier

/-! Emitted names as identifiers. Where overrides name nothing and the names of the source are
identifiers, modules, fields and objects may still bear names that are none. Those come of a group, or
of a property, with no letter before its digits, or of a property that comes out as a reserved word. -/

namespace SchemaCompiler

open Naming (isIdentifier beginsWithLetter isPlain longName)

theorem Source.finished {s : Source} {annotations : Annotations} {m : Model}
    (h : s.compile annotations = .ok m) : m.Finished := by
  obtain ⟨m₀, hedits, rfl⟩ := s.exists_edits h
  obtain ⟨cs, -, rfl⟩ := hedits.exists_changes
  exact Model.finished_finalize cs

namespace Emission

variable {s : Source} {annotations : Annotations} {m : Model} {apiModule : String} {key : GroupKey}
  {view : FinalizedGroup} {item : Item}

/-- An item stands for a type of the group that stands for itself. -/
theorem entry_of_item (h : m.Finished) (hview : m.finalized? key = some view)
    (hitem : item ∈ groupItems m apiModule view) : ∃ t : TypeEntry, m.types[item.id]? = some t ∧
      t.name = item.name ∧ t.group = key ∧ t.mergedInto = none := by
  obtain ⟨hid, t, ht, heq⟩ := mem_groupItems.mp hitem
  obtain ⟨hgroup, hlive⟩ := ((h.lists hview).live item.id).mp hid
  rw [Model.groupOf?, ht, Option.map_some] at hgroup
  rw [Model.isLive_iff, Model.mergedInto?, ht] at hlive
  exact ⟨t, ht, by rw [heq], Option.some.inj hgroup, hlive⟩

theorem structFor_of_item (h : m.Finished) (hview : m.finalized? key = some view)
    (hitem : item ∈ groupItems m apiModule view) {fields : List Field} {resource : Option ApiResource}
    (hbody : item.body = .record fields resource) : StructFor m apiModule item.id fields := by
  obtain ⟨t, ht, -, rfl, hlive⟩ := entry_of_item h hview hitem
  have hgroup : m.groupOf? item.id = some t.group := by rw [Model.groupOf?, ht, Option.map_some]
  have hresolve : m.resolve item.id = item.id :=
    Model.resolve_of_live (by rw [Model.mergedInto?, ht]; exact hlive)
  exact ⟨t.group, view, item, resource, hgroup, hview, hitem, hresolve.symm, hbody⟩

/-- Which emitted names are identifiers. Names of the source stay as they are. Modules and fields need
a letter before any digit. So does an object whose name comes of its property alone, but behind the
name of the type around it what comes of a property may begin with anything. -/
theorem compiled_identifiers_iff (h : s.compile annotations = .ok m)
    (hfields : ∀ name, ¬annotations.GivesFieldName name)
    (htypes : ∀ name, ¬annotations.GivesTypeName name)
    (hnames : ∀ n ∈ s.names, isIdentifier n.2 = true) (hview : m.finalized? key = some view) :
    isIdentifier key.moduleName = beginsWithLetter (key.group ++ key.version.getD "") ∧
    ∀ item ∈ groupItems m apiModule view,
      (m.declared? item.id = none → isIdentifier item.name = true) ∧
      (∀ parent property, m.declared? item.id = some (parent, property) → ∃ root above,
        m.LiesUnder s.Names key item.id root (property :: above) ∧
          ((∀ p ∈ property :: above, isPlain p = true) → (isIdentifier item.name = true ↔
            above = [] ∨ item.name = longName root.name (property :: above) ∨
              beginsWithLetter property = true ∧ item.name ≠ "Self"))) ∧
      ∀ fields resource, item.body = .record fields resource →
        ∀ f ∈ fields, isIdentifier f.name = beginsWithLetter f.property := by
  have hfinished := s.finished h
  refine ⟨Naming.isIdentifier_moduleName key.group key.version, fun item hitem => ?_⟩
  obtain ⟨t, ht, hname, rfl, hlive⟩ := entry_of_item hfinished hview hitem
  have hentry : m.declared? item.id = t.declared? := by rw [Model.declared?, ht, Option.bind_some]
  rw [← hname, hentry]
  refine ⟨fun hnone => ?_, fun parent property hsome => ?_, fun fields resource hbody f hf => ?_⟩
  · exact hnames (t.group, t.name) (s.names_of_undeclared h htypes ht hnone)
  · obtain ⟨root, above, hunder⟩ := s.liesUnder_of_declared h htypes ht hsome
    have hchoice := s.choice_of_liesUnder h htypes hunder ht hlive
    exact ⟨root, above, hunder, fun hplain =>
      Naming.isIdentifier_chosen (hnames (t.group, root.name) hunder.name) hplain hchoice⟩
  · rw [(structFor_of_item hfinished hview hitem hbody).name_eq h hfields f hf,
      Naming.isIdentifier_fieldName]

end Emission

/-! A service with a property that begins with a digit. -/

namespace DigitProperty

open Emission (compiled_identifiers_iff groupItems)
open TextRecord (document model parse?_service)

def names : List String := ["5xx"]

theorem compile_eq : (document names).compile [] = .ok (model names).finalize :=
  TextRecord.compile_eq (by decide) (by decide) (by decide)

def key : GroupKey := ⟨"core", some "v1"⟩

def fields : List Field := [⟨"5xx", .builtin "String", true, none, none⟩]

def item : Item := ⟨0, "Service", none, .record fields none⟩

theorem view_eq : (model names).finalize.finalized? key = some { types := [0] } := by decide +kernel

theorem item_mem : item ∈ groupItems (model names).finalize "k8s_models" { types := [0] } := by
  decide

theorem names_identifiers : ∀ n ∈ (Source.document (document names)).names, isIdentifier n.2 = true := by
  have hnames : (Source.document (document names)).names = [(key, "Service")] := by
    simp [Source.names, Source.definitionNames, OpenApiDocument.schemas, document, Table.keys,
      parse?_service, GroupKey.of, key]
  rw [hnames]
  decide

/-- The field bears the name of the property, which has a digit before its letters. -/
theorem field_begins_with_digit : isIdentifier key.moduleName = true ∧
    ∀ f ∈ fields, f.property = "5xx" ∧ isIdentifier f.name = false := by
  obtain ⟨hmodule, hitems⟩ := compiled_identifiers_iff (s := .document (document names)) compile_eq
    Annotations.not_givesFieldName_nil Annotations.not_givesTypeName_nil names_identifiers view_eq
  refine ⟨hmodule.trans (by decide), fun f hf => ?_⟩
  have hproperty : f.property = "5xx" := by
    rw [List.mem_singleton.mp hf]
    rfl
  refine ⟨hproperty, ?_⟩
  rw [(hitems item item_mem).2.2 fields none rfl f hf, hproperty]
  decide

/-- Not everything that is emitted has an identifier for its name. -/
theorem not_all_identifiers : ¬∀ (s : Source) (annotations : Annotations) (m : Model) (key : GroupKey)
    (view : FinalizedGroup), s.compile annotations = .ok m →
    (∀ name, ¬annotations.GivesFieldName name) → (∀ name, ¬annotations.GivesTypeName name) →
    (∀ n ∈ s.names, isIdentifier n.2 = true) → m.finalized? key = some view →
    isIdentifier key.moduleName = true ∧ ∀ item ∈ groupItems m "k8s_models" view,
      isIdentifier item.name = true ∧ ∀ fields resource, item.body = .record fields resource →
        ∀ f ∈ fields, isIdentifier f.name = true := by
  intro h
  have hfield := ((h (.document (document names)) [] _ key _ compile_eq Annotations.not_givesFieldName_nil
    Annotations.not_givesTypeName_nil names_identifiers view_eq).2 item item_mem).2 fields none rfl
  exact absurd hfield (by decide)

end DigitProperty

end SchemaCompiler
