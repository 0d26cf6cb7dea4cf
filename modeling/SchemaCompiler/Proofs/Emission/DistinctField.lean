import SchemaCompiler.Proofs.Emission.FieldName
import SchemaCompiler.Proofs.Import.TextRecord
import SchemaCompiler.Proofs.Model.Ties
import SchemaCompiler.Proofs.Naming.Field

/-! Fields with one name. Where overrides name no fields, a struct has two fields of one name just where
two of its properties have the same words, which properties in plain camel case have not. -/

namespace SchemaCompiler

namespace Model

variable {m m' : Model} {annotations : Annotations} {N : GroupKey → String → Prop}

/-- Fields are called after their properties. -/
def Ungiven (m : Model) : Prop :=
  ∀ id, ∀ p ∈ m.propertiesOf id, p.given = none

theorem Ungiven.push (h : m.Ungiven) {t : TypeEntry} (ht : t.properties = [])
    (hm : m'.types = m.types.push t) : m'.Ungiven := by
  intro id p hp
  rw [propertiesOf, hm, Array.getElem?_push] at hp
  split at hp
  · simp [ht] at hp
  · exact h id p hp

theorem Ungiven.edit (h : m.Ungiven) (hgiven : ∀ name, ¬annotations.GivesFieldName name) {e : Change}
    (he : Importer.Edit annotations N m e) : (m.change e).Ungiven := by
  cases he with
  | @register group name kind description _ _ =>
    cases hf : m.find? group (group.qualify name) with
    | some id => rwa [change, registerNamed_known hf]
    | none => exact h.push rfl (types_registerNamed_new hf kind description)
  | @declare parent property typeName description _ =>
    cases hp : m.types[parent]? with
    | none => rwa [change, registerAnonymous_orphan hp]
    | some above =>
      exact h.push rfl (types_registerAnonymous_new hp property typeName description)
  | @settle a target _ =>
    intro id p hp
    refine h id p ?_
    rwa [change, propertiesOf, setKind, ← amend, map_getElem?_amend] at hp
    exact fun _ => rfl
  | @fill a ps hps =>
    intro id p hp
    rw [change, propertiesOf, getElem?_setProperties] at hp
    split at hp
    · cases ht : m.types[id]? with
      | none => simp [ht] at hp
      | some t =>
        rw [ht] at hp
        have hmem : p ∈ ps := List.mem_mergeSort.mp hp
        exact Option.eq_none_iff_forall_ne_some.mpr fun name hname => hgiven name (hps p hmem name hname)
    · exact h id p hp

end Model

/-- What is compiled calls fields after their properties where overrides do not name them. -/
theorem Source.ungiven {s : Source} {annotations : Annotations} {m : Model}
    (h : s.compile annotations = .ok m) (hgiven : ∀ name, ¬annotations.GivesFieldName name) :
    m.Ungiven := by
  obtain ⟨m₀, hedits, rfl⟩ := s.exists_edits h
  obtain ⟨cs, -, hcs⟩ := hedits.exists_changes
  have hwf : m₀.WellFormed := hcs ▸ Model.wellFormed_ofChanges cs
  have hungiven : m₀.Ungiven :=
    hedits.induction (fun hm he => hm.edit hgiven he) (by simp [Model.Ungiven, Model.propertiesOf])
  intro id p hp
  rw [hwf.propertiesOf_finalize] at hp
  exact hungiven id p hp

namespace Emission

variable {m : Model} {apiModule : String} {id : TypeId} {fields : List Field}

theorem StructFor.name_eq {s : Source} {annotations : Annotations} (h : StructFor m apiModule id fields)
    (hcompile : s.compile annotations = .ok m) (hgiven : ∀ name, ¬annotations.GivesFieldName name) :
    ∀ f ∈ fields, f.name = Naming.fieldName f.property := by
  obtain ⟨spelling, rfl⟩ := h.fields_eq
  rw [List.forall_mem_map]
  intro p hp
  have hnone : p.given = none := s.ungiven hcompile hgiven _ p hp
  rw [spelling.property_field, Spelling.field, Property.fieldName, hnone, Option.getD_none]

/-- The fields of a struct are distinct where no two of its properties are alike, and only there. Those
of different properties in camel case always are. -/
theorem compiled_fields_nodup_iff {s : Source} {annotations : Annotations}
    (h : s.compile annotations = .ok m) (hgiven : ∀ name, ¬annotations.GivesFieldName name)
    (hfields : StructFor m apiModule id fields) :
    ((fields.map Field.name).Nodup ↔
      fields.Pairwise fun f g => ¬Naming.Alike f.property g.property) ∧
    ((fields.map Field.property).Nodup → (∀ f ∈ fields, Naming.isCamel f.property = true) →
      (fields.map Field.name).Nodup) := by
  have hname := hfields.name_eq h hgiven
  simp only [List.Nodup, List.pairwise_map]
  refine ⟨List.Pairwise.iff_of_mem fun {f g} hf hg => ?_, fun hdistinct hcamel => ?_⟩
  · rw [ne_eq, hname f hf, hname g hg, Naming.fieldName_inj]
  · refine hdistinct.imp_of_mem fun {f g} hf hg hne he => hne ?_
    rw [hname f hf, hname g hg] at he
    exact Naming.eq_of_fieldName_camel (hcamel f hf) (hcamel g hg) he

end Emission

/-! A service with two properties that only the case of a letter tells apart. -/

namespace TwinProperties

open Emission (StructFor compiled_fields_nodup_iff)
open TextRecord (document model)

def names : List String := ["clusterIP", "clusterIp"]

theorem compile_eq : (document names).compile [] = .ok (model names).finalize :=
  TextRecord.compile_eq (by decide) (by decide) (by decide)

def fields : List Field := [
  ⟨"cluster_ip", .builtin "String", true, some "clusterIP", none⟩,
  ⟨"cluster_ip", .builtin "String", true, some "clusterIp", none⟩]

theorem structFor : StructFor (model names).finalize "k8s_models" 0 fields := by
  refine ⟨⟨"core", some "v1"⟩, { types := [0] }, ⟨0, "Service", none, .record fields none⟩, none,
    ?_, ?_, ?_, ?_, rfl⟩ <;> decide +kernel

/-- The two properties have the same words, and so the struct has two fields of one name. -/
theorem alike_properties : ¬(fields.map Field.name).Nodup ∧
    ¬fields.Pairwise fun f g => ¬Naming.Alike f.property g.property := by
  have hclash : ¬(fields.map Field.name).Nodup := by decide
  exact ⟨hclash, mt (compiled_fields_nodup_iff (s := .document (document names)) compile_eq
    Annotations.not_givesFieldName_nil structFor).1.mpr hclash⟩

/-- Different properties of a struct need not have different fields. -/
theorem not_distinct : ¬∀ (s : Source) (annotations : Annotations) (m : Model) (id : TypeId)
    (fields : List Field), s.compile annotations = .ok m →
    (∀ name, ¬annotations.GivesFieldName name) → StructFor m "k8s_models" id fields →
    (fields.map Field.property).Nodup → (fields.map Field.name).Nodup := fun h =>
  absurd (h (.document (document names)) [] _ 0 fields compile_eq Annotations.not_givesFieldName_nil
    structFor (by decide)) (by decide)

end TwinProperties

end SchemaCompiler
