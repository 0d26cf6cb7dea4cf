import SchemaCompiler.Proofs.Emission.Capture
import SchemaCompiler.Proofs.Model.Turn
import SchemaCompiler.Proofs.Model.Usage

/-! Names that a module imports. The view of its group records what the live types use, and these are
what its items are written with, so that whatever an item takes from a library is imported. -/

namespace SchemaCompiler

open Model (ofChanges wellFormed_ofChanges)

theorem Spelling.not_map_namedText {s : Spelling} {current id : TypeId} {direct : Bool} :
    "BTreeMap" ∉ (s.namedText current direct id).borrows := by
  have hitem : ∀ name boxed, "BTreeMap" ∉ (TypeText.item (s.model.resolve id) name boxed).borrows := by
    intro name boxed
    cases boxed <;> simp [TypeText.borrows]
  rw [namedText]
  split
  · exact hitem _ _
  · exact hitem _ _
  · exact List.not_mem_nil
  · exact List.not_mem_nil
  · decide

/-- A type is spelled with a map only if one is part of it. -/
theorem Spelling.exists_map {s : Spelling} {current : TypeId} : ∀ {direct : Bool} (e : TypeExpr),
    "BTreeMap" ∈ (s.typeText current direct e).borrows →
      ∃ part : TypeExpr, part.PartOf e ∧ part.wrapper? = some "Dict"
  | direct, .primitive p, h => by cases p <;> exact absurd h (by rw [typeText]; decide)
  | _, .type id, h => absurd h not_map_namedText
  | _, .ref q, h => by
    rw [typeText, refText] at h
    split at h
    · exact absurd h not_map_namedText
    · cases h
  | _, .list item, h => by
    obtain ⟨part, hpart, hdict⟩ := exists_map item ((List.mem_cons.mp h).resolve_left (by decide))
    exact ⟨part, .item hpart, hdict⟩
  | _, .bareMap, _ => ⟨.bareMap, .whole, rfl⟩
  | _, .map value, _ => ⟨.map value, .whole, rfl⟩
  | _, .union members, h => by
    rw [typeText] at h
    split at h
    · cases h
    · exact absurd h (by decide)
  | _, .wellKnown _, h => by cases h
  | direct, .bareList, h => absurd h (by rw [typeText]; decide)

namespace Emission

variable {m : Model} {apiModule : String} {key : GroupKey} {view : FinalizedGroup} {item : Item}

/-- Where a resource is of some scope, its traits are among those imported. -/
theorem mem_importedTraits {namespaced : Bool} (h : Model.scopeName namespaced ∈ view.baseTypes) :
    "Resource" ∈ importedTraits view.baseTypes ∧
      Model.scopeName namespaced ∈ importedTraits view.baseTypes := by
  have htrait : traitNames.contains (Model.scopeName namespaced) = true := by
    cases namespaced <;> decide
  have hscope : Model.scopeName namespaced ∈ view.baseTypes.filter traitNames.contains :=
    List.mem_filter.mpr ⟨h, htrait⟩
  have hne : (view.baseTypes.filter traitNames.contains).isEmpty = false := by
    rw [List.isEmpty_eq_false_iff]
    exact List.ne_nil_of_mem hscope
  have htraits : importedTraits view.baseTypes =
      setOf ("Resource" :: view.baseTypes.filter traitNames.contains) := by
    rw [importedTraits, hne]
    rfl
  rw [htraits, mem_setOf, mem_setOf]
  exact ⟨List.mem_cons_self, List.mem_cons_of_mem _ hscope⟩

/-- Right after everything is finalized, the view of a group records what its live types use, and a module
imports the map type if one of its items is written with it, and the traits of each of its resources. -/
theorem finalize_records_usage (cs : List Change) (apiModule : String) {key : GroupKey}
    (hkey : key ∈ (ofChanges cs).keys) :
    ∃ view, (ofChanges cs).finalize.finalized? key = some view ∧
      (ofChanges cs).finalize.Records key view ∧
      ∀ item ∈ groupItems (ofChanges cs).finalize apiModule view,
        ("BTreeMap" ∈ item.body.borrows → "use std::collections::BTreeMap;" ∈
          groupLines key view (groupItems (ofChanges cs).finalize apiModule view)) ∧
        ∀ fields r, item.body = .record fields (some r) → ∃ traits,
          "use super::base::\x7b" ++ ", ".intercalate traits ++ "\x7d;" ∈
            groupLines key view (groupItems (ofChanges cs).finalize apiModule view) ∧
          "Resource" ∈ traits ∧ Model.scopeName r.namespaced ∈ traits := by
  have hwf := wellFormed_ofChanges cs
  have hfinished := Model.finished_finalize cs
  obtain ⟨view, hview⟩ := hwf.view_finalize hkey
  have hlists := hfinished.lists hview
  have hrecords : (ofChanges cs).finalize.Records key view := by
    rw [hwf.view_eq_viewOf hkey hview]
    exact hlists.records
  refine ⟨view, hview, hrecords, fun item hitem => ?_⟩
  obtain ⟨hplaced, t, ht, hbody⟩ := mem_groupItems.mp hitem
  constructor
  · intro hmap
    obtain ⟨text, htext, hmap⟩ := ItemBody.exists_text hmap (by decide)
    rw [hbody] at htext
    obtain ⟨e, he, rfl⟩ := mem_texts htext
    obtain ⟨part, hpart, hdict⟩ := Spelling.exists_map e hmap
    have huses : (ofChanges cs).finalize.Uses key part :=
      hlists.uses_iff.mpr ⟨item.id, hplaced, e, by rwa [Model.exprsOf, ht], hpart⟩
    have hgeneric := (hrecords.generics "Dict").mpr ⟨part, huses, hdict⟩
    exact mem_groupLines (.inr (.inl (map_imported (List.contains_iff_mem.mpr hgeneric))))
  · intro fields r hrecord
    have hkind : t.kind = .apiResource r := by
      rw [hbody, Spelling.itemBody] at hrecord
      split at hrecord
      · cases hrecord
      · next hkind => rw [hkind, Option.some.inj (ItemBody.record.inj hrecord).2]
      · cases hrecord
    have hlive : (ofChanges cs).finalize.LiveIn key t := hlists.liveIn_iff.mpr ⟨item.id, hplaced, ht⟩
    obtain ⟨hresource, hscope⟩ := mem_importedTraits
      ((hrecords.baseTypes _).mpr (.inr ⟨t, r, hlive, hkind, rfl⟩))
    exact ⟨_, mem_groupLines (.inr (.inl (traits_imported hresource))), hresource, hscope⟩

/-- A resource of the whole cluster with labels. -/
theorem finalize_records_usage_node :
    let core : GroupKey := ⟨"core", some "v1"⟩
    let node : ApiResource := ⟨"v1", "Node", false, some "nodes"⟩
    let cs : List Change := [.registerNamed core "Node" (.apiResource node) none, .setProperties 0 [
      { name := "labels", type := .map (.primitive .string), required := false }]]
    let m := (ofChanges cs).finalize
    core ∈ (ofChanges cs).keys ∧ ∃ view, m.finalized? core = some view ∧ m.Records core view ∧
      "use std::collections::BTreeMap;" ∈ groupLines core view (groupItems m "api" view) ∧
      ∃ traits, "Resource" ∈ traits ∧ "ClusterResource" ∈ traits ∧
        "use super::base::\x7b" ++ ", ".intercalate traits ++ "\x7d;" ∈
          groupLines core view (groupItems m "api" view) := by
  intro core node cs m
  have hkey : core ∈ (ofChanges cs).keys := by decide
  obtain ⟨view, hview, hrecords, himports⟩ := finalize_records_usage cs "api" hkey
  have hnode : ((m.finalized? core).map fun view => (groupItems m "api" view).map Item.body) =
      some [.record [⟨"labels", .dict (.builtin "String"), true, none, none⟩] (some node)] := by
    decide +kernel
  rw [hview, Option.map_some, Option.some_inj] at hnode
  obtain ⟨item, hitem, hbody⟩ := List.mem_map.mp (hnode ▸ List.mem_singleton_self _)
  obtain ⟨hmap, hresource⟩ := himports item hitem
  obtain ⟨traits, hline, hroot, hscope⟩ := hresource _ node hbody
  refine ⟨hkey, view, hview, hrecords, hmap ?_, traits, hroot, hscope, hline⟩
  rw [hbody]
  decide

end Emission

end SchemaCompiler
