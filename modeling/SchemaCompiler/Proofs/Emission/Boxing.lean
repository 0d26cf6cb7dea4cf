import SchemaCompiler.Proofs.Emission.Capture
import SchemaCompiler.Proofs.Model.Turn

/-! Boxes. A type is boxed where it is placed no earlier than the type that it is spelled in. As types are
placed leaves first, the two then lie on a cycle of references, and without cycles there are no boxes. -/

namespace SchemaCompiler

open Relation (TransGen ReflTransGen)

/-- The items that are boxed in a type as it is spelled. -/
def TypeText.boxed : TypeText → List TypeId
  | item id _ true => [id]
  | vec t => t.boxed
  | dict t => t.boxed
  | _ => []

theorem TypeText.mem_boxed_item {id v : TypeId} {name : String} {boxed : Bool}
    (h : v ∈ (item id name boxed).boxed) : boxed = true ∧ v = id := by
  cases boxed with
  | true => exact ⟨rfl, List.mem_singleton.mp h⟩
  | false => cases h

theorem TypeText.exists_boxed {t : TypeText} (h : "Box" ∈ t.borrows) : ∃ v, v ∈ t.boxed := by
  induction t with
  | builtin name =>
    rw [borrows] at h
    split at h
    · next hname =>
      rw [hname] at h
      exact absurd h (by decide)
    · cases h
  | item id name boxed =>
    cases boxed with
    | true => exact ⟨id, List.mem_singleton_self id⟩
    | false => cases h
  | vec t ih =>
    rcases List.mem_cons.mp h with hne | h
    · exact absurd hne (by decide)
    · exact ih h
  | dict t ih =>
    rcases List.mem_cons.mp h with hne | h
    · exact absurd hne (by decide)
    · rcases List.mem_cons.mp h with hne | h
      · exact absurd hne (by decide)
      · exact ih h
  | _ => cases h

namespace Emission

open Model (ofChanges wellFormed_ofChanges)

variable {m : Model} {apiModule : String} {key : GroupKey} {view : FinalizedGroup}
  {current id v : TypeId}

/-- Where something is boxed within `current`, it is of the same group, and it is `current` itself or
placed after it. -/
theorem boxed_namedText (h : m.Finished) (hview : m.finalized? key = some view)
    (hcurrent : current ∈ view.types) {direct : Bool}
    (hv : v ∈ ((spelling m apiModule view).namedText current direct id).boxed) :
    direct = true ∧ v = m.resolve id ∧ m.groupOf? v = some key ∧
      (v = current ∨ view.types.idxOf current ≤ view.types.idxOf v) := by
  cases ht : m.types[m.resolve id]? with
  | none =>
    rw [namedText_absent h.wellFormed ht] at hv
    cases hv
  | some t =>
    rw [namedText_listed h hview hcurrent ht] at hv
    split at hv
    · next hsame =>
      obtain ⟨hboxed, rfl⟩ := TypeText.mem_boxed_item hv
      obtain ⟨hdirect, hcycle⟩ := Bool.and_eq_true_iff.mp hboxed
      have hresolved : m.groupOf? (m.resolve id) = some key := by
        rw [Model.groupOf?, ht, Option.map_some, hsame]
      refine ⟨hdirect, rfl, hresolved, ?_⟩
      rcases Bool.or_eq_true_iff.mp hcycle with hself | hback
      · exact .inl (beq_iff_eq.mp hself)
      · have hplaced : m.resolve id ∈ view.types := ((h.lists hview).live _).mpr
          ⟨hresolved, Model.isLive_iff.mpr (h.wellFormed.mergedInto?_resolve id)⟩
        refine .inr (Nat.not_lt.mp fun hlt => ?_)
        rw [(isBackEdge_eq_false hplaced hcurrent).mpr hlt] at hback
        cases hback
    · cases hv

/-- What is boxed within a type stands in it directly, and it is mentioned there. -/
theorem boxed_typeText (h : m.Finished) (hview : m.finalized? key = some view)
    (hcurrent : current ∈ view.types) : ∀ {direct : Bool} (e : TypeExpr),
      v ∈ ((spelling m apiModule view).typeText current direct e).boxed →
        direct = true ∧ m.Mentions key e v ∧
          (v = current ∨ view.types.idxOf current ≤ view.types.idxOf v)
  | _, .primitive p, hv => by cases p <;> cases hv
  | _, .type id, hv => by
    obtain ⟨hdirect, hid, hgroup, hplace⟩ := boxed_namedText h hview hcurrent hv
    exact ⟨hdirect, .type hid.symm hgroup, hplace⟩
  | _, .ref q, hv => by
    have hfind : (spelling m apiModule view).model.find? (GroupKey.of q)
        ((GroupKey.of q).qualify q.name) = m.named? (GroupKey.of q) q.name :=
      h.wellFormed.indexed _ _
    rw [Spelling.typeText, Spelling.refText, hfind] at hv
    cases hq : m.named? (GroupKey.of q) q.name with
    | none =>
      rw [hq] at hv
      cases hv
    | some id =>
      rw [hq] at hv
      obtain ⟨hdirect, hid, hgroup, hplace⟩ := boxed_namedText h hview hcurrent hv
      obtain ⟨t, ht, hkey, -⟩ := h.wellFormed.named hq
      rw [Model.resolve_of_live (h.wellFormed.named_live hq)] at hid
      rw [hid, Model.groupOf?, ht, Option.map_some, hkey] at hgroup
      have hof : GroupKey.of q = key := Option.some.inj hgroup
      exact ⟨hdirect, .ref hof (by rw [← hof, hq, hid]), hplace⟩
  | _, .list item, hv => absurd (boxed_typeText h hview hcurrent item hv).1 Bool.false_ne_true
  | _, .map value, hv => absurd (boxed_typeText h hview hcurrent value hv).1 Bool.false_ne_true
  | _, .union members, hv => by
    rw [Spelling.typeText] at hv
    split at hv <;> cases hv
  | _, .wellKnown _, hv | _, .bareList, hv | _, .bareMap, hv => by cases hv

theorem idxOf_lt_of_sublist {types : List TypeId} {u v : TypeId} (hnodup : types.Nodup)
    (h : [v, u].Sublist types) : types.idxOf v < types.idxOf u := by
  obtain ⟨before, after, rfl, hv, hu⟩ := List.cons_sublist_iff.mp h
  have hafter : u ∈ after := List.singleton_sublist.mp hu
  have hbefore : u ∉ before := fun hn => (List.nodup_append.mp hnodup).2.2 u hn u hafter rfl
  rw [List.idxOf_append_of_mem hv, List.idxOf_append_of_notMem hbefore]
  exact Nat.lt_add_right _ (List.idxOf_lt_length_of_mem hv)

/-- Whatever was registered, filled in and finalized before, once all is finalized, an item that is boxed
in an item is of the same group and referred to by it, and leads back to it. So a group in which no
type leads back to itself has a module without boxes. -/
theorem finalize_boxes_cycles (cs : List Change) (apiModule : String) {key : GroupKey}
    (hkey : key ∈ (ofChanges cs).keys) :
    ∃ view, (ofChanges cs).finalize.finalized? key = some view ∧
      (∀ item ∈ groupItems (ofChanges cs).finalize apiModule view, ∀ text ∈ item.body.texts,
        ∀ v ∈ text.boxed, (ofChanges cs).finalize.groupOf? v = some key ∧
          (ofChanges cs).finalize.Refers key item.id v ∧
            ReflTransGen ((ofChanges cs).finalize.Refers key) v item.id) ∧
      ((∀ u, ¬TransGen ((ofChanges cs).finalize.Refers key) u u) →
        ∀ item ∈ groupItems (ofChanges cs).finalize apiModule view, "Box" ∉ item.body.borrows) := by
  have hwf := wellFormed_ofChanges cs
  have hfinished := Model.finished_finalize cs
  obtain ⟨view, hview⟩ := hwf.view_finalize hkey
  have hboxed : ∀ item ∈ groupItems (ofChanges cs).finalize apiModule view,
      ∀ text ∈ item.body.texts, ∀ v ∈ text.boxed,
        (ofChanges cs).finalize.groupOf? v = some key ∧
          (ofChanges cs).finalize.Refers key item.id v ∧
            ReflTransGen ((ofChanges cs).finalize.Refers key) v item.id := by
    intro item hitem text htext v hv
    obtain ⟨hplaced, t, ht, hbody⟩ := mem_groupItems.mp hitem
    rw [hbody] at htext
    obtain ⟨e, he, rfl⟩ := mem_texts htext
    obtain ⟨-, hmentions, hplace⟩ := boxed_typeText hfinished hview hplaced e hv
    have hgroup := (((hfinished.lists hview).live item.id).mp hplaced).1
    have hrefers := Model.refers_of_mentions ht hgroup he hmentions
    have hlive := hfinished.wellFormed.dependencies_live (Model.refers_iff.mp hrefers).2
    refine ⟨(hfinished.wellFormed.mem_liveTypes.mp hlive).1, hrefers, ?_⟩
    by_cases hself : v = item.id
    · rw [hself]
    -- Were it placed before the item it would not be boxed, so it leads back.
    rcases hwf.view_before hkey hview hplaced hrefers hself with hbefore | hcycle
    · have hlt := idxOf_lt_of_sublist (hfinished.lists hview).nodup hbefore
      exact absurd (hplace.resolve_left hself) (Nat.not_le.mpr hlt)
    · exact hcycle.to_reflTransGen
  refine ⟨view, hview, hboxed, fun hacyclic item hitem hbox => ?_⟩
  obtain ⟨text, htext, hbox⟩ := ItemBody.exists_text hbox (by decide)
  obtain ⟨v, hv⟩ := TypeText.exists_boxed hbox
  obtain ⟨-, hrefers, hback⟩ := hboxed item hitem text htext v hv
  exact hacyclic item.id (TransGen.head' hrefers hback)

/-- A node that has the next node by name. -/
theorem finalize_boxes_cycles_node :
    let core : GroupKey := ⟨"core", some "v1"⟩
    let cs : List Change := [.registerNamed core "Node" .resource none, .setProperties 0 [
      { name := "next", type := .ref ⟨"Node", "core", some "v1"⟩, required := false }]]
    let m := (ofChanges cs).finalize
    core ∈ (ofChanges cs).keys ∧ ∃ view, m.finalized? core = some view ∧
      ∃ item ∈ groupItems m "api" view, ∃ text ∈ item.body.texts, 0 ∈ text.boxed ∧ m.Refers core item.id 0 ∧
        ReflTransGen (m.Refers core) 0 item.id := by
  intro core cs m
  have hkey : core ∈ (ofChanges cs).keys := by decide
  obtain ⟨view, hview, hboxed, -⟩ := finalize_boxes_cycles cs "api" hkey
  have hnode : ((m.finalized? core).map fun view => (groupItems m "api" view).map Item.body) =
      some [.record [⟨"next", .item 0 "Node" true, true, none, none⟩] none] := by
    decide +kernel
  rw [hview, Option.map_some, Option.some_inj] at hnode
  obtain ⟨item, hitem, hbody⟩ := List.mem_map.mp (hnode ▸ List.mem_singleton_self _)
  have htext : TypeText.item 0 "Node" true ∈ item.body.texts := by
    rw [hbody]
    exact List.mem_singleton_self _
  have hnext : 0 ∈ (TypeText.item 0 "Node" true).boxed := List.mem_singleton_self 0
  obtain ⟨-, hrefers, hback⟩ := hboxed item hitem _ htext 0 hnext
  exact ⟨hkey, view, hview, item, hitem, _, htext, hnext, hrefers, hback⟩

end Emission

end SchemaCompiler
