import SchemaCompiler.Emission.GroupModule
import SchemaCompiler.Proofs.Model.Ties
import SchemaCompiler.Proofs.Model.UniqueName
import SchemaCompiler.Proofs.Model.View

/-! References in emitted modules. Once everything is finalized, the type that stands for a registered
one is an item of its group's module, and the only one there with its name, so that spelling the name
leads to the item from every module. -/

namespace SchemaCompiler

def TypeExpr.type? : TypeExpr → Option TypeId
  | type id => some id
  | _ => none

namespace Model

variable {m : Model} {key : GroupKey} {view : FinalizedGroup}

/-- All types in expressions are registered. -/
def Closed (m : Model) : Prop :=
  ∀ u < m.types.size, ∀ id ∈ (m.leavesOf u).filterMap TypeExpr.type?, id < m.types.size

instance : Decidable m.Closed :=
  inferInstanceAs (Decidable (∀ u < m.types.size,
    ∀ id ∈ (m.leavesOf u).filterMap TypeExpr.type?, id < m.types.size))

theorem Closed.lt_size (h : m.Closed) {u id : TypeId} {t : TypeEntry} (ht : m.types[u]? = some t)
    {e : TypeExpr} (he : e ∈ t.exprs) (hid : .type id ∈ e.leaves) : id < m.types.size := by
  have hleaf : .type id ∈ m.leavesOf u := by
    rw [leavesOf, exprsOf, ht]
    exact List.mem_flatMap.mpr ⟨e, he, hid⟩
  exact h u (Array.getElem?_eq_some_iff.mp ht).1 id (List.mem_filterMap.mpr ⟨_, hleaf, rfl⟩)

theorem WellFormed.closed_finalize (h : m.WellFormed) (hclosed : m.Closed) : m.finalize.Closed := by
  intro u hu id hid
  rw [h.size_finalize] at hu ⊢
  have hleaves : m.finalize.leavesOf u = m.leavesOf u := by
    rw [leavesOf, exprsOf, h.map_finalize (fun _ => rfl), leavesOf, exprsOf]
  rw [hleaves] at hid
  exact hclosed u hu id hid

/-- What is left when every group has been finalized and nothing was changed since. -/
structure Finished (m : Model) : Prop where
  wellFormed : m.WellFormed
  view : ∀ {i key}, m.groupOf? i = some key → ∃ view, m.finalized? key = some view
  lists : ∀ {key view}, m.finalized? key = some view → m.ListsLive key view.types
  unique : ∀ {a b : TypeId} {s t : TypeEntry}, m.types[a]? = some s → m.types[b]? = some t →
    s.mergedInto = none → t.mergedInto = none → s.group = t.group → s.name = t.name → a = b

theorem WellFormed.view_finalize (h : m.WellFormed) (hkey : key ∈ m.keys) :
    ∃ view, m.finalize.finalized? key = some view := by
  rw [← Option.isSome_iff_exists]
  exact (h.isSome_view_change key .finalize).mpr (.inl ⟨trivial, hkey⟩)

theorem finished_finalize (cs : List Change) : (ofChanges cs).finalize.Finished where
  wellFormed := (wellFormed_ofChanges cs).finalize
  view := by
    intro i key hi
    rw [(wellFormed_ofChanges cs).groupOf?_finalize] at hi
    exact (wellFormed_ofChanges cs).view_finalize ((wellFormed_ofChanges cs).key_mem hi)
  lists := by
    intro key view hview
    have hlast : ofChanges (cs ++ [.finalize]) = (ofChanges cs).finalize :=
      ofChanges_append cs [.finalize]
    rw [← hlast] at hview ⊢
    exact listsLive_view _ hview
  unique := (wellFormed_ofChanges cs).eq_of_name_finalize

/-- The type that stands for a registered one is in the same group. -/
theorem WellFormed.exists_resolved (h : m.WellFormed) {id : TypeId} (hid : id < m.types.size) :
    ∃ t, m.types[m.resolve id]? = some t ∧ m.groupOf? id = some t.group := by
  have hgroup : m.groupOf? (m.resolve id) = some m.types[id].group := by
    rw [h.groupOf?_resolve, groupOf?, Array.getElem?_eq_getElem hid, Option.map_some]
  obtain ⟨t, ht, -⟩ := Option.map_eq_some_iff.mp hgroup
  exact ⟨t, ht, by rw [← h.groupOf?_resolve, groupOf?, ht, Option.map_some]⟩

end Model

theorem TypeText.render_item (id : TypeId) (name : String) (boxed : Bool) :
    (item id name boxed).render = name ∨ (item id name boxed).render = "Box<" ++ name ++ ">" := by
  cases boxed
  · exact .inl rfl
  · exact .inr rfl

namespace Spelling

theorem item?_eq_some_iff {s : Spelling} {id : TypeId} {item : Item} :
    s.item? id = some item ↔ ∃ t, s.model.types[id]? = some t ∧
      item = ⟨id, t.name, t.description, s.itemBody id t⟩ := by
  rw [item?, Option.map_eq_some_iff]
  simp only [eq_comm]

theorem mem_items {s : Spelling} {item : Item} :
    item ∈ s.items ↔ item.id ∈ s.placed ∧ s.item? item.id = some item := by
  rw [items, List.mem_filterMap]
  constructor
  · rintro ⟨id, hid, hitem⟩
    obtain ⟨t, -, rfl⟩ := item?_eq_some_iff.mp hitem
    exact ⟨hid, hitem⟩
  · rintro ⟨hid, hitem⟩
    exact ⟨item.id, hid, hitem⟩

theorem nodup_items {s : Spelling} (h : s.placed.Nodup) : s.items.Nodup := by
  refine h.filterMap fun a b item ha hb => ?_
  obtain ⟨_, -, rfl⟩ := item?_eq_some_iff.mp ha
  obtain ⟨_, -, he⟩ := item?_eq_some_iff.mp hb
  exact congrArg Item.id he

end Spelling

namespace Emission

open Model (ofChanges wellFormed_ofChanges)

variable {m : Model} {apiModule : String} {key : GroupKey} {view : FinalizedGroup} {id : TypeId}

theorem mem_groupItems {item : Item} :
    item ∈ groupItems m apiModule view ↔ item.id ∈ view.types ∧ ∃ t, m.types[item.id]? = some t ∧
      item = ⟨item.id, t.name, t.description, (spelling m apiModule view).itemBody item.id t⟩ := by
  rw [groupItems, Spelling.mem_items, Spelling.item?_eq_some_iff]
  rfl

/-- No two items of a module have one name. -/
theorem nodup_names (h : m.Finished) (hview : m.finalized? key = some view) :
    ((groupItems m apiModule view).map Item.name).Nodup := by
  have hlists := h.lists hview
  refine (Spelling.nodup_items hlists.nodup).map_on fun a ha b hb hname => ?_
  obtain ⟨ha, s, hs, hsa⟩ := mem_groupItems.mp ha
  obtain ⟨hb, t, ht, htb⟩ := mem_groupItems.mp hb
  obtain ⟨hsg, hsl⟩ := (hlists.live _).mp ha
  obtain ⟨htg, htl⟩ := (hlists.live _).mp hb
  rw [Model.groupOf?, hs, Option.map_some] at hsg
  rw [Model.groupOf?, ht, Option.map_some] at htg
  rw [Model.isLive_iff, Model.mergedInto?, hs] at hsl
  rw [Model.isLive_iff, Model.mergedInto?, ht] at htl
  have hst : s.name = t.name := by rw [hsa, htb] at hname; exact hname
  have hid : a.id = b.id :=
    h.unique hs ht hsl htl (Option.some.inj (hsg.trans htg.symm)) hst
  rw [hsa, htb]
  rw [hid] at hs ⊢
  rw [Option.some.inj (hs.symm.trans ht)]

/-- A type that stands for itself is listed with its group. -/
theorem exists_listed (h : m.Finished) {t : TypeEntry} (ht : m.types[id]? = some t)
    (hlive : m.mergedInto? id = none) : ∃ view, m.finalized? t.group = some view ∧ id ∈ view.types := by
  have hgroup : m.groupOf? id = some t.group := by rw [Model.groupOf?, ht, Option.map_some]
  obtain ⟨view, hview⟩ := h.view hgroup
  exact ⟨view, hview, ((h.lists hview).live id).mpr ⟨hgroup, Model.isLive_iff.mpr hlive⟩⟩

/-- A type that stands for itself is the one item of its name in the module of its group. -/
theorem exists_item (h : m.Finished) (apiModule : String) {t : TypeEntry}
    (ht : m.types[id]? = some t) (hlive : m.mergedInto? id = none) :
    ∃ view item, m.finalized? t.group = some view ∧ item.id = id ∧ item.name = t.name ∧
      (groupItems m apiModule view).filter (·.name == t.name) = [item] := by
  obtain ⟨view, hview, hlisted⟩ := exists_listed h ht hlive
  let item : Item := ⟨id, t.name, t.description, (spelling m apiModule view).itemBody id t⟩
  have hitem : item ∈ groupItems m apiModule view := mem_groupItems.mpr ⟨hlisted, t, ht, rfl⟩
  exact ⟨view, item, hview, rfl, rfl, filter_eq_singleton (nodup_names h hview) hitem⟩

/-- Written in the module of the group `key`, `text` is the name of the item of the type that stands
for `id`, boxed or not, or its path if it is in another module. No other item there has the name. -/
def NamesItem (m : Model) (apiModule : String) (key : GroupKey) (id : TypeId) (text : String) : Prop :=
  ∃ group view item, m.groupOf? id = some group ∧ m.finalized? group = some view ∧
    (groupItems m apiModule view).filter (·.name == item.name) = [item] ∧
    item.id = m.resolve id ∧
    if group = key then text = item.name ∨ text = "Box<" ++ item.name ++ ">"
    else text = "super::" ++ group.moduleName ++ "::" ++ item.name

/-- How expressions are spelled in the module of the group `key`. -/
inductive Spells (m : Model) (apiModule : String) (key : GroupKey) : TypeExpr → TypeText → Prop
  | primitive (p : Primitive) : Spells m apiModule key (.primitive p) p.text
  | wellKnown (w : WellKnown) : Spells m apiModule key (.wellKnown w) (.base w.name)
  | type {id text} (h : NamesItem m apiModule key id text.render) :
    Spells m apiModule key (.type id) text
  | registered {q id text} (hq : m.named? (GroupKey.of q) q.name = some id)
    (h : NamesItem m apiModule key id text.render) : Spells m apiModule key (.ref q) text
  | canonical {q} (hq : m.named? (GroupKey.of q) q.name = none) : Spells m apiModule key (.ref q)
      (.canonical apiModule (Naming.moduleName q.group q.version) q.name)
  | bareList : Spells m apiModule key .bareList (.vec .anyValue)
  | list {item text} (h : Spells m apiModule key item text) :
    Spells m apiModule key (.list item) (.vec text)
  | bareMap : Spells m apiModule key .bareMap (.dict .anyValue)
  | map {value text} (h : Spells m apiModule key value text) :
    Spells m apiModule key (.map value) (.dict text)
  | intOrString : Spells m apiModule key (.union [.primitive .integer, .primitive .string])
      (.base "IntOrString")
  | union {members} (h : members ≠ [.primitive .integer, .primitive .string]) :
    Spells m apiModule key (.union members) .anyValue

/-- How a type is spelled: what it is a synonym of, or else the types of its properties. -/
inductive SpellsBody (m : Model) (apiModule : String) (key : GroupKey) (t : TypeEntry) : ItemBody → Prop
  | synonym {target text} (hkind : t.kind = .synonym target)
    (h : Spells m apiModule key target text) : SpellsBody m apiModule key t (.synonym text)
  | record {fields resource} (hkind : ∀ target, t.kind ≠ .synonym target)
    (h : List.Forall₂ (fun p f => f.name = p.fieldName ∧ Spells m apiModule key p.type f.type)
      t.properties fields) : SpellsBody m apiModule key t (.record fields resource)

section Spelling

variable {current : TypeId}

/-- A registered type is spelled by name within its group, and with its module elsewhere. -/
theorem namedText_eq (h : m.WellFormed) {c t : TypeEntry} (ht : m.types[m.resolve id]? = some t)
    (hc : m.types[current]? = some c) (hlive : m.mergedInto? current = none) (direct : Bool) :
    (spelling m apiModule view).namedText current direct id =
      if t.group = c.group then
        .item (m.resolve id) t.name (direct && (m.resolve id == current ||
          (spelling m apiModule view).isBackEdge (m.resolve id) current))
      else .foreign (m.resolve id) t.group.moduleName t.name := by
  have hrefer : m.refer (m.resolve id) current =
      if m.resolve id = current then some (.itself t.name)
      else if t.group = c.group then some (.sameGroup t.name)
      else some (.external t.group.moduleName t.name) := by
    simp [Model.refer, h.resolve_resolve, Model.resolve_of_live hlive, ht, hc]
  have hmodel : (spelling m apiModule view).model = m := rfl
  rw [Spelling.namedText, hmodel, hrefer]
  by_cases hself : m.resolve id = current
  · rw [hself] at ht
    obtain rfl : c = t := Option.some.inj (hc.symm.trans ht)
    simp [hself]
  · have hne : (m.resolve id == current) = false := beq_eq_false_iff_ne.mpr hself
    by_cases hgroup : t.group = c.group
    · rw [if_neg hself, if_pos hgroup, if_pos hgroup, hne, Bool.false_or]
    · rw [if_neg hself, if_neg hgroup, if_neg hgroup]

theorem namedText_listed (h : m.Finished) (hview : m.finalized? key = some view)
    (hcurrent : current ∈ view.types) {t : TypeEntry} (ht : m.types[m.resolve id]? = some t)
    (direct : Bool) :
    (spelling m apiModule view).namedText current direct id =
      if t.group = key then
        .item (m.resolve id) t.name (direct && (m.resolve id == current ||
          (spelling m apiModule view).isBackEdge (m.resolve id) current))
      else .foreign (m.resolve id) t.group.moduleName t.name := by
  obtain ⟨hgroup, hlive⟩ := ((h.lists hview).live current).mp hcurrent
  obtain ⟨c, hc, rfl⟩ := Option.map_eq_some_iff.mp hgroup
  exact namedText_eq h.wellFormed ht hc (Model.isLive_iff.mp hlive) direct

theorem namedText_absent (h : m.WellFormed) (ht : m.types[m.resolve id]? = none) (direct : Bool) :
    (spelling m apiModule view).namedText current direct id = .anyValue := by
  have hrefer : m.refer (m.resolve id) current = none := by
    simp [Model.refer, h.resolve_resolve, ht]
  have hmodel : (spelling m apiModule view).model = m := rfl
  rw [Spelling.namedText, hmodel, hrefer]

theorem namesItem_namedText (h : m.Finished) (hview : m.finalized? key = some view)
    (hcurrent : current ∈ view.types) (direct : Bool) (hid : id < m.types.size) :
    NamesItem m apiModule key id
      ((spelling m apiModule view).namedText current direct id).render := by
  obtain ⟨t, ht, hresolved⟩ := h.wellFormed.exists_resolved hid
  obtain ⟨target, item, htarget, hitem, hname, hsole⟩ :=
    exists_item h apiModule ht (h.wellFormed.mergedInto?_resolve id)
  rw [← hname] at hsole
  refine ⟨t.group, target, item, hresolved, htarget, hsole, hitem, ?_⟩
  rw [namedText_listed h hview hcurrent ht, hname]
  split
  · exact TypeText.render_item _ _ _
  · rfl

theorem spells_ref (h : m.Finished) (hview : m.finalized? key = some view)
    (hcurrent : current ∈ view.types) (direct : Bool) (q : QualifiedName) :
    Spells m apiModule key (.ref q) ((spelling m apiModule view).refText current direct q) := by
  have hfind : (spelling m apiModule view).model.find? (GroupKey.of q)
      ((GroupKey.of q).qualify q.name) = m.named? (GroupKey.of q) q.name :=
    h.wellFormed.indexed _ _
  rw [Spelling.refText, hfind]
  cases hq : m.named? (GroupKey.of q) q.name with
  | none => exact .canonical hq
  | some id =>
    obtain ⟨t, ht, -⟩ := h.wellFormed.named hq
    have hid : id < m.types.size := (Array.getElem?_eq_some_iff.mp ht).1
    exact .registered hq (namesItem_namedText h hview hcurrent direct hid)

theorem spells_typeText (h : m.Finished) (hview : m.finalized? key = some view)
    (hcurrent : current ∈ view.types) :
    ∀ (e : TypeExpr) (direct : Bool), (∀ id, .type id ∈ e.leaves → id < m.types.size) →
      Spells m apiModule key e ((spelling m apiModule view).typeText current direct e)
  | .primitive p, _, _ => .primitive p
  | .wellKnown w, _, _ => .wellKnown w
  | .type id, direct, hids =>
    .type (namesItem_namedText h hview hcurrent direct (hids id List.mem_cons_self))
  | .ref q, direct, _ => spells_ref h hview hcurrent direct q
  | .bareList, _, _ => .bareList
  | .list item, _, hids => .list (spells_typeText h hview hcurrent item false hids)
  | .bareMap, _, _ => .bareMap
  | .map value, _, hids => .map (spells_typeText h hview hcurrent value false hids)
  | .union members, _, _ => by
    rw [Spelling.typeText]
    split
    next hmembers => rw [hmembers]; exact .intOrString
    next hmembers => exact .union hmembers

theorem spellsBody_itemBody (h : m.Finished) (hview : m.finalized? key = some view)
    (hcurrent : current ∈ view.types) {t : TypeEntry}
    (hids : ∀ e ∈ t.exprs, ∀ id, .type id ∈ e.leaves → id < m.types.size) :
    SpellsBody m apiModule key t ((spelling m apiModule view).itemBody current t) := by
  have hfields : List.Forall₂ (fun p (f : Field) => f.name = p.fieldName ∧
      Spells m apiModule key p.type f.type) t.properties
      (t.properties.map ((spelling m apiModule view).field current)) := by
    rw [List.forall₂_map_right_iff, List.forall₂_same]
    intro p hp
    refine ⟨rfl, spells_typeText h hview hcurrent p.type true (hids p.type ?_)⟩
    exact List.mem_append_right _ (List.mem_map_of_mem hp)
  rw [Spelling.itemBody]
  cases hkind : t.kind with
  | synonym target =>
    refine .synonym hkind (spells_typeText h hview hcurrent target true (hids target ?_))
    simp [TypeEntry.exprs, hkind]
  | resource => exact .record (by simp [hkind]) hfields
  | apiResource info => exact .record (by simp [hkind]) hfields
  | anonymous parent property => exact .record (by simp [hkind]) hfields

end Spelling

/-- Whatever was registered, filled in and finalized before, once all is finalized, the module of
each group spells a type in its items by the name of the item of the one that stands for it, and no
other item of the module that this leads to has the name. -/
theorem finalize_spells_references (cs : List Change) (hclosed : (ofChanges cs).Closed)
    (apiModule : String) {key : GroupKey} (hkey : key ∈ (ofChanges cs).keys) :
    ∃ view, (ofChanges cs).finalize.finalized? key = some view ∧
      (key.moduleName ∉ reservedModules → groupText (ofChanges cs).finalize apiModule key =
        .ok (unlines (groupLines key view (groupItems (ofChanges cs).finalize apiModule view)))) ∧
      ∀ item ∈ groupItems (ofChanges cs).finalize apiModule view,
        ∃ t, (ofChanges cs).finalize.types[item.id]? = some t ∧ item.name = t.name ∧
          SpellsBody (ofChanges cs).finalize apiModule key t item.body := by
  have hwf := wellFormed_ofChanges cs
  obtain ⟨view, hview⟩ := hwf.view_finalize hkey
  refine ⟨view, hview, fun hreserved => ?_, fun item hitem => ?_⟩
  · rw [groupText, hview]
    simp [hreserved]
  · obtain ⟨hplaced, t, ht, hbody⟩ := mem_groupItems.mp hitem
    refine ⟨t, ht, by rw [hbody], ?_⟩
    rw [hbody]
    refine spellsBody_itemBody (Model.finished_finalize cs) hview hplaced fun e he id hid => ?_
    exact (hwf.closed_finalize hclosed).lt_size ht he hid

/-- An owner of the second of two objects that are made one, and a synonym of a type by name, both in
other groups. The owner is written with the first object. -/
theorem finalize_spells_references_merged :
    let apps : GroupKey := ⟨"apps", some "v1"⟩
    let core : GroupKey := ⟨"core", some "v1"⟩
    let batch : GroupKey := ⟨"batch", some "v1"⟩
    let cs : List Change :=
      [.registerNamed apps "DaemonSet" .resource none, .registerNamed apps "Deployment" .resource none,
        .registerAnonymous 0 "spec" (some "Spec") none, .registerAnonymous 1 "spec" (some "Spec") none,
        .registerNamed core "Owner" .resource none,
        .registerNamed batch "Job" (.synonym (.ref ⟨"Deployment", "apps", some "v1"⟩)) none,
        .setProperties 4 [{ name := "specs", type := .list (.type 3), required := true }],
        .setProperties 2 [{ name := "owner", type := .type 4, required := false }],
        .setProperties 3 [{ name := "owner", type := .type 4, required := false }]]
    let m := (ofChanges cs).finalize
    (ofChanges cs).Closed ∧ m.resolve 3 = 2 ∧
    (∀ key ∈ [core, batch], key ∈ (ofChanges cs).keys ∧
      ∃ view, m.finalized? key = some view ∧
        (key.moduleName ∉ reservedModules → groupText m "api" key =
          .ok (unlines (groupLines key view (groupItems m "api" view)))) ∧
        ∀ item ∈ groupItems m "api" view,
          ∃ t, m.types[item.id]? = some t ∧ item.name = t.name ∧ SpellsBody m "api" key t item.body) ∧
    (m.finalized? core).map (groupItems m "api") = some [
      ⟨4, "Owner", none, .record [⟨"specs", .vec (.foreign 2 "apps_v1" "Spec"), false, none, none⟩] none⟩] ∧
    (m.finalized? batch).map (groupItems m "api") = some [
      ⟨5, "Job", none, .synonym (.foreign 1 "apps_v1" "Deployment")⟩] ∧
    (TypeText.vec (.foreign 2 "apps_v1" "Spec")).render = "Vec<super::apps_v1::Spec>" := by
  intro apps core batch cs m
  have hclosed : (ofChanges cs).Closed := by decide +kernel
  have hkeys : ∀ key ∈ [core, batch], key ∈ (ofChanges cs).keys := by decide
  refine ⟨hclosed, ?_, fun key hkey => ⟨hkeys key hkey,
    finalize_spells_references cs hclosed "api" (hkeys key hkey)⟩, ?_, ?_, ?_⟩
  · decide +kernel
  · decide +kernel
  · decide +kernel
  · decide

end Emission

end SchemaCompiler
