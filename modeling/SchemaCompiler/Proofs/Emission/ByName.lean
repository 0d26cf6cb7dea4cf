import SchemaCompiler.Emission.GroupModule
import SchemaCompiler.Proofs.Model.Linking

/-! A name and the number of the type behind it are spelled alike. All lookups of a name agree, so a
type that has a name of its own may refer to another one either way, and neither the views of the
groups nor the text of their modules shows which. -/

namespace SchemaCompiler

variable {find : QualifiedName → Option TypeId}

theorem TypeExpr.linked_eq_primitive {e : TypeExpr} {p : Primitive} :
    e.linked find = .primitive p ↔ e = .primitive p := by
  cases e with
  | ref q => cases h : find q <;> simp [linked, h]
  | _ => simp [linked]

/-! Expressions, entries and items in one model. -/

namespace Spelling

variable {s s' : Spelling} {current : TypeId}

/-- `s` takes a name that `find` knows for the number. -/
def Knows (s : Spelling) (find : QualifiedName → Option TypeId) : Prop :=
  ∀ {q id}, find q = some id →
    s.model.find? (GroupKey.of q) ((GroupKey.of q).qualify q.name) = some id

theorem typeText_linked (hs : s.Knows find) : ∀ (direct : Bool) (e : TypeExpr),
    s.typeText current direct (e.linked find) = s.typeText current direct e
  | _, .primitive _ => rfl
  | _, .wellKnown _ => rfl
  | _, .type _ => rfl
  | direct, .ref q => by
    cases h : find q with
    | none => simp [TypeExpr.linked, h]
    | some id => simp [TypeExpr.linked, h, typeText, refText, hs h]
  | _, .bareList => rfl
  | _, .list e => by rw [TypeExpr.linked, typeText, typeText, typeText_linked hs false e]
  | _, .bareMap => rfl
  | _, .map e => by rw [TypeExpr.linked, typeText, typeText, typeText_linked hs false e]
  | _, .union es => by
    have hes : es.map (TypeExpr.linked find) = [.primitive .integer, .primitive .string] ↔
        es = [.primitive .integer, .primitive .string] := by
      simp [List.map_eq_cons_iff, TypeExpr.linked_eq_primitive]
    simp only [TypeExpr.linked, typeText, TypeExpr.allLinked_eq, hes]

theorem field_linked (hs : s.Knows find) (p : Property) :
    s.field current (p.linked find) = s.field current p := by
  simp only [field, Property.linked, typeText_linked hs]
  rfl

theorem itemBody_linked (hs : s.Knows find) (t : TypeEntry) :
    s.itemBody current (t.linked find) = s.itemBody current t := by
  have hfields : (t.properties.map (Property.linked find)).map (s.field current) =
      t.properties.map (s.field current) := by
    rw [List.map_map]
    exact List.map_congr_left fun p _ => field_linked hs p
  cases hk : t.kind with
  | synonym target =>
    simp only [itemBody, TypeEntry.linked, hk, TypeKind.linked, typeText_linked hs]
  | _ => simp only [itemBody, hfields, hk, TypeEntry.linked, TypeKind.linked]

/-! The same expression in two models. -/

theorem typeText_congr (hnamed : ∀ direct, s'.namedText current direct = s.namedText current direct)
    (href : ∀ direct, s'.refText current direct = s.refText current direct) :
    ∀ (direct : Bool) (e : TypeExpr),
      s'.typeText current direct e = s.typeText current direct e
  | _, .primitive _ => rfl
  | _, .wellKnown _ => rfl
  | direct, .type id => congrFun (hnamed direct) id
  | direct, .ref q => congrFun (href direct) q
  | _, .bareList => rfl
  | _, .list e => congrArg TypeText.vec (typeText_congr hnamed href false e)
  | _, .bareMap => rfl
  | _, .map e => congrArg TypeText.dict (typeText_congr hnamed href false e)
  | _, .union _ => rfl

theorem itemBody_congr
    (h : ∀ direct e, s'.typeText current direct e = s.typeText current direct e) (t : TypeEntry) :
    s'.itemBody current t = s.itemBody current t := by
  have hfield : s'.field current = s.field current := by
    funext p
    rw [field, h, field]
  rw [itemBody, itemBody, hfield]
  cases t.kind with
  | synonym target => exact congrArg ItemBody.synonym (h true target)
  | _ => rfl

end Spelling

namespace Model

variable {m m' : Model} {key : GroupKey}

/-- The spelling of types looks at names, groups and redirects only. -/
def KeepsNames (hide : TypeEntry → TypeEntry) : Prop :=
  ∀ t, (hide t).name = t.name ∧ (hide t).group = t.group ∧ (hide t).mergedInto = t.mergedInto

section SameUpTo

variable {hide : TypeEntry → TypeEntry} (h : SameUpTo hide m m') (hkeeps : KeepsNames hide)

include h hkeeps

theorem SameUpTo.resolve (i : TypeId) : m'.resolve i = m.resolve i :=
  resolve_congr h.size_eq (h.mergedInto? fun t => (hkeeps t).2.2) i

theorem SameUpTo.refer (target current : TypeId) : m'.refer target current = m.refer target current := by
  have hname : ∀ i : TypeId, (m'.types[i]?).map (fun t => (t.name, t.group)) =
      (m.types[i]?).map fun t => (t.name, t.group) :=
    h.map_getElem? fun t => Prod.ext (hkeeps t).1 (hkeeps t).2.1
  have hone : ∀ m : Model, m.refer target current =
      ((m.types[m.resolve target]?).map fun t => (t.name, t.group)).bind fun t =>
        ((m.types[m.resolve current]?).map fun t => (t.name, t.group)).bind fun c =>
          if m.resolve target == m.resolve current then some (.itself t.1)
          else if t.2 == c.2 then some (.sameGroup t.1)
          else some (.external t.2.moduleName t.1) := by
    intro m
    simp only [Model.refer, Option.bind_eq_bind, Option.bind_map, Function.comp_def]
  rw [hone, hone, h.resolve hkeeps, h.resolve hkeeps, hname, hname]

theorem SameUpTo.typeText (apiModule : String) (view : FinalizedGroup) (current : TypeId) (direct : Bool)
    (e : TypeExpr) : (Emission.spelling m' apiModule view).typeText current direct e =
      (Emission.spelling m apiModule view).typeText current direct e := by
  let s := Emission.spelling m apiModule view
  let s' := Emission.spelling m' apiModule view
  have hmodel : s'.model = m' ∧ s.model = m := ⟨rfl, rfl⟩
  have hnamed : ∀ direct, s'.namedText current direct = s.namedText current direct := by
    intro direct
    funext id
    simp only [Spelling.namedText, hmodel, h.resolve hkeeps, h.refer hkeeps]
    rfl
  have href : ∀ direct, s'.refText current direct = s.refText current direct := by
    intro direct
    funext q
    rw [Spelling.refText, Spelling.refText, hnamed, hmodel.1, hmodel.2, h.find?]
    rfl
  exact Spelling.typeText_congr hnamed href direct e

end SameUpTo

theorem Linked.items (h : Linked find m m') (hfind : find = m.lookup?) (apiModule : String)
    (view : FinalizedGroup) :
    Emission.groupItems m' apiModule view = Emission.groupItems m apiModule view := by
  let s := Emission.spelling m apiModule view
  let s' := Emission.spelling m' apiModule view
  have hknows : s.Knows find := by
    intro q id hq
    rw [hfind] at hq
    exact (h.source.indexed _ _).trans hq
  have hitem : s'.item? = s.item? := by
    funext id
    have hbody : s'.itemBody id = s.itemBody id := funext fun t =>
      Spelling.itemBody_congr (h.typeText (fun _ => ⟨rfl, rfl, rfl⟩) apiModule view id) t
    have hone : ∀ m : Model, (m.types[id]?).map (fun t => (
        { id, name := t.name, description := t.description, body := s.itemBody id t } : Item)) =
        ((m.types[id]?).map (TypeEntry.linked find)).map fun t =>
          { id, name := t.name, description := t.description, body := s.itemBody id t } := by
      intro m
      rw [Option.map_map]
      congr 1
      funext t
      rw [Function.comp_apply, Spelling.itemBody_linked hknows]
      rfl
    have hitem' := hone m'
    rw [h.entries, ← hone m] at hitem'
    rw [Spelling.item?, hbody]
    exact hitem'
  rw [Emission.groupItems, Emission.groupItems, Spelling.items, Spelling.items]
  exact congrArg (List.filterMap · view.types) hitem

theorem Linked.groupText (h : Linked find m m') (hfind : find = m.lookup?) (apiModule : String)
    (key : GroupKey) :
    Emission.groupText m' apiModule key = Emission.groupText m apiModule key := by
  have hview : m'.finalized? key = m.finalized? key := by
    rw [Model.finalized?, h.group?, Model.finalized?]
  rw [Emission.groupText, Emission.groupText, hview]
  cases m.finalized? key with
  | none => rfl
  | some view => simp only [h.items hfind]

/-- All that looks `q` up finds `found`: the table of the group, the index, the walk over the
dependencies of any group, references and the spelling of types. A type that is found can be given
by its number as well. -/
structure Found (m : Model) (q : QualifiedName) (found : Option TypeId) : Prop where
  table : m.named? (GroupKey.of q) q.name = found
  index : m.find? (GroupKey.of q) ((GroupKey.of q).qualify q.name) = found
  walk : ∀ k, m.localTarget? k (.ref q) = if GroupKey.of q = k then found else none
  foreign : ∀ k, m.foreignGroup? k (.ref q) =
    if GroupKey.of q = k then none else some (GroupKey.of q)
  reference : ∀ current, m.referByName q current =
    found.elim (some (.canonical q)) fun x => m.refer x current
  spelling : ∀ s : Spelling, s.model = m → ∀ current direct, s.refText current direct q =
    found.elim (s.canonicalText q) fun x => s.namedText current direct x
  registered : ∀ {x}, found = some x → ∃ t, m.types[x]? = some t ∧ t.group = GroupKey.of q ∧
    t.name = q.name ∧ m.resolve x = x
  byNumber : ∀ {x}, found = some x → ∀ k,
    m.localTarget? k (.type x) = m.localTarget? k (.ref q) ∧
      m.foreignGroup? k (.type x) = m.foreignGroup? k (.ref q)

theorem WellFormed.found (h : m.WellFormed) (q : QualifiedName) : m.Found q (m.lookup? q) where
  table := rfl
  index := h.indexed _ _
  walk := by
    intro k
    by_cases hk : GroupKey.of q = k
    · simp [localTarget?, lookup?, hk]
    · simp [localTarget?, hk]
  foreign := fun k => by simp [foreignGroup?]
  reference := by
    intro current
    have hlookup : ((m.group? (GroupKey.of q)).bind fun g => Table.get? q.name g.named) =
        m.lookup? q := rfl
    rw [referByName, hlookup]
    cases m.lookup? q <;> rfl
  spelling := by
    rintro s rfl current direct
    rw [Spelling.refText, h.indexed, ← lookup?]
    cases s.model.lookup? q <;> rfl
  registered := by
    intro x hx
    obtain ⟨t, ht, hgroup, hname, -⟩ := h.named hx
    exact ⟨t, ht, hgroup, hname, (h.of_lookup? hx).2⟩
  byNumber := fun hx k => ⟨(h.localTarget?_ref hx k).symm, (h.foreignGroup?_ref hx k).symm⟩

/-- Whatever looks a name up finds the same type or none. Where types that have a name of their own
refer to others by name or by number instead, the groups have the same views however they are
finalized then, and their modules the same text. -/
theorem names_and_numbers_interchange (cs : List Change)
    (hr : Relation.ReflTransGen Relinks (ofChanges cs) m') (turns : List GroupKey) (key : GroupKey)
    (apiModule : String) :
    (∀ q, ∃ found, (ofChanges cs).Found q found) ∧ m'.keys = (ofChanges cs).keys ∧
      (turns.foldl finalizeGroup m').finalized? key =
        (turns.foldl finalizeGroup (ofChanges cs)).finalized? key ∧
      Emission.groupText (turns.foldl finalizeGroup m') apiModule key =
        Emission.groupText (turns.foldl finalizeGroup (ofChanges cs)) apiModule key := by
  have hwf := wellFormed_ofChanges cs
  have hlinked := linked_of_relinks hwf hr
  have hturns := hlinked.foldl rfl turns
  have hfind : (ofChanges cs).lookup? = (turns.foldl finalizeGroup (ofChanges cs)).lookup? := by
    funext q
    rw [lookup?, lookup?, hwf.named?_foldl]
  refine ⟨fun q => ⟨_, hwf.found q⟩, ?_, ?_, hturns.groupText hfind apiModule key⟩
  · rw [keys, hlinked.groups, keys]
  · rw [finalized?, hturns.group?, finalized?]

theorem names_and_numbers_interchange_pods :
    let core : GroupKey := ⟨"core", some "v1"⟩
    let apps : GroupKey := ⟨"apps", some "v1"⟩
    let pod : QualifiedName := { name := "Pod", group := "core", version := some "v1" }
    let cs : List Change := [.registerNamed core "Pod" .resource none,
      .registerNamed apps "PodList" (.synonym (.list (.ref pod))) none]
    let m' := (ofChanges cs).amend 1 fun t => { t with kind := .synonym (.list (.type 0)) }
    Relation.ReflTransGen Relinks (ofChanges cs) m' ∧
      ((∀ q, ∃ found, (ofChanges cs).Found q found) ∧ m'.keys = (ofChanges cs).keys ∧
        m'.finalize.finalized? apps = (ofChanges cs).finalize.finalized? apps ∧
        Emission.groupText m'.finalize "api" apps =
          Emission.groupText (ofChanges cs).finalize "api" apps) := by
  intro core apps pod cs m'
  have hr : Relation.ReflTransGen Relinks (ofChanges cs) m' := by
    refine .single ⟨apps, "PodList", 1, _, _, by decide, rfl, .synonym rfl (.list (.toNumber (by decide))), rfl⟩
  exact ⟨hr, names_and_numbers_interchange cs hr (ofChanges cs).keys apps "api"⟩

end Model

end SchemaCompiler
