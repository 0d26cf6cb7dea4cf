import SchemaCompiler.Proofs.Import.Completeness
import SchemaCompiler.Proofs.Import.Counterpart

/-! The references and schemas that an import comes by. Each leads on to others, whatever else has been
met, and an import that has succeeded has come by all to which its calls lead. -/

namespace SchemaCompiler

open QualifiedName (parse?)

namespace Importer

open Model (objectEntry namedEntry)

/-- What an import may come by: a reference, a schema declared under a property of a type like `t`, or
the body of a type like `t`. -/
inductive Waypoint where
  | reference (path : String)
  | node (t : TypeEntry) (property : String) (typeName : Option String) (s : Schema)
  | body (t : TypeEntry) (s : Schema)

/-- A reference is read as a name, and a schema has a shape. -/
def Waypoint.Legible : Waypoint → Prop
  | .reference path => (parse? (QualifiedName.identifier path)).isSome
  | .node _ _ _ s => ∃ shape, s.HasShape shape
  | .body _ _ => True

/-- The reference `path` leads to the definition of `q`. -/
structure Leads (c : ImportSettings) (path : String) (q : QualifiedName) (definition : Schema) : Prop where
  name : parse? (QualifiedName.identifier path) = some q
  ordinary : wellKnown? q = none
  defined : Table.get? (QualifiedName.identifier path) c.definitions = some definition

/-- What comes after a reference, a schema or a body. -/
inductive Next (c : ImportSettings) : Waypoint → Waypoint → Prop where
  | record {path : String} {q : QualifiedName} {definition : Schema} (h : Leads c path q definition)
      (hr : definition.isRecord = true) :
      Next c (.reference path) (.body (definitionEntry q definition) definition)
  | synonym {path : String} {q : QualifiedName} {definition : Schema} (h : Leads c path q definition)
      (hr : definition.isRecord = false) (hu : definition.isUnconstrained = false) :
      Next c (.reference path) (.node (definitionEntry q definition) "item" none definition)
  | field {t : TypeEntry} {s : Schema} {f : String × Schema} (hf : f ∈ s.properties)
      (hkeep : (contextOf c t ⟨0, s⟩).keeps f.1 = true)
      (hc : isCanonical c (contextOf c t ⟨0, s⟩) f.1 = false) :
      Next c (.body t s) (.node t f.1 ((contextOf c t ⟨0, s⟩).patch f.1).typeName
        ((contextOf c t ⟨0, s⟩).effective f.1 f.2))
  | item {t : TypeEntry} {property : String} {typeName : Option String} {s item : Schema}
      (hs : s.HasShape (.array (some item))) :
      Next c (.node t property typeName s) (.node t property typeName item)
  | value {t : TypeEntry} {property : String} {typeName : Option String} {s value : Schema}
      (hs : s.HasShape (.map (some value))) :
      Next c (.node t property typeName s) (.node t property typeName value)
  | path {t : TypeEntry} {property : String} {typeName : Option String} {s : Schema} {path : String}
      (hs : s.HasShape (.reference path)) : Next c (.node t property typeName s) (.reference path)
  | object {t : TypeEntry} {property : String} {typeName : Option String} {s : Schema}
      {properties : List (String × Schema)} (hs : s.HasShape (.object properties))
      (hq : c.inference.bind (Signature.infer · property s) = none) :
      Next c (.node t property typeName s)
        (.body (objectEntry t 0 property typeName s.description) s)

/-- What the calls begin with. -/
inductive Begins (calls : List Call) : Waypoint → Prop where
  | reference {path : String} (h : .reference path ∈ calls) : Begins calls (.reference path)
  | root {r : Root} (h : firstNamed (rootsOf calls) r.group r.name = some r) :
      Begins calls (.body (namedEntry r.group r.name r.kind r.schema.description) r.schema)

/-- What the calls lead to. -/
inductive Encountered (c : ImportSettings) (calls : List Call) : Waypoint → Prop where
  | start {w : Waypoint} (h : Begins calls w) : Encountered c calls w
  | next {v w : Waypoint} (h : Encountered c calls v) (hw : Next c v w) : Encountered c calls w

/-- `R` holds of nothing that cannot be read, and of what comes after anything that it holds of. -/
structure Passable (c : ImportSettings) (R : Waypoint → Prop) : Prop where
  legible : ∀ {w}, R w → w.Legible
  next : ∀ {v w}, R v → Next c v w → R w

variable {c : ImportSettings} {calls : List Call} {roots : List Root} {k : Importer} {m : Model}
  {read bodies : List Pending} {id parent : TypeId} {t : TypeEntry} {v w : Waypoint}
  {property : String} {typeName : Option String} {s : Schema} {R : Waypoint → Prop}

theorem passable_encountered (hlegible : ∀ w, Encountered c calls w → w.Legible) :
    Passable c (Encountered c calls) :=
  ⟨hlegible _, .next⟩

theorem Encountered.holds (h : Encountered c calls w) (hR : Passable c R)
    (hbegins : ∀ w, Begins calls w → R w) : R w := by
  induction h with
  | start h => exact hbegins _ h
  | next _ hw ih => exact hR.next ih hw

/-! An import that has succeeded. -/

/-- An import that has read `bodies` has come by this. -/
def Passed (c : ImportSettings) (m : Model) (bodies : List Pending) : Waypoint → Prop
  | .reference path => ∃ e, Meaning c m (QualifiedName.identifier path) e
  | .node t property typeName s =>
    ∃ id e, m.Looks id t ∧ Denotes c m bodies id property typeName s e
  | .body t s => ∃ id, m.Looks id t ∧ ⟨id, s⟩ ∈ bodies

theorem Denotes.exists_shape {e : TypeExpr} (h : Denotes c m bodies parent property typeName s e) :
    ∃ shape, s.HasShape shape := by
  cases h with
  | plain hs _ => exact ⟨_, hs⟩
  | reference hs _ => exact ⟨_, hs⟩
  | list hs _ => exact ⟨_, hs⟩
  | map hs _ => exact ⟨_, hs⟩
  | inferred hs _ => exact ⟨_, hs⟩
  | object hs _ _ => exact ⟨_, hs⟩

theorem Passed.legible (h : Passed c m bodies w) : w.Legible := by
  cases w with
  | reference path =>
    obtain ⟨e, he⟩ := h
    exact he.parses
  | node t property typeName s =>
    obtain ⟨id, e, -, he⟩ := h
    exact he.exists_shape
  | body t s => trivial

theorem ObjectAt.looks (h : ObjectAt m bodies parent property typeName s id) (ht : m.Looks parent t) :
    m.Looks id (objectEntry t 0 property typeName s.description) := by
  obtain ⟨above, habove, hid⟩ := h.label
  obtain ⟨l, hl, hface⟩ := ht
  obtain rfl := Option.some.inj (hl.symm.trans habove)
  exact ⟨_, hid, objectEntry_face hface _ _⟩

section Full

variable (h : Full c roots read [] k) (hs : Unshared c roots)

include h hs

/-- What a reference leads to has been settled. -/
theorem Full.settled_of_leads {q : QualifiedName} {definition : Schema} {path : String}
    (hleads : Leads c path q definition)
    (hpath : ∃ e, Meaning c k.model (QualifiedName.identifier path) e) :
    ∃ id, k.model.Looks id (definitionEntry q definition) ∧
      Settles c k.model (read ++ [] ++ k.pending) definition id := by
  obtain ⟨e, he⟩ := hpath
  obtain ⟨id, -, hid⟩ := he.defined_at hleads.name hleads.ordinary hleads.defined
  have hresolved := h.coherent.resolved_of_defined hs hid
  exact ⟨id, ⟨_, hid.label, rfl⟩, h.settled hresolved hid.defined⟩

/-- An import whose queue has been read has come by all that comes after anything it has come by. -/
theorem Full.passable (hpending : k.pending = []) :
    Passable c (Passed c k.model (read ++ [] ++ k.pending)) := by
  refine ⟨Passed.legible, fun {v w} hv hw => ?_⟩
  cases hw with
  | record hleads hr =>
    obtain ⟨id, hlooks, hsettles⟩ := h.settled_of_leads hs hleads hv
    cases hsettles with
    | record _ hb => exact ⟨id, hlooks, hb⟩
    | unconstrained hr' _ _ => cases hr.symm.trans hr'
    | synonym hr' _ _ _ => cases hr.symm.trans hr'
  | synonym hleads hr hu =>
    obtain ⟨id, hlooks, hsettles⟩ := h.settled_of_leads hs hleads hv
    cases hsettles with
    | record hr' _ => cases hr.symm.trans hr'
    | unconstrained _ hu' _ => cases hu.symm.trans hu'
    | synonym _ _ _ ht => exact ⟨id, _, hlooks, ht⟩
  | @field t s f hf hkeep hc =>
    obtain ⟨id, hlooks, hb⟩ := hv
    have hread : ⟨id, s⟩ ∈ read := by simpa [hpending] using hb
    obtain ⟨e, he⟩ := (h.filled _ hread).field hlooks hf hkeep hc
    exact ⟨id, e, hlooks, he⟩
  | item hshape =>
    obtain ⟨id, e, hlooks, he⟩ := hv
    obtain ⟨e', -, he'⟩ := he.shaped hshape
    exact ⟨id, e', hlooks, he'⟩
  | value hshape =>
    obtain ⟨id, e, hlooks, he⟩ := hv
    obtain ⟨e', -, he'⟩ := he.shaped hshape
    exact ⟨id, e', hlooks, he'⟩
  | path hshape =>
    obtain ⟨id, e, -, he⟩ := hv
    exact ⟨e, he.shaped hshape⟩
  | object hshape hq =>
    obtain ⟨id, e, hlooks, he⟩ := hv
    rcases he.shaped hshape with ⟨q, hq', -⟩ | ⟨-, x, -, hx⟩
    · cases hq.symm.trans hq'
    · exact ⟨x, hx.looks hlooks, hx.body⟩

end Full

/-- What an import that succeeds has been asked for. -/
theorem passed_of_begins (hreferences : ∀ path, .reference path ∈ calls →
      ∃ e, Meaning c m (QualifiedName.identifier path) e)
    (hroots : Registered (rootsOf calls) m bodies) (h : Begins calls w) : Passed c m bodies w := by
  cases h with
  | reference hpath => exact hreferences _ hpath
  | @root r hfirst =>
    obtain ⟨first, id, hfirst', hroot, -, -, hbody⟩ := hroots r (List.mem_of_find?_eq_some hfirst)
    obtain rfl := Option.some.inj (hfirst.symm.trans hfirst')
    exact ⟨id, ⟨_, hroot.label, TypeEntry.label_face _⟩, hbody⟩

end Importer

end SchemaCompiler
