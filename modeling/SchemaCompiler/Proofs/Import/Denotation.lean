import SchemaCompiler.Proofs.Import.Parts
import SchemaCompiler.Proofs.Import.Queue
import SchemaCompiler.Proofs.Model.Label
import SchemaCompiler.Proofs.QualifiedName

/-! What references and schemas stand for in a model. None of this changes when types are added, or
when the properties of a type or the target of a synonym become known. -/

namespace SchemaCompiler

open QualifiedName (parse?)

namespace Importer

open Model (objectEntry namedEntry)

def definedKind (q : QualifiedName) (definition : Schema) : TypeKind :=
  if definition.isRecord then definitionKind q definition else .synonym (.primitive .any)

/-- The type that a definition becomes. -/
def definitionEntry (q : QualifiedName) (definition : Schema) : TypeEntry :=
  namedEntry (GroupKey.of q) q.name (definedKind q definition) definition.description

theorem definitionKind_named (q : QualifiedName) (definition : Schema) :
    (∀ parent property, definitionKind q definition ≠ .anonymous parent property) ∧
      ∀ target, definitionKind q definition ≠ .synonym target := by
  rw [definitionKind]
  split
  · split
    · exact ⟨nofun, nofun⟩
    · exact ⟨nofun, nofun⟩
  · exact ⟨nofun, nofun⟩

theorem definitionEntry_named (q : QualifiedName) (definition : Schema) (parent : TypeId)
    (property : String) : (definitionEntry q definition).kind ≠ .anonymous parent property := by
  rw [definitionEntry, namedEntry, definedKind]
  split
  · exact (definitionKind_named q definition).1 parent property
  · simp

theorem definitionEntry_label (q : QualifiedName) (definition : Schema) :
    (definitionEntry q definition).label = definitionEntry q definition := by
  have hk := (definitionKind_named q definition).2
  cases hrecord : definition.isRecord with
  | true =>
    apply TypeEntry.label_eq rfl
    simpa [definitionEntry, namedEntry, definedKind, hrecord] using hk
  | false => simp [definitionEntry, namedEntry, definedKind, TypeEntry.label, hrecord]

variable {c : ImportSettings} {m m' : Model} {bodies bodies' : List Pending}

/-- The definition under `key` is the type `id`. -/
structure Defined (c : ImportSettings) (m : Model) (key : String) (q : QualifiedName)
    (definition : Schema) (id : TypeId) : Prop where
  name : parse? key = some q
  ordinary : wellKnown? q = none
  defined : Table.get? key c.definitions = some definition
  named : m.named? (GroupKey.of q) q.name = some id
  label : m.label? id = some (definitionEntry q definition)

/-- What a reference to `key` stands for. -/
inductive Meaning (c : ImportSettings) (m : Model) (key : String) : TypeExpr → Prop where
  | wellKnown {q : QualifiedName} {w : WellKnown} (hq : parse? key = some q)
      (hw : wellKnown? q = some w) : Meaning c m key (.wellKnown w)
  | defined {q : QualifiedName} {definition : Schema} {id : TypeId}
      (h : Defined c m key q definition id) : Meaning c m key (.type id)
  | undefined {q : QualifiedName} (hq : parse? key = some q) (hw : wellKnown? q = none)
      (hd : Table.get? key c.definitions = none) : Meaning c m key (.ref q)

/-- The object `body`, declared under a property of `parent`, is the type `id`. -/
structure ObjectAt (m : Model) (bodies : List Pending) (parent : TypeId) (property : String)
    (typeName : Option String) (body : Schema) (id : TypeId) : Prop where
  label : ∃ above, m.label? parent = some above ∧
    m.label? id = some (objectEntry above parent property typeName body.description)
  body : ⟨id, body⟩ ∈ bodies

end Importer

/-- The type of a shape that is complete in itself. -/
def Shape.plain? : Shape → Option TypeExpr
  | map none => some .bareMap
  | integer => some (.primitive .integer)
  | boolean => some (.primitive .boolean)
  | number float => some (.primitive (if float then .float else .integer))
  | string format => some format.expr
  | array none => some .bareList
  | preserveUnknown => some (.primitive .any)
  | intOrString => some (.wellKnown .intOrString)
  | _ => none

theorem Shape.plain?_leaves {shape : Shape} {e : TypeExpr} (h : shape.plain? = some e) (id : TypeId) :
    .type id ∉ e.leaves := by
  cases shape with
  | map value => cases value <;> cases h; simp [TypeExpr.leaves]
  | array items => cases items <;> cases h; simp [TypeExpr.leaves]
  | string format =>
    cases h
    cases format <;> simp [StringFormat.expr, TypeExpr.leaves, TypeExpr.allLeaves]
  | _ => cases h <;> simp [TypeExpr.leaves]

theorem Shape.core_of_plain? {shape : Shape} {e : TypeExpr} (h : shape.plain? = some e) :
    (∀ value, shape ≠ .map (some value)) ∧ (∀ item, shape ≠ .array (some item)) ∧
      ∀ s, shape.core s = .expr e := by
  cases shape with
  | map value => cases value <;> cases h; exact ⟨nofun, nofun, fun _ => rfl⟩
  | array items => cases items <;> cases h; exact ⟨nofun, nofun, fun _ => rfl⟩
  | _ => cases h <;> exact ⟨nofun, nofun, fun _ => rfl⟩

namespace Importer

/-- The types of a schema that is declared under a property of `parent`. -/
inductive Denotes (c : ImportSettings) (m : Model) (bodies : List Pending) (parent : TypeId)
    (property : String) (typeName : Option String) : Schema → TypeExpr → Prop where
  | plain {s : Schema} {shape : Shape} {e : TypeExpr} (hs : s.HasShape shape)
      (he : shape.plain? = some e) : Denotes c m bodies parent property typeName s e
  | reference {s : Schema} {path : String} {e : TypeExpr} (hs : s.HasShape (.reference path))
      (he : Meaning c m (QualifiedName.identifier path) e) :
      Denotes c m bodies parent property typeName s e
  | list {s item : Schema} {e : TypeExpr} (hs : s.HasShape (.array (some item)))
      (he : Denotes c m bodies parent property typeName item e) :
      Denotes c m bodies parent property typeName s (.list e)
  | map {s value : Schema} {e : TypeExpr} (hs : s.HasShape (.map (some value)))
      (he : Denotes c m bodies parent property typeName value e) :
      Denotes c m bodies parent property typeName s (.map e)
  | inferred {s : Schema} {properties : List (String × Schema)} {q : QualifiedName}
      (hs : s.HasShape (.object properties))
      (hq : c.inference.bind (Signature.infer · property s) = some q) :
      Denotes c m bodies parent property typeName s (.ref q)
  | object {s : Schema} {properties : List (String × Schema)} {id : TypeId}
      (hs : s.HasShape (.object properties))
      (hq : c.inference.bind (Signature.infer · property s) = none)
      (he : ObjectAt m bodies parent property typeName s id) :
      Denotes c m bodies parent property typeName s (.type id)

variable {c : ImportSettings} {m m' : Model} {bodies bodies' : List Pending} {parent : TypeId}
  {property : String} {typeName : Option String} {key : String} {q : QualifiedName}
  {definition s body : Schema} {id : TypeId} {e e' : TypeExpr}

theorem Defined.mono (h : Defined c m key q definition id) (hm : m.Extends m') :
    Defined c m' key q definition id :=
  ⟨h.name, h.ordinary, h.defined, hm.named h.named, hm.label h.label⟩

theorem Defined.kind (h : Defined c m key q definition id) : ∃ kind, m.kind? id = some kind ∧
      if definition.isRecord then kind = definitionKind q definition
      else ∃ target, kind = .synonym target := by
  obtain ⟨t, ht, hlabel⟩ := Model.label?_eq_some_iff.mp h.label
  refine ⟨t.kind, by rw [Model.kind?, ht]; rfl, ?_⟩
  have hkind : t.label.kind = definedKind q definition := by rw [hlabel]; rfl
  rw [definedKind] at hkind
  split
  · next hrecord =>
    rw [if_pos hrecord] at hkind
    rw [TypeEntry.label_kind_of_ne (by rw [hkind]; exact (definitionKind_named q definition).2), hkind]
  · next hrecord =>
    rw [if_neg hrecord] at hkind
    exact TypeEntry.label_synonym_iff.mp hkind

theorem Meaning.mono (h : Meaning c m key e) (hm : m.Extends m') : Meaning c m' key e := by
  cases h with
  | wellKnown hq hw => exact .wellKnown hq hw
  | defined h => exact .defined (h.mono hm)
  | undefined hq hw hd => exact .undefined hq hw hd

theorem Meaning.parses (h : Meaning c m key e) : (parse? key).isSome := by
  cases h with
  | wellKnown hq hw => rw [hq]; rfl
  | defined h => rw [h.name]; rfl
  | undefined hq hw hd => rw [hq]; rfl

/-- A key that has a definition stands for the type of that. -/
theorem Meaning.defined_at (h : Meaning c m key e) (hq : parse? key = some q)
    (hw : wellKnown? q = none) (hd : Table.get? key c.definitions = some definition) :
    ∃ id, e = .type id ∧ Defined c m key q definition id := by
  cases h with
  | wellKnown hq' hw' =>
    obtain rfl := Option.some.inj (hq'.symm.trans hq)
    cases hw'.symm.trans hw
  | defined h =>
    obtain rfl := Option.some.inj (h.name.symm.trans hq)
    obtain rfl := Option.some.inj (h.defined.symm.trans hd)
    exact ⟨_, rfl, h⟩
  | undefined _ _ hnone => cases hnone.symm.trans hd

theorem ObjectAt.mono (h : ObjectAt m bodies parent property typeName body id)
    (hm : m.Extends m') (hb : bodies ⊆ bodies') :
    ObjectAt m' bodies' parent property typeName body id := by
  obtain ⟨above, habove, hid⟩ := h.label
  exact ⟨⟨above, hm.label habove, hm.label hid⟩, hb h.body⟩

theorem ObjectAt.kind (h : ObjectAt m bodies parent property typeName body id) {l : TypeEntry}
    (hl : m.label? id = some l) : l.kind = .anonymous parent property := by
  obtain ⟨above, -, hid⟩ := h.label
  rw [Option.some.inj (hl.symm.trans hid)]
  rfl

theorem Denotes.mono (h : Denotes c m bodies parent property typeName s e) (hm : m.Extends m')
    (hb : bodies ⊆ bodies') : Denotes c m' bodies' parent property typeName s e := by
  induction h with
  | plain hs he => exact .plain hs he
  | reference hs he => exact .reference hs (he.mono hm)
  | list hs _ ih => exact .list hs ih
  | map hs _ ih => exact .map hs ih
  | inferred hs hq => exact .inferred hs hq
  | object hs hq he => exact .object hs hq (he.mono hm hb)

theorem Meaning.mem_leaves (h : Meaning c m key e) (hid : .type id ∈ e.leaves) :
    ∃ q definition, Defined c m key q definition id := by
  cases h with
  | wellKnown _ _ => simp [TypeExpr.leaves] at hid
  | undefined _ _ _ => simp [TypeExpr.leaves] at hid
  | defined h =>
    obtain rfl : id = _ := by simpa [TypeExpr.leaves] using hid
    exact ⟨_, _, h⟩

theorem Denotes.mem_leaves (h : Denotes c m bodies parent property typeName s e)
    (hid : .type id ∈ e.leaves) : (∃ key q definition, Defined c m key q definition id) ∨
      ∃ body, ObjectAt m bodies parent property typeName body id := by
  induction h with
  | plain hs he => exact absurd hid (Shape.plain?_leaves he id)
  | reference hs he =>
    obtain ⟨q, definition, h⟩ := he.mem_leaves hid
    exact .inl ⟨_, q, definition, h⟩
  | list hs _ ih => exact ih hid
  | map hs _ ih => exact ih hid
  | inferred hs hq => simp [TypeExpr.leaves] at hid
  | object hs hq he =>
    obtain rfl : id = _ := by simpa [TypeExpr.leaves] using hid
    exact .inr ⟨_, he⟩

/-- No schema mentions two types. -/
theorem Denotes.mem_leaves_unique {id' : TypeId} (h : Denotes c m bodies parent property typeName s e)
    (hid : .type id ∈ e.leaves) (hid' : .type id' ∈ e.leaves) : id = id' := by
  induction h with
  | plain hs he => exact absurd hid (Shape.plain?_leaves he id)
  | reference hs he =>
    obtain ⟨q, definition, h⟩ := he.mem_leaves hid
    obtain ⟨q', definition', h'⟩ := he.mem_leaves hid'
    obtain rfl := Option.some.inj (h.name.symm.trans h'.name)
    exact Option.some.inj (h.named.symm.trans h'.named)
  | list hs _ ih => exact ih hid hid'
  | map hs _ ih => exact ih hid hid'
  | inferred hs hq => simp [TypeExpr.leaves] at hid
  | object hs hq he =>
    simp only [TypeExpr.leaves, List.mem_singleton, TypeExpr.type.injEq] at hid hid'
    rw [hid, hid']

/-- What the core of a schema stands for. -/
def CoreDenotes (c : ImportSettings) (m : Model) (bodies : List Pending) (parent : TypeId)
    (property : String) (typeName : Option String) : Core → TypeExpr → Prop
  | .expr e', e => e' = e
  | .reference path, e => Meaning c m (QualifiedName.identifier path) e
  | .object body, e =>
    (∃ q, c.inference.bind (Signature.infer · property body) = some q ∧ e = .ref q) ∨
    (c.inference.bind (Signature.infer · property body) = none ∧
      ∃ id, e = .type id ∧ ObjectAt m bodies parent property typeName body id)

/-- What a schema of this shape stands for. -/
def ShapeDenotes (c : ImportSettings) (m : Model) (bodies : List Pending) (parent : TypeId)
    (property : String) (typeName : Option String) (s : Schema) : Shape → TypeExpr → Prop
  | .array (some item), e => ∃ e', e = .list e' ∧ Denotes c m bodies parent property typeName item e'
  | .map (some value), e => ∃ e', e = .map e' ∧ Denotes c m bodies parent property typeName value e'
  | shape, e => CoreDenotes c m bodies parent property typeName (shape.core s) e

theorem Denotes.shaped {shape : Shape} (h : Denotes c m bodies parent property typeName s e)
    (hs : s.HasShape shape) : ShapeDenotes c m bodies parent property typeName s shape e := by
  cases h with
  | plain hs' he =>
    obtain rfl := hs.unique hs'
    cases shape with
    | map value => cases value <;> cases he; rfl
    | array items => cases items <;> cases he; rfl
    | _ => cases he <;> rfl
  | reference hs' he =>
    obtain rfl := hs.unique hs'
    exact he
  | list hs' he =>
    obtain rfl := hs.unique hs'
    exact ⟨_, rfl, he⟩
  | map hs' he =>
    obtain rfl := hs.unique hs'
    exact ⟨_, rfl, he⟩
  | inferred hs' hq =>
    obtain rfl := hs.unique hs'
    exact .inl ⟨_, hq, rfl⟩
  | object hs' hq he =>
    obtain rfl := hs.unique hs'
    exact .inr ⟨hq, _, rfl, he⟩

theorem Denotes.of_plain {shape : Shape} (h : Denotes c m bodies parent property typeName s e)
    (hs : s.HasShape shape) (he : shape.plain? = some e') : e' = e := by
  have hshaped := h.shaped hs
  cases shape with
  | map value => cases value <;> cases he; exact hshaped
  | array items => cases items <;> cases he; exact hshaped
  | _ => cases he <;> exact hshaped

theorem denotes_of_leaf {shape : Shape} (hs : s.HasShape shape)
    (hmap : ∀ value, shape ≠ .map (some value)) (harray : ∀ item, shape ≠ .array (some item))
    (h : CoreDenotes c m bodies parent property typeName (shape.core s) e) :
    Denotes c m bodies parent property typeName s e := by
  cases shape with
  | object properties =>
    rcases h with ⟨q, hq, rfl⟩ | ⟨hq, id, rfl, hid⟩
    · exact .inferred hs hq
    · exact .object hs hq hid
  | reference path => exact .reference hs h
  | map value =>
    cases value with
    | none => exact .plain hs (congrArg some h)
    | some value => exact absurd rfl (hmap value)
  | array items =>
    cases items with
    | none => exact .plain hs (congrArg some h)
    | some item => exact absurd rfl (harray item)
  | _ => exact .plain hs (congrArg some h)

theorem denotes_of_layered {context : String} {layers : List Layer} {core : Core}
    (hs : s.layered context none = .ok ⟨layers, core⟩)
    (h : CoreDenotes c m bodies parent property typeName core e) :
    Denotes c m bodies parent property typeName s (wrap layers e) := by
  induction s using Schema.descent_induction Schema.HasShape.sizeOf_lt generalizing layers with
  | h s ih =>
    rw [Schema.layered_eq] at hs
    split at hs
    · cases hs
    · next value hvalue =>
      have hshape := Schema.hasShape_of_shape hvalue
      cases hl : value.layered context none with
      | error err => simp [hl, Except.map] at hs
      | ok l =>
        simp only [hl, Except.map, Except.ok.injEq, Layered.mk.injEq] at hs
        obtain ⟨rfl, rfl⟩ := hs
        exact .map hshape (ih value (.inr hshape) hl)
    · next item hitem =>
      have hshape := Schema.hasShape_of_shape hitem
      cases hl : item.layered context none with
      | error err => simp [hl, Except.map] at hs
      | ok l =>
        simp only [hl, Except.map, Except.ok.injEq, Layered.mk.injEq] at hs
        obtain ⟨rfl, rfl⟩ := hs
        exact .list hshape (ih item (.inl hshape) hl)
    · next leaf hmap harray hleaf =>
      obtain ⟨rfl, rfl⟩ := Layered.mk.inj (Except.ok.inj hs)
      exact denotes_of_leaf (Schema.hasShape_of_shape hleaf) hmap harray h

theorem layered_leaf {shape : Shape} (hs : s.HasShape shape)
    (hmap : ∀ value, shape ≠ .map (some value)) (harray : ∀ item, shape ≠ .array (some item))
    (context : String) : s.layered context none = .ok ⟨[], shape.core s⟩ := by
  rw [Schema.layered_eq, hs context]
  split
  · next he => cases he
  · next value he => exact absurd (Except.ok.inj he) (hmap value)
  · next item he => exact absurd (Except.ok.inj he) (harray item)
  · next he => rw [← Except.ok.inj he]; rfl

end Importer

end SchemaCompiler
