import SchemaCompiler.Proofs.Import.Alike
import SchemaCompiler.Proofs.Import.Layering

/-! When a wrapper may stand for what it wraps. Everything but an object is found through the wrapper.
An object is registered with the wrapper as its body, so that only the fields of the wrapper come of
it. -/

namespace SchemaCompiler

/-- What other types see of a type: its names, its kind, and its properties without their
descriptions. -/
def TypeEntry.outline (t : TypeEntry) : TypeEntry :=
  { t with
    description := none
    properties := t.properties.map fun p => { p with description := none, given := none } }

/-- The same types with the same properties. -/
def Model.SameTypes (m m' : Model) : Prop :=
  ∀ id : TypeId, (m.types[id]?).map TypeEntry.outline = (m'.types[id]?).map TypeEntry.outline

theorem Model.Alike.sameTypes {m m' : Model} (h : m.Alike m') : m.SameTypes m' :=
  fun id => (h.map_getElem? (fun _ => rfl) id).symm

namespace Importer

open Schema

/-- A place where a schema stands. -/
structure Site where
  parent : TypeId
  property : String
  typeName : Option String := none
  /-- Whether `parent` becomes a synonym of what is found. -/
  synonym : Bool := false
  /-- How far references are followed. -/
  depth : Nat

namespace Site

variable {site : Site} {c : ImportSettings} {i : Importer} {w s : Schema} {frames : List Frame}

/-- What happens to the type that was found. -/
def settle (site : Site) (e : TypeExpr) (i : Importer) : Importer :=
  if site.synonym then { i with model := i.model.setKind site.parent (.synonym e) } else i

def imported (site : Site) (c : ImportSettings) (i : Importer) (schema : Schema) :
    Except Error TypeExpr × Importer :=
  importWith c (followRef c site.depth) i site.parent site.property site.typeName schema

/-- The type found for a schema, and the model when the queue is empty. -/
def outcome (site : Site) (c : ImportSettings) (i : Importer) (schema : Schema) :
    Except Error (TypeExpr × Model) :=
  match site.imported c i schema with
  | (.error e, _) => .error e
  | (.ok e, i) =>
    match (site.settle e i).drain c with
    | (.ok (), i) => .ok (e, i.model)
    | (.error e, _) => .error e

/-- Both schemas are imported to the same type, and the same types come of them. -/
def Transparent (site : Site) (c : ImportSettings) (i : Importer) (w s : Schema) : Prop :=
  ∃ e m m', site.outcome c i w = .ok (e, m) ∧ site.outcome c i s = .ok (e, m') ∧ m.SameTypes m'

/-- The well-known type that an object looks like here. -/
def inferred (site : Site) (c : ImportSettings) (s : Schema) : Option QualifiedName :=
  c.inference.bind (Signature.infer · site.property s)

/-- The fields that come of an object if it is registered here. -/
def fields (site : Site) (c : ImportSettings) (i : Importer) (s : Schema) :
    List (String × Schema × Bool) :=
  (bodyContext c (i.model.registerAnonymous site.parent site.property site.typeName none).2
    ⟨i.model.types.size, {}⟩).fields s

/-! Schemas that are taken apart alike. -/

theorem imported_congr (h : ∀ context, w.layered context none = s.layered context none) :
    site.imported c i w = site.imported c i s := by
  rw [imported, imported, importWith, importWith, h]

theorem outcome_congr (h : site.imported c i w = site.imported c i s) :
    site.outcome c i w = site.outcome c i s := by
  rw [outcome, outcome, h]

theorem transparent_of_eq {e : TypeExpr} {m : Model} (h : site.outcome c i w = site.outcome c i s)
    (hs : site.outcome c i s = .ok (e, m)) : site.Transparent c i w s :=
  ⟨e, m, m, h.trans hs, hs, fun _ => rfl⟩

theorem layered_within_wraps (hw : w.Wraps s) (hs : ¬s.IsObject)
    (hframes : frames = [] ∨ s.isUnconstrained = false) (context : String) :
    (within frames w).layered context none = (within frames s).layered context none := by
  rw [layered_within (.inr hw.not_unconstrained), layered_within hframes, layered_wraps hw,
    layered_of_not_object hs]

/-- A list or map of a wrapper fails where a list or map of everything does not. -/
theorem layered_within_unconstrained (hw : w.Wraps s) (hs : s.isUnconstrained = true)
    (context : String) :
    (within frames w).layered context none = .error (.unsupportedShape context .unmarked) := by
  rw [layered_within (.inr hw.not_unconstrained), layered_wraps hw, layered_unconstrained hs]
  rfl

theorem transparent_iff_of_not_object (hw : w.Wraps s) (hobject : ¬s.IsObject) {e : TypeExpr}
    {m : Model} (hs : site.outcome c i (within frames s) = .ok (e, m)) :
    site.Transparent c i (within frames w) (within frames s) ↔
      frames = [] ∨ s.isUnconstrained = false := by
  constructor
  · rintro ⟨e, m, m', hwithin, -, -⟩
    by_contra hn
    rw [not_or, Bool.not_eq_false] at hn
    rw [outcome, imported, importWith, layered_within_unconstrained hw hn.2] at hwithin
    cases hwithin
  · intro hframes
    exact transparent_of_eq (outcome_congr (imported_congr (layered_within_wraps hw hobject hframes)))
      hs

/-! Objects. -/

theorem wrap_inj {layers : List Layer} {e e' : TypeExpr} (h : wrap layers e = wrap layers e') :
    e = e' := by
  induction layers with
  | nil => exact h
  | cons layer layers ih =>
    cases layer with
    | list => exact ih (TypeExpr.list.inj h)
    | map => exact ih (TypeExpr.map.inj h)

theorem IsObject.not_unconstrained (h : s.IsObject) : s.isUnconstrained = false := by
  cases hs : s.isUnconstrained with
  | false => rfl
  | true =>
    have hlayered := layered_object h "" none
    rw [layered_unconstrained hs] at hlayered
    cases hlayered

theorem imported_object (h : s.IsObject) : site.imported c i (within frames s) =
    (.ok (wrap (frames.map Frame.layer)
        (i.importObject c site.parent site.property site.typeName s).1),
      (i.importObject c site.parent site.property site.typeName s).2) := by
  rw [imported, importWith, layered_within (.inr (IsObject.not_unconstrained h)), layered_object h]
  simp [Except.map]

def registered (site : Site) (i : Importer) (body : Schema) : Importer :=
  i.registerObject site.parent site.property site.typeName body

theorem imported_inferred (h : s.IsObject) {q : QualifiedName} (hq : site.inferred c s = some q) :
    site.imported c i (within frames s) = (.ok (wrap (frames.map Frame.layer) (.ref q)), i) := by
  rw [inferred] at hq
  rw [imported_object h, importObject, hq]

theorem imported_registered (h : s.IsObject) (hnone : site.inferred c s = none) :
    site.imported c i (within frames s) =
      (.ok (wrap (frames.map Frame.layer) (.type i.model.types.size)), site.registered i s) := by
  rw [inferred] at hnone
  rw [imported_object h, importObject_new hnone]
  rfl

theorem outcome_ok {e : TypeExpr} {m : Model} (h : site.outcome c i s = .ok (e, m)) :
    ∃ j k, site.imported c i s = (.ok e, j) ∧ (site.settle e j).drain c = (.ok (), k) ∧
      m = k.model := by
  rw [outcome] at h
  split at h
  · cases h
  · next e' j he =>
    split at h
    · next k hk =>
      cases h
      exact ⟨j, k, he, hk, rfl⟩
    · cases h

/-! The object that was just registered is not touched by what happens to its type. -/

theorem settle_ready (site : Site) (h : i.Ready) (e : TypeExpr) : (site.settle e i).Ready := by
  rw [settle]
  split
  · exact h.withModel (h.wellFormed.setKind _ _) (Nat.le_of_eq Model.size_amend.symm)
  · exact h

theorem settle_pending (e : TypeExpr) : (site.settle e i).pending = i.pending := by
  rw [settle]
  split <;> rfl

theorem settle_filed {key : GroupKey} {id : TypeId} (h : i.model.Filed key id) (e : TypeExpr) :
    (site.settle e i).model.Filed key id := by
  rw [settle]
  split <;> exact h

theorem settle_getElem? {id : TypeId} (h : id ≠ site.parent) (e : TypeExpr) :
    (site.settle e i).model.types[id]? = i.model.types[id]? := by
  rw [settle]
  split
  · change (i.model.amend site.parent fun t => { t with kind := .synonym e }).types[id]? = _
    rw [Model.getElem?_amend, if_neg h]
  · rfl

theorem settle_alike {x : TypeId} {i i' : Importer} (h : Alike x w s i i') (e : TypeExpr) :
    Alike x w s (site.settle e i) (site.settle e i') := by
  rw [settle, settle]
  split
  · exact h.withModel (h.model.setKind _ _)
  · exact h

theorem registered_ready (hi : i.Ready) (hparent : site.parent < i.model.types.size)
    (body : Schema) : (site.registered i body).Ready :=
  (hi.registerObject hparent site.property site.typeName body).ready

theorem registered_filed (hparent : site.parent < i.model.types.size) (body : Schema) :
    ∃ key, (site.registered i body).model.Filed key i.model.types.size :=
  ⟨_, Model.filed_registerAnonymous_new (Array.getElem?_eq_getElem hparent) _ _ _⟩

theorem registered_alike (site : Site) (i : Importer) (w s : Schema) :
    Alike i.model.types.size w s (site.registered i w) (site.registered i s) :=
  (Alike.refl _ w s i).registerObject site.parent site.property site.typeName .other

theorem registered_fields (hparent : site.parent < i.model.types.size) (e : TypeExpr)
    (body s : Schema) :
    (bodyContext c (site.settle e (site.registered i body)).model ⟨i.model.types.size, {}⟩).fields s =
      site.fields c i s := by
  have hne : i.model.types.size ≠ site.parent := Nat.ne_of_gt hparent
  have hmodel : Model.Alike _ _ := Model.Alike.registerAnonymous (.refl _ i.model) site.parent
    site.property site.typeName none body.description
  rw [bodyContext_congr (settle_getElem? hne e), fields, ← bodyContext_alike hmodel]
  rfl

/-- The object that is registered ends with the fields of its body. -/
theorem outcome_registered (hi : i.Ready) (hparent : site.parent < i.model.types.size)
    (h : s.IsObject) (hnone : site.inferred c s = none) {e : TypeExpr} {m : Model}
    (hs : site.outcome c i (within frames s) = .ok (e, m)) :
    e = wrap (frames.map Frame.layer) (.type i.model.types.size) ∧
      ∃ (t : TypeEntry) (ps : List Property),
        m.types[i.model.types.size]? = some { t with properties := Property.sort ps } ∧
        ps.map (fun f => (f.name, f.required)) =
          (site.fields c i s).map fun f => (f.1, f.2.2) := by
  obtain ⟨j, k, hj, hk, rfl⟩ := outcome_ok hs
  rw [imported_registered h hnone] at hj
  obtain ⟨he, rfl⟩ := Prod.mk.inj hj
  obtain rfl := Except.ok.inj he
  refine ⟨rfl, ?_⟩
  generalize wrap (frames.map Frame.layer) (.type i.model.types.size) = e at hk
  have hready := site.settle_ready (registered_ready hi hparent s) e
  obtain ⟨key, hfiled⟩ := registered_filed hparent s
  have hmem : (⟨i.model.types.size, s⟩ : Pending) ∈ (site.settle e (site.registered i s)).pending := by
    rw [settle_pending]
    exact List.mem_append_right _ List.mem_cons_self
  obtain ⟨t, ps, hentry, hkeys⟩ := (drains_of_run hk).reads hready (settle_filed hfiled e) hmem
  refine ⟨t, ps, hentry, hkeys.trans ?_⟩
  rw [← registered_fields hparent e s]
  rfl

theorem transparent_of_fields (hi : i.Ready) (hparent : site.parent < i.model.types.size)
    (hw : w.IsObject) (hs : s.IsObject) (hwnone : site.inferred c w = none)
    (hsnone : site.inferred c s = none) (hfields : site.fields c i w = site.fields c i s)
    {e : TypeExpr} {m : Model} (h : site.outcome c i (within frames s) = .ok (e, m)) :
    site.Transparent c i (within frames w) (within frames s) := by
  obtain ⟨j, k, hj, hk, rfl⟩ := outcome_ok h
  rw [imported_registered hs hsnone] at hj
  obtain ⟨he, rfl⟩ := Prod.mk.inj hj
  obtain rfl := Except.ok.inj he
  generalize hwrap : wrap (frames.map Frame.layer) (.type i.model.types.size) = e at *
  obtain ⟨key, hfiled⟩ := registered_filed hparent w
  have hsame : (bodyContext c (site.settle e (site.registered i w)).model
      ⟨i.model.types.size, {}⟩).fields w = (bodyContext c
        (site.settle e (site.registered i w)).model ⟨i.model.types.size, {}⟩).fields s := by
    rw [registered_fields hparent, registered_fields hparent, hfields]
  have hready := site.settle_ready (registered_ready hi hparent w) e
  have hrun := (settle_alike (registered_alike site i w s) e).run hready
    (settle_filed hfiled e) (fun _ => hsame) stepLimit
  obtain ⟨r, l, l', hl, hl', halike⟩ := hrun.out
  obtain ⟨rfl, rfl⟩ := Prod.mk.inj (hl'.symm.trans hk)
  refine ⟨e, l.model, l'.model, ?_, h, halike.model.sameTypes⟩
  rw [outcome, imported_registered hw hwnone, hwrap]
  simp only [drain, hl]

theorem outcome_inferred (h : s.IsObject) {q : QualifiedName} (hq : site.inferred c s = some q)
    {e : TypeExpr} {m : Model} (hs : site.outcome c i (within frames s) = .ok (e, m)) :
    e = wrap (frames.map Frame.layer) (.ref q) := by
  obtain ⟨j, k, hj, -, -⟩ := outcome_ok hs
  rw [imported_inferred h hq] at hj
  exact (Except.ok.inj (Prod.mk.inj hj).1).symm

/-- Objects that are imported alike are taken for the same well-known type, or else their fields have
the same names and are required alike. -/
theorem Transparent.fields_perm (hi : i.Ready) (hparent : site.parent < i.model.types.size)
    (hw : w.IsObject) (hs : s.IsObject)
    (h : site.Transparent c i (within frames w) (within frames s)) :
    site.inferred c w = site.inferred c s ∧ (site.inferred c s = none →
      ((site.fields c i w).map fun f => (f.1, f.2.2)).Perm
        ((site.fields c i s).map fun f => (f.1, f.2.2))) := by
  obtain ⟨e, m, m', hm, hm', hsame⟩ := h
  cases hwi : site.inferred c w with
  | some q =>
    have hq := outcome_inferred hw hwi hm
    cases hsi : site.inferred c s with
    | some q' =>
      have hq' := outcome_inferred hs hsi hm'
      obtain rfl := TypeExpr.ref.inj (wrap_inj (hq.symm.trans hq'))
      exact ⟨rfl, nofun⟩
    | none =>
      have hid := (outcome_registered hi hparent hs hsi hm').1
      cases wrap_inj (hq.symm.trans hid)
  | none =>
    obtain ⟨hid, t, ps, ht, hps⟩ := outcome_registered hi hparent hw hwi hm
    cases hsi : site.inferred c s with
    | some q =>
      have hq := outcome_inferred hs hsi hm'
      cases wrap_inj (hid.symm.trans hq)
    | none =>
      refine ⟨rfl, fun _ => ?_⟩
      obtain ⟨-, t', ps', ht', hps'⟩ := outcome_registered hi hparent hs hsi hm'
      -- both objects have the same sorted properties, and sorting only reorders
      have houtline := hsame i.model.types.size
      rw [ht, ht', Option.map_some, Option.map_some] at houtline
      have hproperties := congrArg (fun t => t.properties.map fun f => (f.name, f.required))
        (Option.some.inj houtline)
      simp only [TypeEntry.outline, List.map_map] at hproperties
      rw [← hps, ← hps']
      have hsorted : (Property.sort ps).map (fun f => (f.name, f.required)) =
          (Property.sort ps').map fun f => (f.name, f.required) := hproperties
      have hsort := (List.mergeSort_perm ps fun a b => Property.order a b != .gt).map
        fun f => (f.name, f.required)
      have hsort' := (List.mergeSort_perm ps' fun a b => Property.order a b != .gt).map
        fun f => (f.name, f.required)
      exact hsort.symm.trans ((List.Perm.of_eq hsorted).trans hsort')

theorem inferred_bare (h : s.properties = []) : site.inferred c s = none := by
  rw [inferred]
  cases c.inference with
  | none => rfl
  | some config => simp [Signature.infer, Signature.inferFrom, h]

theorem fields_bare (h : s.properties = []) : site.fields c i s = [] := by
  simp [fields, BodyContext.fields, h]

/-- A wrapper may stand for anything but an object, and within lists and maps for anything that says
something. For an object it may stand if both are taken for the same well-known type, or for none and
the same fields come of both; if it has no properties of its own, no field of the object may be
kept. -/
theorem transparent_wrapper (hi : Reachable c i) (hparent : site.parent < i.model.types.size)
    (hw : w.Wraps s) {e : TypeExpr} {m : Model}
    (hs : site.outcome c i (within frames s) = .ok (e, m)) :
    (¬s.IsObject → (site.Transparent c i (within frames w) (within frames s) ↔
      frames = [] ∨ s.isUnconstrained = false)) ∧
    (s.IsObject → w.properties = [] →
      (site.Transparent c i (within frames w) (within frames s) ↔
        site.inferred c s = none ∧ site.fields c i s = [])) ∧
    (s.IsObject → site.inferred c w = site.inferred c s →
      (site.inferred c s = none → site.fields c i w = site.fields c i s) →
      site.Transparent c i (within frames w) (within frames s)) ∧
    (s.IsObject → site.Transparent c i (within frames w) (within frames s) →
      site.inferred c w = site.inferred c s ∧ (site.inferred c s = none →
        ((site.fields c i w).map fun f => (f.1, f.2.2)).Perm
          ((site.fields c i s).map fun f => (f.1, f.2.2)))) := by
  have hobject : s.IsObject → w.IsObject := by
    rintro ⟨context, properties, hshape⟩
    exact ⟨context, properties, (shape_wraps hw context).trans hshape⟩
  have hsufficient : s.IsObject → site.inferred c w = site.inferred c s →
      (site.inferred c s = none → site.fields c i w = site.fields c i s) →
      site.Transparent c i (within frames w) (within frames s) := by
    intro ho hinferred hfields
    cases hsi : site.inferred c s with
    | some q =>
      refine transparent_of_eq (outcome_congr ?_) hs
      rw [imported_inferred (hobject ho) (hinferred.trans hsi), imported_inferred ho hsi]
    | none =>
      exact transparent_of_fields hi.ready hparent (hobject ho) ho (hinferred.trans hsi) hsi
        (hfields hsi) hs
  refine ⟨fun ho => transparent_iff_of_not_object hw ho hs, fun ho hbare => ⟨fun h => ?_, ?_⟩,
    hsufficient, fun ho h => h.fields_perm hi.ready hparent (hobject ho) ho⟩
  · obtain ⟨hinferred, hfields⟩ := h.fields_perm hi.ready hparent (hobject ho) ho
    rw [inferred_bare hbare] at hinferred
    have hperm := hfields hinferred.symm
    rw [fields_bare hbare, List.map_nil] at hperm
    exact ⟨hinferred.symm, List.map_eq_nil_iff.mp hperm.symm.eq_nil⟩
  · rintro ⟨hinferred, hfields⟩
    refine hsufficient ho ?_ fun _ => ?_
    · rw [inferred_bare hbare, hinferred]
    · rw [fields_bare hbare, hfields]

theorem transparent_wrapper_words :
    let words : Schema := { type := some "array", items := some { type := some "string" } }
    let wrapper : Schema := { allOf := [words] }
    let i := { (({} : Importer).registerRoot ⟨"apps", some "v1"⟩ "Widget" .resource {}).2 with
      pending := [] }
    let site : Site := { parent := 0, property := "words", depth := 1 }
    Reachable {} i ∧ site.parent < i.model.types.size ∧ wrapper.Wraps words ∧
      site.outcome {} i (within [.map {}] words) =
        .ok (.map (.list (.primitive .string)), i.model) ∧
      site.Transparent {} i (within [.map {}] wrapper) (within [.map {}] words) := by
  intro words wrapper i site
  have hi : Reachable {} i := .pop (.registerRoot .start _ _ _ _) rfl
  have hparent : site.parent < i.model.types.size := by decide
  have hw : wrapper.Wraps words := ⟨rfl, rfl, rfl⟩
  have ho : ¬words.IsObject := by
    rintro ⟨context, properties, h⟩
    simp [words, shape, typedShape, itemSchema, isUnconstrained] at h
  have hs : site.outcome {} i (within [.map {}] words) =
      .ok (.map (.list (.primitive .string)), i.model) := by
    have hlayered : ∀ context, (within [.map {}] words).layered context none =
        .ok ⟨[.map, .list], .expr (.primitive .string)⟩ := by
      intro context
      simp [within, words, Frame.fill, layered, shape, typedShape, valueSchema, itemSchema,
        isUnconstrained, stringFormat, plainFormats, Shape.core, StringFormat.expr, Except.map]
    have himported : site.imported {} i (within [.map {}] words) =
        (.ok (.map (.list (.primitive .string))), i) := by
      rw [imported, importWith, hlayered]
      rfl
    rw [outcome, himported]
    simp only [settle, site, Bool.false_eq_true, if_false]
    rw [drain, run_nil rfl]
  exact ⟨hi, hparent, hw, hs, ((transparent_wrapper hi hparent hw hs).1 ho).mpr (.inr rfl)⟩

/-- The wrapped object is found through the wrapper and registered, but nothing comes of its body: the
property `size` is lost. -/
theorem not_transparent_settings :
    let settings : Schema :=
      { type := some "object", properties := [("size", { type := some "string" })]
        required := ["size"] }
    let wrapper : Schema := { allOf := [settings] }
    let widget : Schema := { type := some "object", properties := [("settings", wrapper)] }
    let i := { (({} : Importer).registerRoot ⟨"apps", some "v1"⟩ "Widget" .resource widget).2 with
      pending := [] }
    let site : Site := { parent := 0, property := "settings", depth := 1 }
    Reachable {} i ∧ wrapper.Wraps settings ∧
      (∃ m, site.outcome {} i settings = .ok (.type 1, m)) ∧
      ¬site.Transparent {} i wrapper settings := by
  intro settings wrapper widget i site
  have hi : Reachable {} i := .pop (.registerRoot .start _ _ _ _) rfl
  have hparent : site.parent < i.model.types.size := by decide
  have hsize : i.model.types.size = 1 := rfl
  have hpending : i.pending = [] := rfl
  have ho : settings.IsObject := ⟨"", settings.properties, by simp [settings, shape, typedShape]⟩
  have hwo : wrapper.IsObject :=
    ⟨"", settings.properties, by simp [wrapper, settings, shape, typedShape]⟩
  have hlost : ¬((site.fields {} i wrapper).map fun f => (f.1, f.2.2)).Perm
      ((site.fields {} i settings).map fun f => (f.1, f.2.2)) := by decide
  clear_value i
  have hnot : ¬site.Transparent {} i (within [] wrapper) (within [] settings) := fun h =>
    hlost ((h.fields_perm hi.ready hparent hwo ho).2 rfl)
  refine ⟨hi, ⟨rfl, rfl, rfl⟩, ?_, hnot⟩
  have himported : site.imported {} i (within [] settings) =
      (.ok (.type 1), site.registered i settings) := by
    rw [← hsize]
    exact imported_registered ho rfl
  change site.imported {} i settings = _ at himported
  have htext : ∀ context, Schema.layered context none { type := some "string" } =
      .ok ⟨[], .expr (.primitive .string)⟩ := by
    intro context
    simp [layered, shape, typedShape, stringFormat, plainFormats, Shape.core, StringFormat.expr,
      Except.map]
  have hoverrides : ∀ keys, Annotations.forType [] keys = none := fun keys =>
    List.findSome?_eq_none_iff.mpr fun _ _ => rfl
  have hbody : importBody {} { site.registered i settings with pending := [] } ⟨1, settings⟩ =
      (.ok (), { site.registered i settings with
        pending := []
        model := (site.registered i settings).model.setProperties 1
          [⟨"size", .primitive .string, true, none, none⟩] }) := by
    simp [importBody, bodyContext, settings, importFields, importField, hoverrides, htext, Table.get?,
      impliedProperties, importProperty, importWith, wrap, Except.map, patchedField]
  have hqueue : (site.registered i settings).pending = [⟨1, settings⟩] := by
    simp [registered, registerObject, enqueue, hpending, hsize]
  simp only [outcome, himported, settle, site, Bool.false_eq_true, if_false]
  rw [drain_single hqueue hbody rfl]
  exact ⟨_, rfl⟩

end Site

end Importer

end SchemaCompiler
