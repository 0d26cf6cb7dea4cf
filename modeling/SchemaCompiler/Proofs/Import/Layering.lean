import Mathlib.Tactic.SplitIfs
import SchemaCompiler.Import.Layer

/-! Schemas that wrap a single other schema, and schemas inside lists and maps. A wrapper is passed by
when a schema is taken apart, except that an object keeps the outermost wrapper as its body. -/

namespace SchemaCompiler

namespace Schema

/-- `w` says nothing about its type but that it is what `s` is. -/
structure Wraps (w s : Schema) : Prop where
  type : w.type = none
  reference : w.reference = none
  allOf : w.allOf = [s]

/-- An object with properties, perhaps within wrappers. -/
def IsObject (s : Schema) : Prop :=
  ∃ context properties, s.shape context = .ok (.object properties)

theorem layered_wraps {w s : Schema} (h : w.Wraps s) (context : String) (outer : Option Schema) :
    w.layered context outer = s.layered context (some (outer.getD w)) := by
  obtain ⟨type, format, description, properties, required, items, additional, reference, allOf,
    kinds, preserve, either, namespaced⟩ := w
  obtain ⟨rfl, rfl, rfl⟩ := h
  rw [layered]

theorem shape_wraps {w s : Schema} (h : w.Wraps s) (context : String) :
    w.shape context = s.shape context := by
  obtain ⟨type, format, description, properties, required, items, additional, reference, allOf,
    kinds, preserve, either, namespaced⟩ := w
  obtain ⟨rfl, rfl, rfl⟩ := h
  rw [shape]

theorem layered_of_not_wraps {s : Schema} (h : ∀ t, ¬s.Wraps t) (context : String)
    (outer : Option Schema) : s.layered context outer =
      match s.shape context with
      | .error e => .error e
      | .ok (.map (some _)) =>
        match s.additional with
        | some (.schema value) =>
          (value.layered context none).map fun l => { l with layers := .map :: l.layers }
        | _ => .ok ⟨[], .expr .bareMap⟩
      | .ok (.array (some _)) =>
        match s.items with
        | some item =>
          (item.layered context none).map fun l => { l with layers := .list :: l.layers }
        | none => .ok ⟨[], .expr .bareList⟩
      | .ok leaf => .ok ⟨[], leaf.core (outer.getD s)⟩ := by
  obtain ⟨type, format, description, properties, required, items, additional, reference, allOf,
    kinds, preserve, either, namespaced⟩ := s
  rw [layered.eq_def]
  -- the recursion passes through both fields, so the two sides agree once both are known
  rcases additional with _ | _ | value <;> rcases items with _ | item <;> cases type with
  | some t => rfl
  | none =>
    cases reference with
    | some r => rfl
    | none =>
      match allOf, h with
      | [], _ => rfl
      | [t], h => exact absurd ⟨rfl, rfl, rfl⟩ (h t)
      | _ :: _ :: _, _ => rfl

theorem Wraps.sizeOf_lt {w s : Schema} (h : w.Wraps s) : sizeOf s < sizeOf w := by
  obtain ⟨type, format, description, properties, required, items, additional, reference, allOf,
    kinds, preserve, either, namespaced⟩ := w
  obtain ⟨rfl, rfl, rfl⟩ := h
  simp only [mk.sizeOf_spec, List.cons.sizeOf_spec]
  omega

/-- Where `R` leads to smaller schemas only, a property that a schema has if those it leads to have it
is one of all schemas. -/
theorem descent_induction {R : Schema → Schema → Prop} (hR : ∀ {s t}, R s t → sizeOf t < sizeOf s)
    {P : Schema → Prop} (h : ∀ s, (∀ t, R s t → P t) → P s) (s : Schema) : P s := by
  induction s using (measure (sizeOf : Schema → Nat)).wf.induction with
  | h s ih => exact h s fun t ht => ih t (hR ht)

/-- A wrapper has what the schema in it has, at any depth. -/
theorem wraps_induction {P : Schema → Prop} (wrapper : ∀ s t, s.Wraps t → P t → P s)
    (core : ∀ s, (∀ t, ¬s.Wraps t) → P s) (s : Schema) : P s := by
  induction s using descent_induction Wraps.sizeOf_lt with
  | h s ih =>
    by_cases hw : ∃ t, s.Wraps t
    · obtain ⟨t, ht⟩ := hw
      exact wrapper s t ht (ih t ht)
    · exact core s (not_exists.mp hw)

/-! The context of a schema only serves messages. -/

theorem typedShape_ok {s : Schema} {context context' type : String} {shape : Shape}
    (h : s.typedShape context type = .ok shape) : s.typedShape context' type = .ok shape := by
  simp only [typedShape] at h ⊢
  split_ifs at h ⊢ <;> simp_all

theorem markedShape_ok {s : Schema} {context context' : String} {shape : Shape}
    (h : s.markedShape context = .ok shape) : s.markedShape context' = .ok shape := by
  simp only [markedShape] at h ⊢
  split_ifs at h ⊢ <;> simp_all

theorem shape_of_not_wraps {s : Schema} (h : ∀ t, ¬s.Wraps t) (context : String) :
    s.shape context =
      match s.type, s.reference with
      | some t, _ => s.typedShape context t
      | none, some path => .ok (.reference path)
      | none, none => s.markedShape context := by
  obtain ⟨type, format, description, properties, required, items, additional, reference, allOf,
    kinds, preserve, either, namespaced⟩ := s
  rw [shape.eq_def]
  cases type with
  | some t => rfl
  | none =>
    cases reference with
    | some r => rfl
    | none =>
      match allOf, h with
      | [], _ => rfl
      | [t], h => exact absurd ⟨rfl, rfl, rfl⟩ (h t)
      | _ :: _ :: _, _ => rfl

theorem shape_ok {s : Schema} {context : String} {shape : Shape} (h : s.shape context = .ok shape)
    (context' : String) : s.shape context' = .ok shape := by
  induction s using wraps_induction with
  | wrapper s t ht ih =>
    rw [shape_wraps ht] at h ⊢
    exact ih h
  | core s hs =>
    rw [shape_of_not_wraps hs] at h ⊢
    cases ht : s.type with
    | some type =>
      rw [ht] at h
      exact typedShape_ok h
    | none =>
      rw [ht] at h
      cases hr : s.reference with
      | some path => rwa [hr] at h
      | none =>
        rw [hr] at h
        exact markedShape_ok h

theorem isObject_iff {s : Schema} (context : String) :
    s.IsObject ↔ ∃ properties, s.shape context = .ok (.object properties) := by
  constructor
  · rintro ⟨c, properties, h⟩
    exact ⟨properties, shape_ok h context⟩
  · rintro ⟨properties, h⟩
    exact ⟨context, properties, h⟩

/-! What taking apart makes of objects and of everything else. -/

theorem layered_object {s : Schema} (h : s.IsObject) (context : String) (outer : Option Schema) :
    s.layered context outer = .ok ⟨[], .object (outer.getD s)⟩ := by
  obtain ⟨properties, hshape⟩ := (isObject_iff context).mp h
  clear h
  induction s using wraps_induction generalizing outer with
  | wrapper s t ht ih =>
    rw [shape_wraps ht] at hshape
    rw [layered_wraps ht, ih _ hshape]
    rfl
  | core s hs =>
    rw [layered_of_not_wraps hs, hshape]
    rfl

theorem layered_of_not_object {s : Schema} (h : ¬s.IsObject) (context : String)
    (outer : Option Schema) : s.layered context outer = s.layered context none := by
  have hshape := mt (isObject_iff context).mpr h
  clear h
  induction s using wraps_induction generalizing outer with
  | wrapper s t ht ih =>
    rw [shape_wraps ht] at hshape
    rw [layered_wraps ht, layered_wraps ht, ih _ hshape, ih (some _) hshape]
  | core s hw =>
    rw [layered_of_not_wraps hw, layered_of_not_wraps hw]
    cases hs : s.shape context with
    | error e => rfl
    | ok leaf =>
      cases leaf with
      | object properties => exact absurd ⟨properties, hs⟩ hshape
      | map value => cases value <;> rfl
      | array items => cases items <;> rfl
      | _ => rfl

theorem not_wraps_of_unconstrained {s : Schema} (h : s.isUnconstrained = true) (t : Schema) :
    ¬s.Wraps t := by
  intro ht
  simp [isUnconstrained, ht.allOf] at h

theorem shape_unconstrained {s : Schema} (h : s.isUnconstrained = true) (context : String) :
    s.shape context = .error (.unsupportedShape context .unmarked) := by
  rw [shape_of_not_wraps (not_wraps_of_unconstrained h)]
  simp only [isUnconstrained, Bool.and_eq_true, Option.isNone_iff_eq_none, List.isEmpty_iff] at h
  obtain ⟨⟨⟨⟨⟨htype, href⟩, -⟩, hprops⟩, hint⟩, hpreserve⟩ := h
  rw [htype, href]
  simp [markedShape, hprops, hint, hpreserve]

theorem layered_unconstrained {s : Schema} (h : s.isUnconstrained = true) (context : String)
    (outer : Option Schema) :
    s.layered context outer = .error (.unsupportedShape context .unmarked) := by
  rw [layered_of_not_wraps (not_wraps_of_unconstrained h), shape_unconstrained h]

theorem Wraps.not_unconstrained {w s : Schema} (h : w.Wraps s) : w.isUnconstrained = false := by
  simp [isUnconstrained, h.allOf]

/-! Lists and maps. -/

/-- A list or a map, but for what it contains. -/
inductive Frame where
  | list (around : Schema)
  | map (around : Schema)

def Frame.layer : Frame → Layer
  | list _ => .list
  | map _ => .map

/-- The list of `inner`, or the map with values `inner`. -/
def Frame.fill (inner : Schema) : Frame → Schema
  | list around => { around with type := some "array", items := some inner }
  | map around =>
    { around with type := some "object", properties := [], additional := some (.schema inner) }

/-- `s` within lists and maps. -/
def within (frames : List Frame) (s : Schema) : Schema :=
  frames.foldr (fun f inner => f.fill inner) s

theorem Frame.fill_not_unconstrained (f : Frame) (inner : Schema) :
    (f.fill inner).isUnconstrained = false := by
  cases f <;> simp [Frame.fill, isUnconstrained]

theorem Frame.fill_not_wraps (f : Frame) (inner t : Schema) : ¬(f.fill inner).Wraps t := by
  intro h
  have htype := h.type
  cases f <;> cases htype

theorem layered_fill {inner : Schema} (h : inner.isUnconstrained = false) (f : Frame)
    (context : String) (outer : Option Schema) : (f.fill inner).layered context outer =
      (inner.layered context none).map fun l => { l with layers := f.layer :: l.layers } := by
  rw [layered_of_not_wraps (f.fill_not_wraps inner), shape_of_not_wraps (f.fill_not_wraps inner)]
  cases f <;> simp [Frame.fill, Frame.layer, typedShape, itemSchema, valueSchema, h]

theorem layered_within {frames : List Frame} {s : Schema}
    (h : frames = [] ∨ s.isUnconstrained = false) (context : String) :
    (within frames s).layered context none = (s.layered context none).map fun l =>
      { l with layers := frames.map Frame.layer ++ l.layers } := by
  induction frames with
  | nil =>
    have hnil : within [] s = s := rfl
    rw [hnil]
    cases s.layered context none <;> rfl
  | cons f frames ih =>
    have hs : s.isUnconstrained = false := h.resolve_left (List.cons_ne_nil _ _)
    have hinner : (within frames s).isUnconstrained = false := by
      cases frames with
      | nil => exact hs
      | cons f' frames => exact f'.fill_not_unconstrained _
    have hcons : within (f :: frames) s = f.fill (within frames s) := rfl
    rw [hcons, layered_fill hinner, ih (.inr hs)]
    cases s.layered context none <;> rfl

end Schema

end SchemaCompiler
