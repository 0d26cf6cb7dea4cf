import Mathlib.Logic.Relation
import SchemaCompiler.Proofs.Import.Layering

/-! The schemas inside a schema. Taking a schema apart goes from a list or a map to what it contains,
through whatever wraps it, so that it ends at a schema inside the one it began with. -/

namespace SchemaCompiler

namespace Schema

/-- `t` stands directly in `s`. -/
inductive Part (t s : Schema) : Prop where
  | property {name : String} (h : (name, t) ∈ s.properties)
  | item (h : s.items = some t)
  | value (h : s.additional = some (.schema t))
  | wrapped (h : t ∈ s.allOf)

/-- `t` is `s` or stands somewhere in it. -/
abbrev Inside : Schema → Schema → Prop := Relation.ReflTransGen Part

theorem Part.sizeOf_lt {t s : Schema} (h : t.Part s) : sizeOf t < sizeOf s := by
  obtain ⟨type, format, description, properties, required, items, additional, reference, allOf,
    kinds, preserve, either, namespaced⟩ := s
  simp only [mk.sizeOf_spec]
  cases h with
  | @property name h =>
    have hlt := List.sizeOf_lt_of_mem h
    simp only [Prod.mk.sizeOf_spec] at hlt
    omega
  | item h =>
    obtain rfl : items = some t := h
    simp only [Option.some.sizeOf_spec]
    omega
  | value h =>
    obtain rfl : additional = some (.schema t) := h
    simp only [Option.some.sizeOf_spec, Additional.schema.sizeOf_spec]
    omega
  | wrapped h =>
    have hlt := List.sizeOf_lt_of_mem h
    simp only at hlt
    omega

theorem Inside.sizeOf_le {t s : Schema} (h : t.Inside s) : sizeOf t ≤ sizeOf s := by
  induction h with
  | refl => exact Nat.le_refl _
  | tail _ hpart ih => exact Nat.le_trans ih (Nat.le_of_lt hpart.sizeOf_lt)

/-- Whether no schemas stand in the schema. -/
def isLeaf (s : Schema) : Bool :=
  s.properties.isEmpty && s.items.isNone && s.additional.isNone && s.allOf.isEmpty

theorem Inside.eq_of_leaf {t s : Schema} (h : t.Inside s) (hs : s.isLeaf = true) : t = s := by
  simp only [isLeaf, Bool.and_eq_true, List.isEmpty_iff, Option.isNone_iff_eq_none] at hs
  obtain ⟨⟨⟨hproperties, hitems⟩, hadditional⟩, hallOf⟩ := hs
  rcases Relation.ReflTransGen.cases_tail h with heq | ⟨u, -, hpart⟩
  · exact heq.symm
  · cases hpart with
    | property h => simp [hproperties] at h
    | item h => simp [hitems] at h
    | value h => simp [hadditional] at h
    | wrapped h => simp [hallOf] at h

/-- What stands in a schema of which only the properties are schemas. -/
theorem Inside.cases_record {t s : Schema} (h : t.Inside s)
    (hs : isLeaf { s with properties := [] } = true) : t = s ∨ ∃ f ∈ s.properties, t.Inside f.2 := by
  simp only [isLeaf, Bool.and_eq_true, List.isEmpty_iff, Option.isNone_iff_eq_none] at hs
  obtain ⟨⟨⟨-, hitems⟩, hadditional⟩, hallOf⟩ := hs
  rcases Relation.ReflTransGen.cases_tail h with heq | ⟨u, hu, hpart⟩
  · exact .inl heq.symm
  · cases hpart with
    | property hmem => exact .inr ⟨_, hmem, hu⟩
    | item h => simp [hitems] at h
    | value h => simp [hadditional] at h
    | wrapped h => simp [hallOf] at h

theorem Inside.cases_flat {t s : Schema} (h : t.Inside s)
    (hs : isLeaf { s with properties := [] } = true) (hfields : ∀ f ∈ s.properties, f.2.isLeaf = true) :
    t = s ∨ t.isLeaf = true := by
  refine (h.cases_record hs).imp id ?_
  rintro ⟨f, hf, ht⟩
  rw [Inside.eq_of_leaf ht (hfields f hf)]
  exact hfields f hf

theorem isLeaf_names {s : Schema} (h : s.isLeaf = true) : (s.properties.map Prod.fst).Nodup := by
  simp only [isLeaf, Bool.and_eq_true, List.isEmpty_iff] at h
  rw [h.1.1.1]
  exact List.nodup_nil

theorem Wraps.part {w s : Schema} (h : w.Wraps s) : s.Part w :=
  .wrapped (by simp [h.allOf])

/-- A schema has this shape, wherever it stands. -/
def HasShape (s : Schema) (shape : Shape) : Prop := ∀ context, s.shape context = .ok shape

theorem hasShape_of_shape {s : Schema} {context : String} {shape : Shape}
    (h : s.shape context = .ok shape) : s.HasShape shape := shape_ok h

theorem HasShape.unique {s : Schema} {shape shape' : Shape} (h : s.HasShape shape)
    (hs : s.HasShape shape') : shape = shape' :=
  Except.ok.inj ((h "").symm.trans (hs ""))

theorem typedShape_array {s item : Schema} {context type : String}
    (h : s.typedShape context type = .ok (.array (some item))) : s.items = some item := by
  simp only [typedShape] at h
  split_ifs at h
  all_goals try cases h
  · cases hf : stringFormat (s.format.getD "") <;> simp [hf, Except.map] at h
  · have hitem : itemSchema s.items = some item := by simpa using h
    rw [itemSchema.eq_def] at hitem
    split at hitem
    · split at hitem
      · cases hitem
      · next items hitems _ => rw [← Option.some.inj hitem, hitems]
    · cases hitem

theorem typedShape_map {s value : Schema} {context type : String}
    (h : s.typedShape context type = .ok (.map (some value))) :
    s.additional = some (.schema value) := by
  simp only [typedShape] at h
  split_ifs at h
  all_goals try cases h
  · have hvalue : valueSchema s.additional = some value := by simpa using h
    rw [valueSchema.eq_def] at hvalue
    split at hvalue
    · split at hvalue
      · cases hvalue
      · next value' hadditional _ => rw [← Option.some.inj hvalue, hadditional]
    · cases hvalue
  · cases hf : stringFormat (s.format.getD "") <;> simp [hf, Except.map] at h

theorem markedShape_leaf {s : Schema} {context : String} {shape : Shape}
    (h : s.markedShape context = .ok shape) :
    (∀ item, shape ≠ .array (some item)) ∧ ∀ value, shape ≠ .map (some value) := by
  simp only [markedShape] at h
  split_ifs at h
  all_goals cases h; simp

theorem items_of_shape {s item : Schema} {context : String} (hw : ∀ t, ¬s.Wraps t)
    (h : s.shape context = .ok (.array (some item))) : s.items = some item := by
  rw [shape_of_not_wraps hw] at h
  split at h
  · exact typedShape_array h
  · cases h
  · exact absurd rfl ((markedShape_leaf h).1 item)

theorem additional_of_shape {s value : Schema} {context : String} (hw : ∀ t, ¬s.Wraps t)
    (h : s.shape context = .ok (.map (some value))) : s.additional = some (.schema value) := by
  rw [shape_of_not_wraps hw] at h
  split at h
  · exact typedShape_map h
  · cases h
  · exact absurd rfl ((markedShape_leaf h).2 value)

theorem HasShape.of_wraps {w s : Schema} {shape : Shape} (h : w.HasShape shape) (hw : w.Wraps s) :
    s.HasShape shape := by
  intro context
  rw [← shape_wraps hw]
  exact h context

theorem HasShape.inside {s t : Schema}
    (h : s.HasShape (.array (some t)) ∨ s.HasShape (.map (some t))) :
    Relation.TransGen Part t s := by
  induction s using wraps_induction with
  | wrapper s w hw ih =>
    have hinner := ih (h.imp (·.of_wraps hw) (·.of_wraps hw))
    exact hinner.tail hw.part
  | core s hs =>
    apply Relation.TransGen.single
    rcases h with h | h
    · exact .item (items_of_shape hs (h ""))
    · exact .value (additional_of_shape hs (h ""))

theorem sizeOf_lt_of_inside {s t : Schema} (h : Relation.TransGen Part t s) :
    sizeOf t < sizeOf s := by
  induction h with
  | single h => exact h.sizeOf_lt
  | tail _ h ih => exact Nat.lt_trans ih h.sizeOf_lt

theorem HasShape.sizeOf_lt {s t : Schema}
    (h : s.HasShape (.array (some t)) ∨ s.HasShape (.map (some t))) : sizeOf t < sizeOf s :=
  sizeOf_lt_of_inside (HasShape.inside h)

/-- Taking a schema apart follows its shapes, whether or not it is a wrapper. -/
theorem layered_eq (s : Schema) (context : String) (outer : Option Schema) :
    s.layered context outer =
      match s.shape context with
      | .error e => .error e
      | .ok (.map (some value)) =>
        (value.layered context none).map fun l => { l with layers := .map :: l.layers }
      | .ok (.array (some item)) =>
        (item.layered context none).map fun l => { l with layers := .list :: l.layers }
      | .ok leaf => .ok ⟨[], leaf.core (outer.getD s)⟩ := by
  induction s using wraps_induction generalizing outer with
  | wrapper s w hw ih =>
    rw [layered_wraps hw, ih, shape_wraps hw]
    rfl
  | core s hs =>
    rw [layered_of_not_wraps hs]
    cases hshape : s.shape context with
    | error e => rfl
    | ok shape =>
      cases shape with
      | map value =>
        cases value with
        | none => rfl
        | some value => simp only [additional_of_shape hs hshape]
      | array items =>
        cases items with
        | none => rfl
        | some item => simp only [items_of_shape hs hshape]
      | _ => rfl

theorem layered_ok {s : Schema} {context : String} {l : Layered}
    (h : s.layered context none = .ok l) (context' : String) : s.layered context' none = .ok l := by
  induction s using descent_induction HasShape.sizeOf_lt generalizing l with
  | h s ih =>
    have hinner : ∀ {t : Schema} {layer : Layer},
        s.HasShape (.array (some t)) ∨ s.HasShape (.map (some t)) →
        (t.layered context none).map (fun l => { l with layers := layer :: l.layers }) = .ok l →
        (t.layered context' none).map (fun l => { l with layers := layer :: l.layers }) = .ok l := by
      intro t layer ht ho
      cases hl : t.layered context none with
      | error e => simp [hl, Except.map] at ho
      | ok l' => rwa [ih t ht hl, ← hl]
    rw [layered_eq] at h ⊢
    cases hshape : s.shape context with
    | error e => simp [hshape] at h
    | ok shape =>
      rw [hshape] at h
      rw [shape_ok hshape context']
      have hs := hasShape_of_shape hshape
      split at h
      · next he => cases he
      · next value he =>
        obtain rfl := Except.ok.inj he
        exact hinner (.inr hs) h
      · next item he =>
        obtain rfl := Except.ok.inj he
        exact hinner (.inl hs) h
      · next he =>
        obtain rfl := Except.ok.inj he
        exact h

theorem layered_object_inside {s body : Schema} {context : String} {layers : List Layer}
    (h : s.layered context none = .ok ⟨layers, .object body⟩) : body.Inside s ∧ body.IsObject := by
  induction s using descent_induction HasShape.sizeOf_lt generalizing layers with
  | h s ih =>
    have hinner : ∀ {t : Schema} {layer : Layer},
        s.HasShape (.array (some t)) ∨ s.HasShape (.map (some t)) →
        (t.layered context none).map (fun l => { l with layers := layer :: l.layers }) =
          .ok ⟨layers, .object body⟩ → body.Inside s ∧ body.IsObject := by
      intro t layer ht ho
      cases hl : t.layered context none with
      | error e => simp [hl, Except.map] at ho
      | ok l =>
        obtain ⟨layers', core⟩ := l
        simp only [hl, Except.map, Except.ok.injEq, Layered.mk.injEq] at ho
        obtain ⟨-, rfl⟩ := ho
        obtain ⟨hbody, hobject⟩ := ih t ht hl
        exact ⟨hbody.trans (HasShape.inside ht).to_reflTransGen, hobject⟩
    rw [layered_eq] at h
    split at h
    · cases h
    · next value hvalue => exact hinner (.inr (hasShape_of_shape hvalue)) h
    · next item hitem => exact hinner (.inl (hasShape_of_shape hitem)) h
    · next leaf hmap harray hleaf =>
      have hcore : leaf.core s = .object body := (Layered.mk.inj (Except.ok.inj h)).2
      cases leaf with
      | object properties =>
        obtain rfl : s = body := Core.object.inj hcore
        exact ⟨.refl, context, properties, hleaf⟩
      | _ => cases hcore

end Schema

end SchemaCompiler
