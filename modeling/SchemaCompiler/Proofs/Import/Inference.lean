import SchemaCompiler.Proofs.Import.Part
import SchemaCompiler.Proofs.Import.Replay
import SchemaCompiler.Proofs.Model.Integrity

/-! An import that takes objects for well-known types, beside one that takes none. It meets the same
roots and objects up to those it takes for something else, whose bodies it never reads. -/

namespace SchemaCompiler

/-- The expression with names in the place of those types, at some depth of lists and maps, for which
`r` has one. -/
def TypeExpr.replaced (r : TypeId → Option QualifiedName) : TypeExpr → TypeExpr
  | .type x => ((r x).map .ref).getD (.type x)
  | .list e => .list (e.replaced r)
  | .map e => .map (e.replaced r)
  | e => e

def Property.replaced (r : TypeId → Option QualifiedName) (p : Property) : Property :=
  { p with type := p.type.replaced r }

def TypeEntry.replaced (r : TypeId → Option QualifiedName) (t : TypeEntry) : TypeEntry :=
  { t with properties := t.properties.map (Property.replaced r) }

theorem TypeEntry.content_replaced (r : TypeId → Option QualifiedName) (t : TypeEntry) :
    (t.replaced r).content = (t.content.replaced r).content := rfl

namespace Model

/-- The type `x` has a name by `r`, or is an object somewhere below one that has. -/
inductive Below (m : Model) (r : TypeId → Option QualifiedName) : TypeId → Prop where
  | here {x : TypeId} {q : QualifiedName} (h : r x = some q) : Below m r x
  | under {a x : TypeId} {property : String} (h : Below m r a)
      (hx : m.kind? x = some (.anonymous a property)) : Below m r x

/-- `m'` is `m` with names in the place of the types for which `r` has one. The type `a` of it
corresponds to the type `f a` of `m`, and what is missing lies at or below such a place. -/
structure Abridges (m m' : Model) (r : TypeId → Option QualifiedName) (f : TypeId → TypeId) : Prop where
  counterpart : ∀ {x y : TypeId}, Counterpart m m' x y ↔ y < m'.types.size ∧ f y = x
  injective : ∀ {a b : TypeId}, a < m'.types.size → b < m'.types.size → f a = f b → a = b
  entry : ∀ {a : TypeId} {t : TypeEntry}, m'.types[a]? = some t → ∃ t₁, m.types[f a]? = some t₁ ∧
    (t₁.replaced r).content = (t.mapIds f).content
  missing : ∀ {x : TypeId}, x < m.types.size → ((∀ y, ¬Counterpart m m' x y) ↔ m.Below r x)

theorem WellFormed.counterpart_finalize {m m' : Model} (h : m.WellFormed) (h' : m'.WellFormed)
    {x y : TypeId} : Counterpart m.finalize m'.finalize x y ↔ Counterpart m m' x y := by
  constructor <;> intro hxy
  · induction hxy with
    | named hx hy =>
      rw [h.named?_finalize] at hx
      rw [h'.named?_finalize] at hy
      exact .named hx hy
    | object _ hx hy ih =>
      rw [h.kind?_finalize] at hx
      rw [h'.kind?_finalize] at hy
      exact .object ih hx hy
  · induction hxy with
    | named hx hy =>
      rw [← h.named?_finalize] at hx
      rw [← h'.named?_finalize] at hy
      exact .named hx hy
    | object _ hx hy ih =>
      rw [← h.kind?_finalize] at hx
      rw [← h'.kind?_finalize] at hy
      exact .object ih hx hy

theorem WellFormed.below_finalize {m : Model} (h : m.WellFormed) {r : TypeId → Option QualifiedName}
    {x : TypeId} : m.finalize.Below r x ↔ m.Below r x := by
  constructor <;> intro hx
  · induction hx with
    | here hq => exact .here hq
    | under _ hx ih => exact .under ih (h.kind?_finalize _ ▸ hx)
  · induction hx with
    | here hq => exact .here hq
    | under _ hx ih => exact .under ih ((h.kind?_finalize _).symm ▸ hx)

end Model

namespace TypeExpr

variable {r : TypeId → Option QualifiedName} {e : TypeExpr}

theorem replaced_of_no_types (h : ∀ x : TypeId, .type x ∉ e.leaves) : e.replaced r = e := by
  induction e using TypeExpr.replaced.induct with
  | case1 x => exact absurd (by simp [leaves]) (h x)
  | case2 e ih => rw [replaced, ih h]
  | case3 e ih => rw [replaced, ih h]
  | case4 e => cases e <;> first | rfl | simp_all

end TypeExpr

namespace Importer

open Model (Counterpart Below)

/-- The well-known type that the object `x` is taken for, by the property that declares it and by its
schema, which is one of `bodies`. -/
def inferred? (inference : Option InferenceConfig) (m : Model) (bodies : List Pending) (x : TypeId) :
    Option QualifiedName :=
  match m.kind? x with
  | some (.anonymous _ property) =>
    (bodies.find? (·.id == x)).bind fun p => inference.bind (Signature.infer · property p.schema)
  | _ => none

variable {c : ImportSettings} {inference : Option InferenceConfig} {m m₁ m₂ : Model}
  {bodies bodies₁ bodies₂ read : List Pending} {a b x y : TypeId} {property key : String}
  {typeName : Option String} {s body : Schema} {e e₁ e₂ : TypeExpr} {q : QualifiedName}
  {r : TypeId → Option QualifiedName} {R : TypeId → TypeId → Prop}

theorem inferred?_finalize (h : m.WellFormed) :
    inferred? inference m.finalize bodies = inferred? inference m bodies := by
  funext x
  rw [inferred?, inferred?, h.kind?_finalize]

theorem inferred?_object (hnodup : (bodies.map Pending.id).Nodup)
    (h : ObjectAt m bodies a property typeName body x) :
    inferred? inference m bodies x = inference.bind (Signature.infer · property body) := by
  obtain ⟨above, -, hlabel⟩ := h.label
  have hkind : m.kind? x = some (.anonymous a property) := by
    obtain ⟨t, ht, htl⟩ := Model.label?_eq_some_iff.mp hlabel
    rw [Model.kind?, ht, Option.map_some, TypeEntry.label_anonymous_iff.mp (by rw [htl]; rfl)]
  have hfind : bodies.find? (·.id == x) = some ⟨x, body⟩ := by
    cases hf : bodies.find? (·.id == x) with
    | none => exact absurd (List.find?_eq_none.mp hf _ h.body) (by simp)
    | some p =>
      have hid : p.id = x := by simpa using List.find?_some hf
      exact congrArg some (List.inj_on_of_nodup_map hnodup (List.mem_of_find?_eq_some hf) h.body hid)
  rw [inferred?, hkind, hfind]
  rfl

theorem exists_kind_of_inferred? (h : inferred? inference m bodies x = some q) :
    ∃ a property, m.kind? x = some (.anonymous a property) := by
  rw [inferred?] at h
  split at h
  · next a property hk => exact ⟨a, property, hk⟩
  · cases h

/-! Schemas, where nothing is defined. -/

theorem Meaning.withInference (h : Meaning c m key e) : Meaning { c with inference } m key e := by
  cases h with
  | wellKnown hq hw => exact .wellKnown hq hw
  | defined h => exact .defined ⟨h.name, h.ordinary, h.defined, h.named, h.label⟩
  | undefined hq hw hd => exact .undefined hq hw hd

/-- Where no object is taken for something else, all that comes after a place comes after it. -/
theorem Passable.withInference {P : Waypoint → Prop} (h : Passable c P)
    (hoff : ∀ property s, c.inference.bind (Signature.infer · property s) = none)
    (inference : Option InferenceConfig) : Passable { c with inference } P := by
  refine ⟨h.legible, fun {v w} hv hw => ?_⟩
  cases hw with
  | record hd hr => exact h.next hv (.record ⟨hd.name, hd.ordinary, hd.defined⟩ hr)
  | synonym hd hr hu => exact h.next hv (.synonym ⟨hd.name, hd.ordinary, hd.defined⟩ hr hu)
  | field hf hkeep hc => exact h.next hv (.field hf hkeep hc)
  | item hs => exact h.next hv (.item hs)
  | value hs => exact h.next hv (.value hs)
  | path hs => exact h.next hv (.path hs)
  | object hs _ => exact h.next hv (.object hs (hoff _ _))

theorem not_defined (hnone : c.definitions = []) {definition : Schema} :
    ¬Defined c m key q definition x := by
  intro h
  have hd := h.defined
  rw [hnone] at hd
  cases hd

theorem Meaning.not_type (hnone : c.definitions = []) (h : Meaning c m key e) : .type x ∉ e.leaves := by
  intro hx
  obtain ⟨q, definition, hd⟩ := h.mem_leaves hx
  exact not_defined hnone hd

theorem Meaning.agree_of_none (hnone : c.definitions = []) (h₁ : Meaning c m₁ key e₁)
    (h₂ : Meaning { c with inference } m₂ key e₂) : (e₁.replaced r).Agree R e₂ := by
  rw [TypeExpr.replaced_of_no_types fun x => h₁.not_type hnone]
  have h : Meaning { c with inference } m₁ key e₁ := h₁.withInference
  exact h.agree h₂ fun hd => absurd hd (not_defined (c := { c with inference }) hnone)

theorem Denotes.mem_leaves_replaced (hnone : c.definitions = [])
    (h : Denotes c m bodies a property typeName s e) :
    .type x ∈ (e.replaced r).leaves ↔ .type x ∈ e.leaves ∧ r x = none := by
  have hleaf : ∀ {e : TypeExpr}, (∀ x : TypeId, .type x ∉ e.leaves) →
      (.type x ∈ (e.replaced r).leaves ↔ .type x ∈ e.leaves ∧ r x = none) := by
    intro e he
    rw [TypeExpr.replaced_of_no_types he]
    simp [he]
  induction h with
  | plain _ he => exact hleaf (Shape.plain?_leaves he)
  | reference _ he => exact hleaf fun x => he.not_type hnone
  | list _ _ ih => exact ih
  | map _ _ ih => exact ih
  | inferred => exact hleaf (by simp [TypeExpr.leaves])
  | @object s properties id =>
    cases hr : r id with
    | none =>
      simp only [TypeExpr.replaced, hr, Option.map_none, Option.getD_none, TypeExpr.leaves,
        List.mem_singleton, TypeExpr.type.injEq]
      exact ⟨fun h => ⟨h, h ▸ hr⟩, And.left⟩
    | some q =>
      simp only [TypeExpr.replaced, hr, Option.map_some, Option.getD_some, TypeExpr.leaves,
        List.mem_singleton, TypeExpr.type.injEq, reduceCtorEq, false_iff]
      rintro ⟨rfl, hx⟩
      cases hr.symm.trans hx

section Off

variable (hnone : c.definitions = [])
  (hoff : ∀ property s, c.inference.bind (Signature.infer · property s) = none)

include hnone hoff

/-- Of one schema come the same expressions but for the objects that are taken for well-known types. -/
theorem Denotes.agree_replaced (h₁ : Denotes c m₁ bodies₁ a property typeName s e₁)
    (h₂ : Denotes { c with inference } m₂ bodies₂ b property typeName s e₂)
    (hr : ∀ {body x}, ObjectAt m₁ bodies₁ a property typeName body x →
      r x = inference.bind (Signature.infer · property body))
    (hobject : ∀ {body x y}, ObjectAt m₁ bodies₁ a property typeName body x →
      ObjectAt m₂ bodies₂ b property typeName body y → R x y) : (e₁.replaced r).Agree R e₂ := by
  induction h₁ generalizing e₂ with
  | plain hs he =>
    obtain rfl := h₂.of_plain hs he
    rw [TypeExpr.replaced_of_no_types (Shape.plain?_leaves he)]
    exact TypeExpr.agree_of_no_types R (Shape.plain?_leaves he)
  | reference hs he => exact he.agree_of_none hnone (h₂.shaped hs)
  | list hs _ ih =>
    obtain ⟨e, rfl, he⟩ := h₂.shaped hs
    exact ih he
  | map hs _ ih =>
    obtain ⟨e, rfl, he⟩ := h₂.shaped hs
    exact ih he
  | inferred _ hq => cases (hoff _ _).symm.trans hq
  | object hs _ he =>
    rcases h₂.shaped hs with ⟨q, hq, rfl⟩ | ⟨hnew, y, rfl, hy⟩
    · rw [TypeExpr.replaced, hr he]
      simp only [show inference.bind (Signature.infer · property _) = some q from hq]
      rfl
    · rw [TypeExpr.replaced, hr he]
      simp only [show inference.bind (Signature.infer · property _) = none from hnew]
      exact hobject he hy

end Off

end Importer

end SchemaCompiler
