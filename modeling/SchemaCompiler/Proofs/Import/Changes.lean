import SchemaCompiler.Proofs.Import.Edit

/-! An import changes the model only by registering types and filling them in. -/

namespace SchemaCompiler

namespace Importer

variable {c : ImportSettings} {i j k : Importer}

/-- The model of `j` comes from that of `i` by changes that finalize nothing. -/
def Makes (i j : Importer) : Prop :=
  ∃ cs : List Change, (∀ c ∈ cs, c.Registers) ∧ j.model = cs.foldl Model.change i.model

theorem Makes.of_model_eq (h : j.model = i.model) : Makes i j := ⟨[], by simp, h⟩

theorem Makes.refl (i : Importer) : Makes i i := .of_model_eq rfl

theorem Makes.trans (h : Makes i j) (h' : Makes j k) : Makes i k := by
  obtain ⟨cs, hcs, hj⟩ := h
  obtain ⟨cs', hcs', hk⟩ := h'
  refine ⟨cs ++ cs', fun c hc => ?_, by rw [hk, hj, List.foldl_append]⟩
  rcases List.mem_append.mp hc with hc | hc
  · exact hcs c hc
  · exact hcs' c hc

theorem Makes.change (h : Makes i j) {c : Change} (hc : c.Registers) (hk : k.model = j.model.change c) :
    Makes i k :=
  h.trans ⟨[c], by simpa using hc, hk⟩

theorem makes_registerRoot (i : Importer) (group : GroupKey) (name : String) (kind : TypeKind)
    (schema : Schema) : Makes i (i.registerRoot group name kind schema).2 := by
  rw [registerRoot]
  split
  · exact .refl i
  · exact (Makes.refl i).change (c := .registerNamed group name kind schema.description) trivial rfl

/-- Whatever names the types are registered under. -/
theorem Edits.makes {a : Annotations} {N : GroupKey → String → Prop} (h : Edits a N i.model j.model) :
    Makes i j :=
  h.exists_changes

theorem makes_followRef (depth : Nat) (i : Importer) (reference : String) :
    Makes i (followRef c depth i reference).2 :=
  (edits_followRef (N := fun _ _ => True) (fun _ _ => trivial) depth i reference).makes

variable {keys : List String} {seeds : List TypeExpr} {bodies : List Pending}

theorem Empties.makes (h : Empties c i bodies k) : Makes i k :=
  (h.edits (N := fun _ _ => True) fun _ _ => trivial).makes

/-- What an import leaves to be finalized was made by registering types and filling them in. -/
theorem Imports.exists_changes (h : Imports c {} keys seeds i) (he : Empties c i bodies k) :
    ∃ cs : List Change, (∀ c ∈ cs, c.Registers) ∧ k.model = Model.ofChanges cs :=
  (h.edits (N := fun _ _ => True) fun _ _ => trivial).makes.trans he.makes

theorem Imports.unfinalized (h : Imports c {} keys seeds i) (he : Empties c i bodies k) :
    k.model.Unfinalized := by
  obtain ⟨cs, hcs, hk⟩ := h.exists_changes he
  rw [hk]
  exact Model.unfinalized_ofChanges hcs

end Importer

/-- What is made of a document, of the types of it that are asked for, or of custom resources. -/
inductive Compiled (m : Model) : Prop
  | document {doc : OpenApiDocument} {annotations : Annotations} (h : doc.compile annotations = .ok m)
  | requested {doc : OpenApiDocument} {annotations : Annotations} {requested : List String}
    (h : doc.compileTypes annotations requested = .ok m)
  | resources {resources : List CustomResource} {annotations : Annotations} {config : Config}
    (h : CustomResource.compile resources annotations config = .ok m)

/-- What is compiled was made by registering types and filling them in, and then finalized. -/
theorem Compiled.exists_changes {m : Model} (h : Compiled m) :
    ∃ cs : List Change, (∀ c ∈ cs, c.Registers) ∧ m = (Model.ofChanges cs).finalize := by
  obtain ⟨s, annotations, h⟩ : ∃ s : Source, ∃ annotations, s.compile annotations = .ok m := by
    cases h with
    | @document doc annotations h => exact ⟨.document doc, annotations, h⟩
    | @requested doc annotations requested h => exact ⟨.requested doc requested, annotations, h⟩
    | @resources resources annotations config h => exact ⟨.resources resources config, annotations, h⟩
  obtain ⟨m₀, hedits, rfl⟩ := s.exists_edits h
  obtain ⟨cs, hcs, rfl⟩ := hedits.exists_changes
  exact ⟨cs, hcs, rfl⟩

end SchemaCompiler
