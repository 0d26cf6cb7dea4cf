import SchemaCompiler.Proofs.Import.Completeness
import SchemaCompiler.Proofs.Import.Keys

/-! Documents that define one record, whose properties are texts. They compile to a single type, with a
property for each of the texts. -/

namespace SchemaCompiler.TextRecord

open Importer
open QualifiedName (parse?)

def text : Schema where
  type := some "string"

theorem parse?_service :
    parse? "io.k8s.api.core.v1.Service" = some ⟨"Service", "core", some "v1"⟩ := by
  decide

/-- A record with a text under each of `names`. -/
def service (names : List String) : Schema where
  properties := names.map (·, text)

def document (names : List String) : OpenApiDocument where
  definitions := [("io.k8s.api.core.v1.Service", service names)]

/-- The import of the document before its queue is read. -/
def registered (names : List String) : Importer :=
  (define {} "io.k8s.api.core.v1.Service" ⟨"Service", "core", some "v1"⟩ (service names)).enqueue 0
    (service names)

def properties (names : List String) : List Property :=
  names.map fun name => { name, type := .primitive .string, required := false }

/-- The model of the document before it is finalized. -/
def model (names : List String) : Model :=
  (registered names).model.amend 0 fun t => { t with properties := properties names }

variable {names : List String}

theorem setProperties_eq (hsorted : (properties names).Pairwise fun p q => Property.order p q != .gt) :
    (registered names).model.setProperties 0 (properties names) = model names := by
  have hsort : Property.sort (properties names) = properties names := List.mergeSort_of_pairwise hsorted
  rw [Model.setProperties, hsort]
  rfl

theorem reads_service (himplied : ∀ name ∈ names, impliedProperties.contains name = false)
    (hsorted : (properties names).Pairwise fun p q => Property.order p q != .gt) :
    importBody ((document names).settings []) { registered names with pending := [] }
      ⟨0, service names⟩ = (.ok (), { registered names with pending := [], model := model names }) := by
  have htext : ∀ f ∈ (service names).properties, importProperty ((document names).settings [])
      { registered names with pending := [] } 0 f.1 none f.2 =
        (.ok (.primitive .string), { registered names with pending := [] }) := by
    rw [service, List.forall_mem_map]
    exact fun name _ => importProperty_plain text_shape rfl
  have hbody := importBody_bare (p := ⟨0, service names⟩) rfl rfl
    (by rw [service, List.forall_mem_map]; exact himplied) htext
  rw [hbody, ← setProperties_eq hsorted]
  simp only [service, properties, List.map_map]
  rfl

theorem compile_eq (hne : names ≠ []) (himplied : ∀ name ∈ names, impliedProperties.contains name = false)
    (hsorted : (properties names).Pairwise fun p q => Property.order p q != .gt) :
    (document names).compile [] = .ok (model names).finalize := by
  have hrecord : (service names).isRecord = true := by
    obtain ⟨name, names, rfl⟩ := List.exists_cons_of_ne_nil hne
    rfl
  have hservice : importRef {} ((document names).settings []) "io.k8s.api.core.v1.Service" =
      (.ok (.type 0), registered names) :=
    importRef_record (by decide) rfl parse?_service (by decide) rfl hrecord rfl
  have himports : Imports ((document names).settings []) {} (Table.keys (document names).schemas)
      [.type 0] (registered names) :=
    .cons hservice (.nil _)
  have hempties : Empties ((document names).settings []) (registered names) [⟨0, service names⟩]
      { registered names with pending := [], model := model names } :=
    .read rfl (reads_service himplied hsorted) (.done rfl)
  have hlimit : 1 ≤ stepLimit := by decide
  exact himports.importKeys_eq.trans (hempties.finish_eq hlimit)

end SchemaCompiler.TextRecord
