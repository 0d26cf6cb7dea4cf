import SchemaCompiler.Proofs.Import.Tracking

/-! When an import fails. Nothing that its calls lead to is passed over, and nothing else can make it
fail. -/

namespace SchemaCompiler

open QualifiedName (parse?)

namespace Importer

variable {c : ImportSettings} {calls : List Call}

/-- An import that has succeeded has read whatever its calls lead to. -/
theorem Calls.legible {i k : Importer} (h : Calls c {} calls i) (hs : Unshared c (rootsOf calls))
    (hdrain : i.drain c = (.ok (), k)) {w : Waypoint} (hw : Encountered c calls w) : w.Legible := by
  obtain ⟨⟨seeds, hasked⟩, -, hreferences⟩ := h.asked hs (asked_empty c)
  obtain ⟨bodies, hempties, -⟩ := empties_of_run hdrain
  obtain ⟨hpending, hfull, -, hextends, hsubset⟩ := hasked.full.empties hs hasked.rooted hempties
  have hread : i.pending ⊆ [] ++ bodies ++ [] ++ k.pending := by simpa [hpending] using hsubset
  have hbegins : ∀ w, Begins calls w → Passed c k.model ([] ++ bodies ++ [] ++ k.pending) w := by
    intro w hw
    refine passed_of_begins (fun path hpath => ?_) (hasked.registered.mono hextends hread) hw
    obtain ⟨e, he⟩ := hreferences path hpath
    exact ⟨e, he.mono hextends⟩
  exact (hw.holds (hfull.passable hs hpending) hbegins).legible

/-- An import that ends succeeds if and only if whatever its calls lead to can be read. -/
theorem import_succeeds_iff (hs : Unshared c (rootsOf calls))
    (hends : ∀ i, Calls c {} calls i → (i.drain c).1 ≠ .error .endless) :
    (∃ i k, Calls c {} calls i ∧ i.drain c = (.ok (), k)) ↔
      ∀ w, Encountered c calls w → w.Legible := by
  constructor
  · rintro ⟨i, k, hcalls, hdrain⟩ w hw
    exact hcalls.legible hs hdrain hw
  · intro hlegible
    have hR := passable_encountered hlegible
    have hempty := tracked_empty c (rootsOf calls) (Encountered c calls)
    obtain ⟨i, hi, htracked⟩ := hempty.exists_calls hR hs (fun _ hw => .start hw)
      (List.nil_append calls).symm (by simp [rootsOf])
    refine ⟨i, (i.drain c).2, hi, drain_of_ok ?_⟩
    exact (htracked.run hR hs stepLimit).resolve_right (hends i hi)

/-- A size in a format that is not known. -/
def oddSchema : Schema where
  properties := [("size", { type := some "string", format := some "rgb" })]

theorem odd_shape (context : String) :
    Schema.shape context { type := some "string", format := some "rgb" } =
      .error (.unsupportedFormat "rgb") := by
  simp [Schema.shape, Schema.typedShape, Schema.stringFormat, Schema.plainFormats, Except.map]

theorem odd_shapeless :
    ¬∃ shape, Schema.HasShape { type := some "string", format := some "rgb" } shape := by
  rintro ⟨shape, hs⟩
  cases (hs "").symm.trans (odd_shape "")

theorem encountered_odd {path : String} {q : QualifiedName} (hpath : .reference path ∈ calls)
    (hd : Leads c path q oddSchema) (hannotations : c.annotations = [])
    (hc : c.canonicalMetadata = false) : ∃ w, Encountered c calls w ∧ ¬w.Legible := by
  have hbody := (Encountered.start (.reference hpath)).next (.record hd rfl)
  have hcontext : contextOf c (definitionEntry q oddSchema) ⟨0, oddSchema⟩ =
      { id := 0, resource := (definitionEntry q oddSchema).apiResource?.isSome, overrides := [],
        required := [] } := by
    rw [contextOf, hannotations, forType_nil]
    rfl
  have hkeep : (contextOf c (definitionEntry q oddSchema) ⟨0, oddSchema⟩).keeps "size" = true := by
    rw [hcontext]
    simp [BodyContext.keeps, impliedProperties, Table.get?]
  have hfield := hbody.next (.field List.mem_cons_self hkeep (by rw [isCanonical, hc]; rfl))
  rw [hcontext] at hfield
  exact ⟨_, hfield, odd_shapeless⟩

/-- A deployment of which an odd schema is all that is known. -/
def oddDefinition : ImportSettings where
  definitions := [("io.k8s.api.apps.v1.Deployment", oddSchema)]

theorem leads_odd : Leads oddDefinition "io.k8s.api.apps.v1.Deployment"
    ⟨"Deployment", "apps", some "v1"⟩ oddSchema :=
  ⟨by decide, by decide, rfl⟩

def oddImport : Importer :=
  (Importer.importRef {} oddDefinition "io.k8s.api.apps.v1.Deployment").2

theorem drain_odd : (oddImport.drain oddDefinition).1 = .error (.unsupportedFormat "rgb") := by
  have hp : oddImport.pending = [⟨0, oddSchema⟩] := rfl
  have hproperties : oddSchema.properties =
      [("size", { type := some "string", format := some "rgb" })] := rfl
  have hbody : importBody oddDefinition { oddImport with pending := [] } ⟨0, oddSchema⟩ =
      (.error (.unsupportedFormat "rgb"), { oddImport with pending := [] }) := by
    rw [importBody, bodyContext_bare rfl, hproperties, importFields, importField_eq,
      if_pos (by simp [BodyContext.keeps, impliedProperties, Table.get?]), keptField,
      if_neg (by simp [oddDefinition]), importProperty, importWith, Schema.layered_eq]
    simp only [BodyContext.patch, Table.get?, Option.getD_none, odd_shape]
    rfl
  have hlimit : stepLimit = (stepLimit - 1) + 1 := rfl
  rw [drain, hlimit, run_succ_error hp hbody]

/-- All that a widget leads to can be read, and an odd deployment cannot be imported. -/
theorem import_succeeds_iff_widget_odd :
    (∀ w, Encountered widgetSettings [.root widgetResource] w → w.Legible) ∧
      ¬∃ i k, Calls oddDefinition {} [.reference "io.k8s.api.apps.v1.Deployment"] i ∧
        i.drain oddDefinition = (.ok (), k) := by
  constructor
  · have hs : Unshared widgetSettings (rootsOf [.root widgetResource]) :=
      ⟨by simp [widgetSettings], by simp [widgetSettings], by simp [rootsOf, widgetResource]⟩
    refine (import_succeeds_iff hs fun i hi => ?_).mp
      ⟨widgetImport, _, .root rfl (.nil _), drain_widget⟩
    cases hi with
    | root hok hrest =>
      cases hrest
      obtain rfl : widgetImport = i := (Prod.mk.inj hok).2
      rw [drain_widget]
      intro h
      cases h
  · have hs : Unshared oddDefinition (rootsOf [.reference "io.k8s.api.apps.v1.Deployment"]) := by
      refine ⟨fun d hd d' hd' _ _ _ => ?_, by simp [rootsOf], by simp [rootsOf]⟩
      rw [List.mem_singleton.mp hd, List.mem_singleton.mp hd']
    rw [import_succeeds_iff hs fun i hi => ?_]
    · intro hlegible
      obtain ⟨w, hw, hillegible⟩ := encountered_odd List.mem_cons_self leads_odd rfl rfl
      exact hillegible (hlegible w hw)
    · cases hi with
      | reference hok hrest =>
        cases hrest
        obtain rfl : oddImport = i := congrArg Prod.snd hok
        rw [drain_odd]
        intro h
        cases h

/-- One definition of a deployment says nothing, and an odd one is read as the same name. -/
def oddTwice : ImportSettings where
  definitions := [("io.k8s.api.apps.v1.Deployment", { type := some "object" }),
    ("#/definitions/io.k8s.api.apps.v1.Deployment", oddSchema)]

def oddRoot : Root := { deploymentRoot with schema := oddSchema }

/-- The calls succeed, and so does reading the queue, though something that they lead to cannot be read. -/
def Overlooks (c : ImportSettings) (calls : List Call) : Prop :=
  ∃ i w, Calls c {} calls i ∧ (i.drain c).1 = .ok () ∧ Encountered c calls w ∧ ¬w.Legible

/-- Of a definition that shares its name with a root, or with another definition, and of a root that shares
its name with an earlier one, nothing may ever be read. -/
theorem overlooks_shared :
    Overlooks oddDefinition [.root deploymentRoot, .reference "io.k8s.api.apps.v1.Deployment"] ∧
    Overlooks oddTwice [.reference "io.k8s.api.apps.v1.Deployment",
      .reference "#/definitions/#/definitions/io.k8s.api.apps.v1.Deployment"] ∧
    ∃ i, Calls {} {} [.root deploymentRoot, .root oddRoot] i ∧ (i.drain {}).1 = .ok () ∧
      ∃ f ∈ oddRoot.schema.properties, ¬∃ shape, f.2.HasShape shape := by
  refine ⟨?_, ?_, ?_⟩
  · have hrun : (rootImport.importRef oddDefinition "io.k8s.api.apps.v1.Deployment").1 = .ok (.type 0) ∧
        ((rootImport.importRef oddDefinition "io.k8s.api.apps.v1.Deployment").2.drain
          oddDefinition).1 = .ok () := by
      decide
    obtain ⟨hfound, hdrain⟩ := hrun
    have hroot : Importer.registerRoot {} deploymentRoot.group deploymentRoot.name deploymentRoot.kind
        deploymentRoot.schema = (0, rootImport) := rfl
    obtain ⟨w, hw⟩ := encountered_odd (List.mem_cons_of_mem _ List.mem_cons_self) leads_odd rfl rfl
    exact ⟨_, w, .root hroot (.of_found hfound (.nil _)), hdrain, hw⟩
  · have hkey : QualifiedName.identifier "#/definitions/#/definitions/io.k8s.api.apps.v1.Deployment" =
        "#/definitions/io.k8s.api.apps.v1.Deployment" := by decide
    have hleads : Leads oddTwice "#/definitions/#/definitions/io.k8s.api.apps.v1.Deployment"
        ⟨"Deployment", "apps", some "v1"⟩ oddSchema :=
      ⟨by decide, by decide, by rw [hkey]; rfl⟩
    have hrun : (Importer.importRef {} oddTwice "io.k8s.api.apps.v1.Deployment").1 = .ok (.type 0) ∧
        ((Importer.importRef {} oddTwice "io.k8s.api.apps.v1.Deployment").2.importRef oddTwice
          "#/definitions/#/definitions/io.k8s.api.apps.v1.Deployment").1 = .ok (.type 0) ∧
        (((Importer.importRef {} oddTwice "io.k8s.api.apps.v1.Deployment").2.importRef oddTwice
          "#/definitions/#/definitions/io.k8s.api.apps.v1.Deployment").2.drain oddTwice).1 = .ok () := by
      decide +kernel
    obtain ⟨hfirst, hsecond, hdrain⟩ := hrun
    obtain ⟨w, hw⟩ := encountered_odd (List.mem_cons_of_mem _ List.mem_cons_self) hleads rfl rfl
    exact ⟨_, w, .of_found hfirst (.of_found hsecond (.nil _)), hdrain, hw⟩
  · exact ⟨rootImport, .root rfl (.root rfl (.nil _)), by decide, _, List.mem_cons_self,
      odd_shapeless⟩

end Importer

end SchemaCompiler
