import SchemaCompiler.CustomResource
import SchemaCompiler.Proofs.Import.Abridgement
import SchemaCompiler.Proofs.Import.Keys

/-! Custom resources compiled with inference and without. Inference makes nothing fail, and changes
nothing but that names of well-known types stand where objects were. -/

namespace SchemaCompiler

def Config.withoutInference (config : Config) : Config :=
  { config with inference.enabled := false }

namespace Importer

variable {c : ImportSettings} {roots : List Root} {bodies : List Pending} {i k : Importer}
  {inference : Option InferenceConfig}

theorem separate_of_undefined (hnone : c.definitions = [])
    (hroots : ∀ r ∈ roots, r.kind = .resource ∨ ∃ info, r.kind = .apiResource info) :
    Separate c roots := by
  refine ⟨fun d hd => ?_, fun d hd => ?_, hroots⟩ <;>
    · rw [hnone] at hd
      cases hd

theorem Tidy.of_subset {roots' : List Root} (h : Tidy c roots') (hsub : roots ⊆ roots') :
    Tidy c roots :=
  fun s hs => h s (hs.widen hsub)

/-- A queue of roots that can be read without inference can be read with it, and what comes of it is
abridged. -/
theorem Reading.abridges (hi : Reading c roots [] i) (hi' : Reading { c with inference } roots [] i)
    (hnone : c.definitions = []) (hoff : ∀ property s, c.inference.bind (Signature.infer · property s) = none)
    (hs : Separate c roots) (htidy : Tidy c roots) (hk : Empties c i bodies k) :
    ∃ bodies' k' f, Empties { c with inference } i bodies' k' ∧ bodies'.length ≤ bodies.length ∧
      k.model.finalize.Abridges k'.model.finalize (inferred? inference k.model.finalize bodies) f := by
  obtain ⟨hwhole, hended⟩ := hi.empties hs hk
  have hbeside : Alongside c inference roots bodies k [] i :=
    ⟨hnone, hoff, hs, htidy, hwhole, hended, hi'⟩
  obtain ⟨bodies', k', hempties, hlength⟩ := hbeside.exists_empties
  obtain ⟨habridged, hended'⟩ := hi'.empties (hs.withInference _) hempties
  obtain ⟨f, hf⟩ := { hbeside with abridged := habridged }.abridges hended'
  have hbodies : bodiesWith bodies k = bodies := by simp [bodiesWith, hended]
  rw [hbodies] at hf
  exact ⟨bodies', k', f, hempties, hlength, hf⟩

end Importer

namespace CustomResource

open Importer

variable {c : ImportSettings} {i : Importer} {resources : List CustomResource}
  {annotations : Annotations} {config : Config} {m : Model}

/-- The root that a resource is registered as, if one of its versions counts. -/
def root? (r : CustomResource) : Option Root :=
  r.preferredVersion?.bind fun v => v.schema.map fun schema => {
    group := ⟨r.group, none⟩
    name := r.names.kind
    kind := .apiResource {
      apiVersion := r.group ++ "/" ++ v.name
      kind := r.names.kind
      namespaced := r.isNamespaced
      plural := some r.names.plural }
    schema }

theorem register_none {r : CustomResource} (hr : r.root? = none) : r.register i = i := by
  rw [root?] at hr
  rw [register]
  split
  · rfl
  · next v hv =>
    rw [hv] at hr
    rw [Option.map_eq_none_iff.mp hr]

theorem register_some {r : CustomResource} {x : Root} (hr : r.root? = some x) :
    r.register i = (i.registerRoot x.group x.name x.kind x.schema).2 := by
  obtain ⟨v, hv, hx⟩ := Option.bind_eq_some_iff.mp hr
  obtain ⟨schema, hschema, rfl⟩ := Option.map_eq_some_iff.mp hx
  rw [register, hv]
  simp only [hschema]

theorem root?_kind {r : CustomResource} {x : Root} (hr : r.root? = some x) :
    ∃ info, x.kind = .apiResource info := by
  obtain ⟨v, -, hx⟩ := Option.bind_eq_some_iff.mp hr
  obtain ⟨schema, -, rfl⟩ := Option.map_eq_some_iff.mp hx
  exact ⟨_, rfl⟩

/-- Resources in the order in which they are compiled. -/
def sorted (resources : List CustomResource) : List CustomResource :=
  resources.mergeSort fun a b => order a b != .gt

/-- The import of resources before its queue is read. -/
def registered (resources : List CustomResource) : Importer :=
  (sorted resources).foldl register {}

theorem calls_foldl (c : ImportSettings) (i : Importer) (resources : List CustomResource) :
    Calls c i ((resources.filterMap root?).map .root) (resources.foldl register i) := by
  induction resources generalizing i with
  | nil => exact .nil i
  | cons r resources ih =>
    rw [List.foldl_cons]
    cases hr : r.root? with
    | none =>
      rw [List.filterMap_cons_none hr, register_none hr]
      exact ih i
    | some x =>
      rw [List.filterMap_cons_some hr, List.map_cons, register_some hr]
      exact .root rfl (ih _)

theorem rootsOf_map (roots : List Root) : rootsOf (roots.map .root) = roots := by
  induction roots with
  | nil => rfl
  | cons r roots ih => rw [List.map_cons, rootsOf, ih]

/-- The roots that are registered for the resources. -/
def roots (resources : List CustomResource) : List Root := (sorted resources).filterMap root?

theorem separate_roots (hnone : c.definitions = []) : Separate c (roots resources) := by
  refine separate_of_undefined hnone fun x hx => .inr ?_
  obtain ⟨r, -, hr⟩ := List.mem_filterMap.mp hx
  exact root?_kind hr

theorem reading_registered (hnone : c.definitions = []) :
    Reading c (roots resources) [] (registered resources) := by
  have hcalls := calls_foldl c {} (sorted resources)
  have hroots : rootsOf ((roots resources).map .root) = roots resources := rootsOf_map _
  have hs : Separate c ([] ++ rootsOf ((roots resources).map .root)) := by
    rw [hroots]
    exact separate_roots hnone
  obtain ⟨⟨seeds, hasked⟩, -⟩ := hcalls.asked hs.unshared (asked_empty c)
  rw [List.nil_append, ← roots, hroots] at hasked
  exact hasked.reading

/-- Resources that are compiled without inference are compiled with it. Where the model has objects that
are taken for well-known types, by the properties that declare them and their schemas, it then has the
names of those types. It has nothing that lies at or below such objects, and is the same otherwise. -/
theorem compile_abridges (htidy : Tidy (settings annotations config) (resources.filterMap root?))
    (hok : compile resources annotations config.withoutInference = .ok m) :
    ∃ bodies k m' f,
      Empties (settings annotations config.withoutInference) (registered resources) bodies k ∧
        m = k.model.finalize ∧ compile resources annotations config = .ok m' ∧
          m.Abridges m' (inferred? (some config.inference) m bodies) f := by
  obtain ⟨bodies, k, hempties, hlimit, rfl⟩ := empties_of_finish hok
  have hoff : ∀ property s, (settings annotations config.withoutInference).inference.bind
      (Signature.infer · property s) = none := fun property s => by
    simp [settings, Config.withoutInference, Signature.infer, Signature.inferFrom]
  have htidy' : Tidy (settings annotations config.withoutInference) (roots resources) := by
    refine (htidy.withInference _).of_subset fun x hx => ?_
    obtain ⟨r, hr, hx⟩ := List.mem_filterMap.mp hx
    exact List.mem_filterMap.mpr ⟨r, List.mem_mergeSort.mp hr, hx⟩
  have hreading : Reading (settings annotations config) (roots resources) [] (registered resources) :=
    reading_registered rfl
  obtain ⟨bodies', k', f, hempties', hlength, hf⟩ := Reading.abridges
    (c := settings annotations config.withoutInference) (reading_registered rfl) hreading rfl hoff
    (separate_roots rfl) htidy' hempties
  exact ⟨bodies, k, _, f, hempties, rfl, hempties'.finish_eq (Nat.le_trans hlength hlimit), hf⟩

/-- What the secrets of a widget are like. -/
def secretSchema : Schema where
  properties := [("name", { type := some "string" })]

def secretsSchema : Schema where
  type := some "array"
  items := some secretSchema

def widgetSchema : Schema where
  properties := [("imagePullSecrets", secretsSchema)]

def widget : CustomResource where
  kind := "CustomResourceDefinition"
  group := "apps"
  names := { kind := "Widget", plural := "widgets" }
  scope := "Namespaced"
  versions := [{ name := "v1", schema := some widgetSchema }]

def secretsSettings : ImportSettings := settings [] (Config.withoutInference {})

theorem registered_widget : registered [widget] = register {} widget := by
  rw [registered, sorted, List.mergeSort_singleton]
  rfl

/-- The import of the widget after its own body. -/
def secretsImport : Importer :=
  let i := { register {} widget with pending := [] }.registerObject 0 "imagePullSecrets" none secretSchema
  { i with model := i.model.setProperties 0 [{
      name := "imagePullSecrets", type := .list (.type 1), required := false }] }

theorem secret_isObject : secretSchema.IsObject :=
  ⟨"", [("name", { type := some "string" })], by simp [secretSchema, Schema.shape, Schema.markedShape]⟩

theorem secrets_shape : secretsSchema.HasShape (.array (some secretSchema)) :=
  fun _ => by simp [secretsSchema, Schema.shape, Schema.typedShape, Schema.itemSchema, secretSchema,
    Schema.isUnconstrained]

/-- The import of the widget with its queue read. -/
def secretsRead : Importer :=
  { secretsImport with
    pending := []
    model := secretsImport.model.setProperties 1 [{
      name := "name", type := .primitive .string, required := false }] }

theorem bodyContext_widget {config : Config} : bodyContext (settings [] config)
    (register {} widget).model ⟨0, widgetSchema⟩ = ⟨0, true, [], []⟩ :=
  bodyContext_bare rfl

theorem empties_widget : Empties secretsSettings (registered [widget])
    [⟨0, widgetSchema⟩, ⟨1, secretSchema⟩] secretsRead := by
  rw [registered_widget]
  have hsecrets : importProperty secretsSettings { register {} widget with pending := [] } 0
      "imagePullSecrets" none secretsSchema = (.ok (.list (.type 1)),
        { register {} widget with pending := [] }.registerObject 0 "imagePullSecrets" none
          secretSchema) :=
    importProperty_items secrets_shape (importProperty_object secret_isObject rfl)
  have hname : importProperty secretsSettings { secretsImport with pending := [] } 1 "name" none
      { type := some "string" } = (.ok (.primitive .string), { secretsImport with pending := [] }) :=
    importProperty_plain text_shape rfl
  have hwidget : importBody secretsSettings { register {} widget with pending := [] }
      ⟨0, widgetSchema⟩ = (.ok (), secretsImport) :=
    importBody_one (i := { register {} widget with pending := [] }) bodyContext_widget rfl
      (by decide) (by decide) hsecrets
  have hsecret : importBody secretsSettings { secretsImport with pending := [] } ⟨1, secretSchema⟩ =
      (.ok (), secretsRead) := by
    have hb : bodyContext secretsSettings secretsImport.model ⟨1, secretSchema⟩ = ⟨1, false, [], []⟩ :=
      bodyContext_bare rfl
    exact importBody_one (i := { secretsImport with pending := [] }) hb rfl (by decide)
      (by decide) hname
  exact .read (i := register {} widget) rfl hwidget
    (.read (i := secretsImport) rfl hsecret (.done rfl))

def localReference : QualifiedName := ⟨"LocalObjectReference", "core", some "v1"⟩

theorem infer_secret : Signature.infer {} "imagePullSecrets" secretSchema = some localReference := by
  decide

/-- The import of the widget with its queue read, when types are inferred. -/
def inferredRead : Importer :=
  { register {} widget with
    pending := []
    model := (register {} widget).model.setProperties 0 [{
      name := "imagePullSecrets", type := .list (.ref localReference), required := false }] }

theorem empties_inferred : Empties (settings [] {}) (registered [widget]) [⟨0, widgetSchema⟩]
    inferredRead := by
  rw [registered_widget]
  have hsecrets : importProperty (settings [] {}) { register {} widget with pending := [] } 0
      "imagePullSecrets" none secretsSchema = (.ok (.list (.ref localReference)),
        { register {} widget with pending := [] }) :=
    importProperty_items secrets_shape (importProperty_inferred secret_isObject infer_secret)
  have hwidget : importBody (settings [] {}) { register {} widget with pending := [] }
      ⟨0, widgetSchema⟩ = (.ok (), inferredRead) :=
    importBody_one (i := { register {} widget with pending := [] }) bodyContext_widget rfl
      (by decide) (by decide) hsecrets
  exact .read (i := register {} widget) rfl hwidget (.done rfl)

theorem tidy_widget : Tidy (settings [] {}) ([widget].filterMap root?) := by
  intro s hsource
  cases hsource with
  | definition hd => cases hd
  | replacement hr => cases hr
  | root hr hinside =>
    obtain rfl := List.mem_singleton.mp hr
    rcases hinside.cases_record rfl with rfl | ⟨declared, hmem, hinside⟩
    · decide
    · obtain rfl := List.mem_singleton.mp hmem
      rcases Relation.ReflTransGen.cases_tail hinside with heq | ⟨u, hinside, hpart⟩
      · rw [← heq]
        decide
      · have hsecret : u = secretSchema := by
          cases hpart with
          | property h => cases h
          | item h => exact (Option.some.inj h).symm
          | value h => cases h
          | wrapped h => cases h
        rw [hsecret] at hinside
        rcases Schema.Inside.cases_flat hinside rfl (by simp [secretSchema, Schema.isLeaf]) with rfl | hleaf
        · decide
        · exact Schema.isLeaf_names hleaf

/-- The secrets of the widget are taken for references to objects of its namespace. -/
theorem compile_abridges_widget :
    let bodies : List Pending := [⟨0, widgetSchema⟩, ⟨1, secretSchema⟩]
    let m := secretsRead.model.finalize
    let m' := inferredRead.model.finalize
    let inferred := inferred? (some {}) m bodies
    Tidy (settings [] {}) ([widget].filterMap root?) ∧
      compile [widget] [] (Config.withoutInference {}) = .ok m ∧
      Empties (settings [] (Config.withoutInference {})) (registered [widget]) bodies secretsRead ∧
      compile [widget] [] {} = .ok m' ∧
      m.types.size = 2 ∧ (m.propertiesOf 0).map Property.type = [.list (.type 1)] ∧
      inferred 1 = some ⟨"LocalObjectReference", "core", some "v1"⟩ ∧
      m'.types.size = 1 ∧ (m'.propertiesOf 0).map Property.type =
        [.list (.ref ⟨"LocalObjectReference", "core", some "v1"⟩)] ∧
      ∃ f, m.Abridges m' inferred f ∧ f 0 = 0 := by
  intro bodies m m' inferred
  have hok : compile [widget] [] (Config.withoutInference {}) = .ok m :=
    empties_widget.finish_eq (by decide)
  have hok' : compile [widget] [] {} = .ok m' := empties_inferred.finish_eq (by decide)
  obtain ⟨read, k, m'', f, hread, -, hm'', hf⟩ := compile_abridges tidy_widget hok
  obtain ⟨rfl, rfl⟩ := hread.unique empties_widget
  obtain rfl := Except.ok.inj (hok'.symm.trans hm'')
  refine ⟨tidy_widget, hok, empties_widget, hok', ?_, ?_, ?_, ?_, ?_, f, hf, ?_⟩
  · decide +kernel
  · decide +kernel
  · decide +kernel
  · decide
  · decide +kernel
  · have hname : m.named? ⟨"apps", none⟩ "Widget" = some 0 := by decide +kernel
    have hname' : m'.named? ⟨"apps", none⟩ "Widget" = some 0 := by decide
    exact (hf.counterpart.mp (.named hname hname')).2

end CustomResource

end SchemaCompiler
