import SchemaCompiler.CustomResource
import SchemaCompiler.OpenApi
import SchemaCompiler.Proofs.Schema.RoundTrip

/-! Documents and definitions of custom resources are read back as they were written. -/

namespace SchemaCompiler

open Value (Fields Record ifAny)

variable {d : Dialect} {room n : Nat} {v : Value}

namespace OpenApiDocument

/-- The schemas come in the order of their keys, and in each the maps are in order. -/
def Sorted (schemas : Table String Schema) : Prop :=
  schemas.Ordered ∧ ∀ e ∈ schemas, e.2.Ordered

structure Proper (doc : OpenApiDocument) : Prop where
  definitions : Sorted doc.definitions
  components : ∀ schemas, doc.components = some schemas → Sorted schemas

def componentsValue (schemas : Table String Schema) : Value :=
  .map (Value.field "schemas" (schemasValue schemas))

def written (doc : OpenApiDocument) : Record := [
  ("swagger", doc.swagger.map .text),
  ("openapi", doc.openapi.map .text),
  ("info", doc.info.map DocumentInfo.toValue),
  ("definitions", ifAny schemasValue doc.definitions),
  ("components", doc.components.map componentsValue)]

variable {doc : OpenApiDocument} {schemas : Table String Schema}

theorem toValue_eq (doc : OpenApiDocument) : doc.toValue = .map doc.written.entries := by
  simp only [toValue, Value.fieldIfSome_eq, Value.fieldIfAny_eq, ← Record.entries_append]
  rfl

/-- Everything that is written fits in `n` containers. -/
structure Fits (n : Nat) (doc : OpenApiDocument) : Prop where
  info : ∀ i, doc.info = some i → i.toValue.depth ≤ n
  definitions : doc.definitions ≠ [] → (schemasValue doc.definitions).depth ≤ n
  components : ∀ schemas, doc.components = some schemas → (componentsValue schemas).depth ≤ n

theorem depth_toValue_le_iff : doc.toValue.depth ≤ n + 1 ↔ doc.Fits n := by
  rw [toValue_eq, Value.depth_entries_le_iff]
  simp only [written, List.forall_mem_cons, Value.forall_ifAny, Value.forall_map]
  constructor
  · rintro ⟨-, -, hinfo, hdefinitions, hcomponents, -⟩
    exact ⟨hinfo, hdefinitions, hcomponents⟩
  · rintro ⟨hinfo, hdefinitions, hcomponents⟩
    exact ⟨by simp [Value.depth], by simp [Value.depth], hinfo, hdefinitions, hcomponents, by simp⟩

theorem depth_componentsValue_le_iff :
    (componentsValue schemas).depth ≤ n + 1 ↔ (schemasValue schemas).depth ≤ n := by
  change (Value.map (Record.entries [("schemas", some (schemasValue schemas))])).depth ≤ n + 1 ↔ _
  rw [Value.depth_entries_le_iff]
  simp

theorem schemaTable?_schemasValue (h : Sorted schemas) (hdepth : (schemasValue schemas).depth ≤ room) :
    schemaTable? d room (schemasValue schemas) = some schemas :=
  Schema.table?_propertyEntries h.1 hdepth fun e he => Schema.decode_toValue (h.2 e he)

theorem info_toValue (i : DocumentInfo) (hroom : 0 < room) :
    DocumentInfo.ofValue? d room i.toValue = some i := by
  obtain ⟨fields, hrecord, hlookup⟩ := Record.read (d := d) ["title", "version"] _
    (r := [("title", some (.text i.title)), ("version", some (.text i.version))]) rfl (by decide) hroom
  refine Option.bind_eq_some_iff.mpr ⟨fields, hrecord, ?_⟩
  simp only [Option.bind_eq_bind, Option.bind_eq_some_iff]
  exact ⟨_, Fields.require_eq (hlookup _) rfl, _, Fields.require_eq (hlookup _) rfl, rfl⟩

theorem components?_componentsValue (h : Sorted schemas)
    (hdepth : (componentsValue schemas).depth ≤ room) :
    components? d room (componentsValue schemas) = some schemas := by
  have hpos : 0 < room := Nat.lt_of_lt_of_le (Value.depth_pos_map _) hdepth
  obtain ⟨room, rfl⟩ := Nat.exists_eq_add_of_le' hpos
  have hdepth := depth_componentsValue_le_iff.mp hdepth
  obtain ⟨fields, hrecord, hlookup⟩ := Record.read (d := d) ["schemas"] _
    (r := [("schemas", some (schemasValue schemas))]) rfl (by decide) hpos
  simp only [components?, Option.bind_eq_bind, Option.bind_eq_some_iff]
  exact ⟨fields, hrecord, Fields.optional_eq (hlookup _) (schemaTable?_schemasValue h hdepth)⟩

theorem decode_toValue (h : doc.Proper) (hdepth : doc.toValue.depth ≤ room) :
    decode d room doc.toValue = some doc := by
  have hpos : 0 < room := by
    rw [toValue_eq] at hdepth
    exact Nat.lt_of_lt_of_le (Value.depth_pos_map _) hdepth
  obtain ⟨room, rfl⟩ := Nat.exists_eq_add_of_le' hpos
  have hfits := depth_toValue_le_iff.mp hdepth
  obtain ⟨fields, hrecord, hlookup⟩ := Record.read (d := d) (r := doc.written)
    ["swagger", "openapi", "info", "definitions", "components"] _ rfl (by decide) hpos
  rw [← toValue_eq] at hrecord
  refine Option.bind_eq_some_iff.mpr ⟨fields, hrecord, ?_⟩
  simp only [Option.bind_eq_bind, Option.bind_eq_some_iff]
  refine ⟨_, Fields.option_eq (hlookup _) fun _ _ => ⟨rfl, rfl⟩,
    _, Fields.option_eq (hlookup _) fun _ _ => ⟨rfl, rfl⟩,
    _, Fields.option_eq (hlookup _) fun i hi =>
      ⟨rfl, info_toValue i (Nat.lt_of_lt_of_le (Value.depth_pos_map _) (hfits.info i hi))⟩,
    _, Fields.optional_any (hlookup _) fun hany =>
      schemaTable?_schemasValue h.definitions (hfits.definitions hany),
    _, Fields.option_eq (hlookup _) fun schemas hs =>
      ⟨rfl, components?_componentsValue (h.components schemas hs) (hfits.components schemas hs)⟩, rfl⟩

theorem schemaTable_ok {fields : Fields} {key : String}
    (h : fields.optional key [] (schemaTable? d room) = some schemas) :
    Sorted schemas ∧ (schemas ≠ [] → (schemasValue schemas).depth ≤ room) := by
  obtain ⟨hordered, hroom, hread⟩ := Schema.table_of_optional h
  have hentry : ∀ e ∈ schemas, e.2.Ordered ∧ e.2.toValue.depth ≤ room - 1 := fun e he =>
    Schema.decode_ok (hread e he).choose_spec
  refine ⟨⟨hordered, fun e he => (hentry e he).1⟩, fun hany => ?_⟩
  obtain ⟨room, rfl⟩ := Nat.exists_eq_add_of_le' (hroom hany)
  exact Schema.depth_propertyEntries_le.mpr fun e he => (hentry e he).2

theorem decode_ok (h : decode d room v = some doc) : doc.Proper ∧ doc.toValue.depth ≤ max room 3 := by
  obtain ⟨fields, hrecord, h⟩ := Option.bind_eq_some_iff.mp h
  simp only [Option.bind_eq_bind, Option.bind_eq_some_iff] at h
  obtain ⟨swagger, hswagger, openapi, hopenapi, info, hinfo, definitions, hdefinitions, components,
    hcomponents, h⟩ := h
  obtain rfl := Option.some.inj h
  obtain ⟨hsorted, hdefinitions⟩ := schemaTable_ok hdefinitions
  have hcomponents : ∀ schemas, components = some schemas →
      Sorted schemas ∧ (componentsValue schemas).depth ≤ max (room - 1) 2 := by
    intro schemas hs
    obtain ⟨w, hw⟩ := Fields.read_of_option hcomponents schemas hs
    simp only [components?, Option.bind_eq_bind, Option.bind_eq_some_iff] at hw
    obtain ⟨fields, hfields, hw⟩ := hw
    obtain ⟨hsorted, hdepth⟩ := schemaTable_ok hw
    refine ⟨hsorted, ?_⟩
    rcases eq_or_ne schemas [] with rfl | hany
    · exact Nat.le_max_right _ _
    · have hdepth := hdepth hany
      have hpos := Nat.lt_of_lt_of_le (Value.depth_pos_map _) hdepth
      have hle := depth_componentsValue_le_iff.mpr hdepth
      omega
  have hfits : Fits (max (room - 1) 2) { swagger, openapi, info, definitions, components } :=
    ⟨fun i _ => Nat.le_trans (by decide : 1 ≤ 2) (Nat.le_max_right _ _),
      fun hany => Nat.le_trans (hdefinitions hany) (Nat.le_max_left _ _),
      fun schemas hs => (hcomponents schemas hs).2⟩
  have hdepth := depth_toValue_le_iff.mpr hfits
  exact ⟨⟨hsorted, fun schemas hs => (hcomponents schemas hs).1⟩, by omega⟩

theorem roundTrips : RoundTrips decode toValue Proper where
  decode_toValue _ _ _ hdoc hdepth := decode_toValue hdoc hdepth
  decode_again _ _ _ _ _ _ h hdepth := decode_toValue (decode_ok h).1 hdepth
  depth_le _ _ _ _ h := (decode_ok h).2

end OpenApiDocument

namespace CustomResource

/-- In the schema of each version the maps are in order. -/
def Proper (r : CustomResource) : Prop :=
  ∀ version ∈ r.versions, ∀ s, version.schema = some s → s.Ordered

def validationValue (s : Schema) : Value :=
  .map (Value.field "openAPIV3Schema" s.toValue)

/-- The fields that a version is written with. -/
def writtenVersion (version : ResourceVersion) : Record := [
  ("name", some (.text version.name)),
  ("served", some (.bool version.served)),
  ("storage", some (.bool version.storage)),
  ("schema", some ((version.schema.map validationValue).getD .null))]

def writtenSpec (r : CustomResource) : Record := [
  ("group", some (.text r.group)),
  ("names", some (namesValue r.names)),
  ("scope", some (.text r.scope)),
  ("versions", some (.seq (r.versions.map versionValue)))]

def written (r : CustomResource) : Record := [
  ("apiVersion", some (.text r.apiVersion)),
  ("kind", some (.text r.kind)),
  ("metadata", some (.map (Record.entries [("name", some (.text r.metadataName))]))),
  ("spec", some (.map (writtenSpec r).entries))]

variable {r : CustomResource} {version : ResourceVersion} {s : Schema}

theorem toValue_eq (r : CustomResource) : r.toValue = .map r.written.entries := rfl

theorem versionValue_eq (version : ResourceVersion) :
    versionValue version = .map (writtenVersion version).entries := by
  rw [versionValue, writtenVersion]
  cases version.schema <;> rfl

theorem depth_validationValue (s : Schema) : (validationValue s).depth = s.toValue.depth + 1 := by
  simp [validationValue, Value.field, Value.depth, Value.entriesDepth]

theorem depth_versionValue_le_iff : (versionValue version).depth ≤ n + 1 ↔
    ∀ s, version.schema = some s → (validationValue s).depth ≤ n := by
  rw [versionValue_eq, Value.depth_entries_le_iff, writtenVersion]
  cases version.schema <;> simp [Value.depth]

theorem depth_toValue (r : CustomResource) :
    r.toValue.depth = max 3 ((Value.seq (r.versions.map versionValue)).depth + 2) := by
  have hoption : ∀ o, (optionValue o).depth = 0 := by rintro (_ | _) <;> rfl
  simp only [toValue, namesValue, Value.field, List.cons_append, List.nil_append, Value.depth,
    Value.entriesDepth, hoption]
  omega

/-! Reading what was written. -/

theorem decode_namesValue (names : ResourceNames) (hroom : 0 < room) :
    ResourceNames.decode d room (namesValue names) = some names := by
  obtain ⟨fields, hrecord, hlookup⟩ := Record.read (d := d)
    ["kind", "plural", "singular", "listKind"] _
    (r := [("kind", some (.text names.kind)), ("plural", some (.text names.plural)),
      ("singular", some (optionValue names.singular)), ("listKind", some (optionValue names.listKind))])
    rfl (by decide) hroom
  simp only [ResourceNames.decode, Option.bind_eq_bind, Option.bind_eq_some_iff]
  exact ⟨fields, hrecord, _, Fields.require_eq (hlookup _) rfl, _, Fields.require_eq (hlookup _) rfl,
    _, Fields.option_null (hlookup _) fun _ _ => ⟨rfl, rfl⟩,
    _, Fields.option_null (hlookup _) fun _ _ => ⟨rfl, rfl⟩, rfl⟩

theorem decode_validationValue (hs : s.Ordered) (hdepth : (validationValue s).depth ≤ room) :
    ResourceVersion.decodeValidation d room (validationValue s) = some s := by
  have hpos := Nat.lt_of_lt_of_le (Value.depth_pos_map _) hdepth
  rw [depth_validationValue] at hdepth
  obtain ⟨fields, hrecord, hlookup⟩ := Record.read (d := d) ["openAPIV3Schema"] _
    (r := [("openAPIV3Schema", some s.toValue)]) rfl (by decide) hpos
  simp only [ResourceVersion.decodeValidation, Option.bind_eq_bind, Option.bind_eq_some_iff]
  exact ⟨fields, hrecord, Fields.require_eq (hlookup _) (Schema.decode_toValue hs (by omega))⟩

theorem decode_versionValue (h : ∀ s, version.schema = some s → s.Ordered)
    (hdepth : (versionValue version).depth ≤ room) :
    ResourceVersion.decode d room (versionValue version) = some version := by
  have hpos : 0 < room := Nat.lt_of_lt_of_le (Value.depth_pos_map _) hdepth
  obtain ⟨room, rfl⟩ := Nat.exists_eq_add_one.mpr hpos
  have hdepth := depth_versionValue_le_iff.mp hdepth
  obtain ⟨fields, hrecord, hlookup⟩ := Record.read (d := d) (r := writtenVersion version)
    ["name", "served", "storage", "schema"] _ rfl (by decide) hpos
  rw [← versionValue_eq] at hrecord
  simp only [ResourceVersion.decode, Option.bind_eq_bind, Option.bind_eq_some_iff]
  exact ⟨fields, hrecord, _, Fields.require_eq (hlookup _) rfl, _, Fields.optional_eq (hlookup _) rfl,
    _, Fields.optional_eq (hlookup _) rfl, _, Fields.option_null (hlookup _) fun s hs =>
      ⟨rfl, decode_validationValue (h s hs) (hdepth s hs)⟩, rfl⟩

theorem decode_toValue (h : r.Proper) (hdepth : r.toValue.depth ≤ room) :
    decode d room r.toValue = some r := by
  rw [depth_toValue, Nat.max_le] at hdepth
  obtain ⟨hroom, hdepth⟩ := hdepth
  obtain ⟨fields, hrecord, hlookup⟩ := Record.read (d := d) (r := r.written)
    ["apiVersion", "kind", "metadata", "spec"] room rfl (by decide) (by omega)
  obtain ⟨metadata, hmetadata, hname⟩ := Record.read (d := d) ["name"] (room - 1)
    (r := [("name", some (.text r.metadataName))]) rfl (by decide) (by omega)
  obtain ⟨spec, hspec, hfield⟩ := Record.read (d := d) (r := r.writtenSpec)
    ["group", "names", "scope", "versions"] (room - 1) rfl (by decide) (by omega)
  have hmetadata : decodeMetadata d (room - 1)
      (.map (Record.entries [("name", some (.text r.metadataName))])) = some r.metadataName := by
    simp only [decodeMetadata, Option.bind_eq_bind, Option.bind_eq_some_iff]
    exact ⟨metadata, hmetadata, Fields.optional_eq (hname _) rfl⟩
  rw [toValue_eq]
  simp only [decode, Option.bind_eq_bind, Option.bind_eq_some_iff]
  exact ⟨fields, hrecord, _, Fields.optional_eq (hlookup _) rfl, _, Fields.require_eq (hlookup _) rfl,
    _, Fields.optional_eq (hlookup _) hmetadata, spec, Fields.require_eq (hlookup _) hspec,
    _, Fields.require_eq (hfield _) rfl,
    _, Fields.require_eq (hfield _) (decode_namesValue r.names (by omega)),
    _, Fields.require_eq (hfield _) rfl,
    _, Fields.optional_eq (hfield _) (Schema.list?_map (by omega) fun version hversion =>
      decode_versionValue (h version hversion)), rfl⟩

/-! What was read. -/

theorem version_ok (h : ResourceVersion.decode d room v = some version) :
    (versionValue version).depth ≤ room ∧ ∀ s, version.schema = some s → s.Ordered := by
  simp only [ResourceVersion.decode, Option.bind_eq_bind, Option.bind_eq_some_iff] at h
  obtain ⟨fields, hrecord, name, hname, served, -, storage, -, schema, hschema, h⟩ := h
  obtain rfl := Option.some.inj h
  have hpos := Value.room_of_record? hrecord (Fields.ne_nil_of_require hname)
  have hread : ∀ s, schema = some s → s.Ordered ∧ (validationValue s).depth ≤ room - 1 := by
    intro s hs
    obtain ⟨w, hw⟩ := Fields.read_of_option hschema s hs
    simp only [ResourceVersion.decodeValidation, Option.bind_eq_bind, Option.bind_eq_some_iff] at hw
    obtain ⟨fields, -, hw⟩ := hw
    obtain ⟨w, hw⟩ := Fields.read_of_require hw
    obtain ⟨hordered, hdepth⟩ := Schema.decode_ok hw
    have hdeep := s.depth_pos
    rw [depth_validationValue]
    exact ⟨hordered, by omega⟩
  obtain ⟨room, rfl⟩ := Nat.exists_eq_add_one.mpr hpos
  exact ⟨depth_versionValue_le_iff.mpr fun s hs => (hread s hs).2, fun s hs => (hread s hs).1⟩

theorem decode_ok (h : decode d room v = some r) : r.Proper ∧ r.toValue.depth ≤ room := by
  simp only [decode, Option.bind_eq_bind, Option.bind_eq_some_iff] at h
  obtain ⟨fields, -, apiVersion, -, kind, -, metadataName, -, spec, -, group, -, names, hnames, scope, -,
    versions, hversions, h⟩ := h
  obtain rfl := Option.some.inj h
  obtain ⟨w, hw⟩ := Fields.read_of_require hnames
  simp only [ResourceNames.decode, Option.bind_eq_bind, Option.bind_eq_some_iff] at hw
  obtain ⟨named, hrecord, kind', hkind, -⟩ := hw
  have hroom := Value.room_of_record? hrecord (Fields.ne_nil_of_require hkind)
  obtain ⟨-, hread⟩ := Schema.list_of_optional hversions
  have hversion : ∀ version ∈ versions, (versionValue version).depth ≤ room - 3 ∧
      ∀ s, version.schema = some s → s.Ordered := fun version hv =>
    version_ok (hread version hv).choose_spec
  refine ⟨fun version hv => (hversion version hv).2, ?_⟩
  have hseq : (Value.seq (versions.map versionValue)).depth ≤ room - 3 + 1 := by
    rw [Value.depth_seq_le_iff, List.forall_mem_map]
    exact fun version hv => (hversion version hv).1
  rw [depth_toValue]
  exact Nat.max_le.mpr ⟨by omega, Nat.le_trans (Nat.add_le_add_right hseq 2) (by omega)⟩

theorem roundTrips : RoundTrips decode toValue Proper where
  decode_toValue _ _ _ hr hdepth := decode_toValue hr hdepth
  decode_again _ _ _ _ _ _ h hdepth := decode_toValue (decode_ok h).1 hdepth
  depth_le _ _ _ _ h := Nat.le_trans (decode_ok h).2 (Nat.le_max_left _ _)

end CustomResource

/-- Schemas, documents and definitions of custom resources are read back as they were written. -/
theorem documents_roundTrip :
    RoundTrips Schema.decode Schema.toValue Schema.Ordered ∧
    RoundTrips OpenApiDocument.decode OpenApiDocument.toValue OpenApiDocument.Proper ∧
    RoundTrips CustomResource.decode CustomResource.toValue CustomResource.Proper :=
  ⟨Schema.roundTrips, OpenApiDocument.roundTrips, CustomResource.roundTrips⟩

end SchemaCompiler
