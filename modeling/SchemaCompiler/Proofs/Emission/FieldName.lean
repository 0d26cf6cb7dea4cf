import SchemaCompiler.Proofs.Emission.Reference
import SchemaCompiler.Proofs.Import.Context
import SchemaCompiler.Proofs.Model.Integrity

/-! Field names in emitted structs. A struct has a field for each property of every type that it stands
for, called as the overrides of the type that was retained have it. -/

namespace SchemaCompiler

namespace Model

variable {m : Model} {key : GroupKey} {i : TypeId}

/-- An object has properties of the same names as the one that stands for it. -/
theorem WellFormed.names_resolve (h : m.WellFormed) (hlive : ∀ i, m.mergedInto? i = none) (i : TypeId) :
    (m.propertiesOf (m.finalize.resolve i)).map Property.name =
      (m.propertiesOf i).map Property.name := by
  by_cases hfiled : ∃ key, m.Filed key i
  · obtain ⟨key, short, hi⟩ := hfiled
    have hkey := h.filed hi
    obtain ⟨g, hg⟩ := h.mem_keys.mp (h.key_mem hkey)
    have hresolved : m.groupOf? (m.finalize.resolve i) = some key := by
      rw [← h.groupOf?_finalize, h.finalize.groupOf?_resolve, h.groupOf?_finalize, hkey]
    obtain ⟨before, hwf, hg', hspares, hbucket, hresolve⟩ := h.resolve_finalize hg
    have hliving : ∀ i, before.Filed key i → before.mergedInto? i = none := by
      rintro i ⟨short, hi⟩
      rw [hbucket] at hi
      rw [mergedInto?, hspares.types i (h.filed hi), ← mergedInto?, hlive]
    have hproperties : ∀ i, m.groupOf? i = some key →
        (before.merging g).propertiesOf i = m.propertiesOf i := fun i hi =>
      ((hwf.merging hg').propertiesOf i).trans (hspares.propertiesOf hi)
    have hstructure := hwf.structureOf_resolve_merging hg' hliving ⟨short, by rw [hbucket]; exact hi⟩
    rw [← hresolve i hkey, structureOf_eq_map, structureOf_eq_map, hproperties i hkey,
      hproperties _ hresolved] at hstructure
    have hnames := congrArg (List.map Prod.fst) hstructure
    rw [List.map_map, List.map_map] at hnames
    exact hnames.symm
  · rw [h.unfiled_finalize (not_exists.mp hfiled)]

end Model

/-- The name of the property that the field is for. -/
def Field.property (f : Field) : String := f.rename.getD f.name

theorem Spelling.property_field (s : Spelling) (x : Property) (current : TypeId) :
    (s.field current x).property = x.name := by
  rw [field, Field.property]
  split
  · next h => exact beq_iff_eq.mp h
  · rfl

namespace Emission

open Importer
open Model (ofChanges wellFormed_ofChanges)

/-- `fields` are the fields of the struct that stands for the type `id`. -/
def StructFor (m : Model) (apiModule : String) (id : TypeId) (fields : List Field) : Prop :=
  ∃ group view item resource, m.groupOf? id = some group ∧ m.finalized? group = some view ∧
    item ∈ groupItems m apiModule view ∧ item.id = m.resolve id ∧ item.body = .record fields resource

variable {m : Model} {apiModule : String} {id : TypeId} {fields : List Field}

theorem StructFor.fields_eq (h : StructFor m apiModule id fields) :
    ∃ s : Spelling, fields = (m.propertiesOf (m.resolve id)).map (s.field (m.resolve id)) := by
  obtain ⟨group, view, item, resource, -, -, hitem, hid, hbody⟩ := h
  obtain ⟨-, t, ht, heq⟩ := mem_groupItems.mp hitem
  refine ⟨spelling m apiModule view, ?_⟩
  rw [heq, Spelling.itemBody] at hbody
  rw [← hid, Model.propertiesOf, ht]
  split at hbody <;> cases hbody <;> rfl

/-- The type that stands for a registered one is emitted as a synonym or as a struct. -/
theorem exists_struct (h : m.Finished) (apiModule : String) (hid : id < m.types.size) :
    (∃ target, m.kind? (m.resolve id) = some (.synonym target)) ∨
      ∃ fields, StructFor m apiModule id fields := by
  obtain ⟨t, ht, hgroup⟩ := h.wellFormed.exists_resolved hid
  obtain ⟨view, item, hview, hitem, -, hsole⟩ :=
    exists_item h apiModule ht (h.wellFormed.mergedInto?_resolve id)
  have hmem : item ∈ groupItems m apiModule view := mem_of_filter_eq_singleton hsole
  obtain ⟨-, t', ht', hbody⟩ := mem_groupItems.mp hmem
  rw [hitem, ht] at ht'
  obtain rfl := Option.some.inj ht'
  have hbody : item.body = (spelling m apiModule view).itemBody item.id t := by rw [hbody]
  rw [Spelling.itemBody] at hbody
  split at hbody
  · next target hkind => exact .inl ⟨target, by rw [Model.kind?, ht, Option.map_some, hkind]⟩
  · exact .inr ⟨_, t.group, view, item, _, hgroup, hview, hmem, hitem, hbody⟩
  · exact .inr ⟨_, t.group, view, item, _, hgroup, hview, hmem, hitem, hbody⟩

variable {c : ImportSettings} {i k : Importer} {p p' : Pending} {b b' : BodyContext} {calls : List Call}

section Import

variable (hcalls : Calls c {} calls i) (hdrain : i.drain c = (.ok (), k))

include hcalls hdrain

theorem exists_changes_of_calls : ∃ cs : List Change, (∀ c ∈ cs, c.Registers) ∧
    k.model = Model.ofChanges cs := by
  obtain ⟨bodies, hempties, -⟩ := empties_of_run hdrain
  exact hcalls.makes.trans hempties.makes

/-- The type that stands for one whose body is read has its body read as well. -/
theorem exists_readAs_resolve (hread : ReadAs c i p b) :
    ∃ p' b', ReadAs c i p' b' ∧ p'.id = k.model.finalize.resolve p.id := by
  obtain ⟨cs, hcs, hk⟩ := exists_changes_of_calls hcalls hdrain
  have hwf : k.model.WellFormed := hk ▸ wellFormed_ofChanges cs
  by_cases hfiled : ∃ key, k.model.Filed key p.id
  · obtain ⟨key, short, hp⟩ := hfiled
    have hr : k.model.Filed key (k.model.finalize.resolve p.id) := by
      refine ⟨short, ?_⟩
      rw [← hwf.bucket_finalize] at hp ⊢
      exact hwf.finalize.resolve_mem hp
    have hready := (hcalls.step ready_empty).ready
    rcases (drains_of_run hdrain).objects_read hready (fun _ => False)
      (fun hid => .inr (hcalls.backed hid)) hr with hfalse | ⟨p', b', hid, hread'⟩
    · exact hfalse.elim
    · exact ⟨p', b', hread', hid⟩
  · exact ⟨p, b, hread, (hwf.unfiled_finalize (not_exists.mp hfiled)).symm⟩

/-- A struct has a field for every property that is kept of each type it stands for. All its fields
have the names that they have for the type that was retained, whatever they are to be called for the
others, so that a type gets the names that were given for it just if the retained one gets the same. -/
theorem structs_show_retained_names (hread : ReadAs c i p b) (apiModule : String) :
    ((∃ target, k.model.kind? (k.model.finalize.resolve p.id) = some (.synonym target)) ∨
      ∃ fields, StructFor k.model.finalize apiModule p.id fields) ∧
    (∃ p' b', ReadAs c i p' b' ∧ p'.id = k.model.finalize.resolve p.id) ∧
    ∀ fields, StructFor k.model.finalize apiModule p.id fields →
      (∀ name, name ∈ fields.map Field.property ↔
        name ∈ p.schema.properties.map Prod.fst ∧ b.keeps name = true) ∧
      ∀ p' b', ReadAs c i p' b' → p'.id = k.model.finalize.resolve p.id →
        (∀ f ∈ fields, f.name = b'.fieldName f.property) ∧
        ((∀ f ∈ fields, f.name = b.fieldName f.property) ↔
          ∀ name ∈ fields.map Field.property, b.fieldName name = b'.fieldName name) := by
  obtain ⟨cs, hcs, hk⟩ := exists_changes_of_calls hcalls hdrain
  have hwf : k.model.WellFormed := hk ▸ wellFormed_ofChanges cs
  have hlive : ∀ i, k.model.mergedInto? i = none := hk ▸ (Model.unfinalized_ofChanges hcs).live
  have hready := (hcalls.step ready_empty).ready
  have hdrains := drains_of_run hdrain
  have hcalled := hread.called hready hdrains
  have hfinished : k.model.finalize.Finished := hk ▸ Model.finished_finalize cs
  refine ⟨?_, exists_readAs_resolve hcalls hdrain hread, fun fields hfields => ?_⟩
  · have hid : p.id < k.model.finalize.types.size := Nat.lt_of_lt_of_eq hcalled.lt hwf.size_finalize.symm
    rw [← hwf.kind?_finalize]
    exact exists_struct hfinished apiModule hid
  · obtain ⟨s, rfl⟩ := hfields.fields_eq
    rw [hwf.propertiesOf_finalize]
    have hname : Field.property ∘ s.field (k.model.finalize.resolve p.id) = Property.name :=
      funext fun x => s.property_field x _
    refine ⟨fun name => ?_, fun p' b' hread' hid => ?_⟩
    · rw [List.map_map, hname, hwf.names_resolve hlive, hcalled.names]
    · have hcalled' := hread'.called hready hdrains
      rw [← hid] at hname ⊢
      have hretained : ∀ f ∈ (k.model.propertiesOf p'.id).map (s.field p'.id),
          f.name = b'.fieldName f.property := by
        rw [List.forall_mem_map]
        intro x hx
        rw [s.property_field]
        exact hcalled'.fieldName x hx
      refine ⟨hretained, ?_⟩
      rw [List.forall_mem_map (f := Field.property)]
      exact forall₂_congr fun f hf => by rw [hretained f hf, eq_comm]

end Import

end Emission

/-! Two resources with equal objects, each of which calls the field of its object in its own way. -/

namespace EqualSettings

open Importer
open Emission (StructFor exists_changes_of_calls exists_struct structs_show_retained_names)

def group : GroupKey := ⟨"cert-manager.io", none⟩

def mode : Schema where
  properties := [("mode", { type := some "string" })]

def owner : Schema where
  properties := [("spec", mode)]

def certificate : Root := ⟨group, "Certificate", .resource, owner⟩

def issuer : Root := ⟨group, "Issuer", .resource, owner⟩

def settings : ImportSettings where
  annotations := [
    ("Certificate", [("spec", .patch { typeName := some "Settings" })]),
    ("CertificateSettings", [("mode", .patch { fieldName := some "certificate_mode" })]),
    ("Issuer", [("spec", .patch { typeName := some "Settings" })]),
    ("IssuerSettings", [("mode", .patch { fieldName := some "issuer_mode" })])]

/-- The resources before the queue is read. -/
def registered : Importer :=
  let i : Importer := {}
  let i := (i.registerRoot group "Certificate" .resource owner).2
  (i.registerRoot group "Issuer" .resource owner).2

/-- The state after the body of a resource has been read. -/
def withObject (i : Importer) (id object : TypeId) (rest : List Pending) : Importer :=
  let j := { i with pending := rest }.registerObject id "spec" (some "Settings") mode
  { j with model := j.model.setProperties id [{ name := "spec", type := .type object, required := false }] }

/-- The state after the body of an object has been read. -/
def withMode (i : Importer) (id : TypeId) (name : String) (rest : List Pending) : Importer :=
  { i with
    pending := rest
    model := i.model.setProperties id [{
      name := "mode", type := .primitive .string, required := false, given := some name }] }

def first : Importer := withObject registered 0 2 [⟨1, owner⟩]

def second : Importer := withObject first 1 3 [⟨2, mode⟩]

def third : Importer := withMode second 2 "certificate_mode" [⟨3, mode⟩]

def last : Importer := withMode third 3 "issuer_mode" []

theorem mode_isObject : mode.IsObject :=
  ⟨"", [("mode", { type := some "string" })], by simp [mode, Schema.shape, Schema.markedShape]⟩

section Read

variable {i : Importer} {id object : TypeId} {rest : List Pending} {b : BodyContext} {name : String}

theorem reads_owner (hb : bodyContext settings i.model ⟨id, owner⟩ = b) (hid : b.id = id)
    (hrequired : b.required = []) (hkeep : b.keeps "spec" = true)
    (hpatch : b.patch "spec" = { typeName := some "Settings" }) (hobject : i.model.types.size = object) :
    importBody settings { i with pending := rest } ⟨id, owner⟩ =
      (.ok (), withObject i id object rest) := by
  have hproperty : importProperty settings { i with pending := rest } b.id "spec"
      (b.patch "spec").typeName (b.effective "spec" mode) = (.ok (.type object),
        { i with pending := rest }.registerObject id "spec" (some "Settings") mode) := by
    rw [BodyContext.effective, hpatch, hid, ← hobject]
    exact importProperty_object mode_isObject rfl
  refine (importBody_one (i := { i with pending := rest }) hb rfl hkeep rfl hproperty).trans ?_
  rw [patchedField, hpatch, hrequired]
  rfl

theorem reads_mode (hb : bodyContext settings i.model ⟨id, mode⟩ = b) (hrequired : b.required = [])
    (hkeep : b.keeps "mode" = true) (hpatch : b.patch "mode" = { fieldName := some name }) :
    importBody settings { i with pending := rest } ⟨id, mode⟩ = (.ok (), withMode i id name rest) := by
  have hproperty : importProperty settings { i with pending := rest } b.id "mode"
      (b.patch "mode").typeName (b.effective "mode" { type := some "string" }) =
        (.ok (.primitive .string), { i with pending := rest }) := by
    rw [BodyContext.effective, hpatch]
    exact importProperty_plain text_shape rfl
  refine (importBody_one (i := { i with pending := rest }) hb rfl hkeep rfl hproperty).trans ?_
  rw [patchedField, hpatch, hrequired]
  rfl

end Read

theorem calls : Calls settings {} [.root certificate, .root issuer] registered :=
  .root rfl (.root rfl (.nil _))

theorem drain_eq : registered.drain settings = (.ok (), last) := by
  have hempties : Empties settings registered
      [⟨0, owner⟩, ⟨1, owner⟩, ⟨2, mode⟩, ⟨3, mode⟩] last :=
    .read rfl (reads_owner (i := registered) rfl rfl rfl rfl rfl rfl) <|
      .read rfl (reads_owner (i := first) rfl rfl rfl rfl rfl rfl) <|
        .read rfl (reads_mode (i := second) rfl rfl rfl rfl) <|
          .read rfl (reads_mode (i := third) rfl rfl rfl rfl) (.done rfl)
  exact hempties.run (by decide)

def issuerContext : BodyContext := bodyContext settings third.model ⟨3, mode⟩

theorem readAs_issuer : ReadAs settings registered ⟨3, mode⟩ issuerContext :=
  .later rfl (reads_owner (i := registered) rfl rfl rfl rfl rfl rfl) <|
    .later rfl (reads_owner (i := first) rfl rfl rfl rfl rfl rfl) <|
      .later rfl (reads_mode (i := second) rfl rfl rfl rfl) (.here rfl)

def certificateContext : BodyContext := bodyContext settings second.model ⟨2, mode⟩

theorem readAs_certificate : ReadAs settings registered ⟨2, mode⟩ certificateContext :=
  .later rfl (reads_owner (i := registered) rfl rfl rfl rfl rfl rfl) <|
    .later rfl (reads_owner (i := first) rfl rfl rfl rfl rfl rfl) (.here rfl)

/-- The settings of the issuer are merged into those of the certificate. -/
theorem resolve_eq : last.model.finalize.resolve 3 = 2 := by decide +kernel

theorem propertiesOf_eq : last.model.finalize.propertiesOf 2 = [{
    name := "mode", type := .primitive .string, required := false, given := some "certificate_mode" }] := by
  decide +kernel

/-- The one struct has its field called as it is to be called for the certificate. -/
theorem struct_fields {fields : List Field}
    (h : StructFor last.model.finalize "k8s_models" 3 fields) :
    fields.map (fun f => (f.property, f.name)) = [("mode", "certificate_mode")] := by
  obtain ⟨s, rfl⟩ := h.fields_eq
  rw [resolve_eq, propertiesOf_eq, List.map_map]
  show [((s.field 2 _).property, _)] = _
  rw [s.property_field]
  rfl

theorem exists_struct_issuer : ∃ fields, StructFor last.model.finalize "k8s_models" 3 fields := by
  obtain ⟨cs, -, hcs⟩ := exists_changes_of_calls calls drain_eq
  have hfinished : last.model.finalize.Finished := hcs ▸ Model.finished_finalize cs
  refine (exists_struct hfinished "k8s_models" (by decide +kernel)).resolve_left ?_
  rw [resolve_eq]
  rintro ⟨target, hkind⟩
  have hobject : last.model.finalize.kind? 2 = some (.anonymous 0 "spec") := by decide +kernel
  cases hobject.symm.trans hkind

/-- The field of the settings of the issuer has the name for the settings of the certificate, and not the
one that was given for it. -/
theorem retained_name : Calls settings {} [.root certificate, .root issuer] registered ∧
    registered.drain settings = (.ok (), last) ∧
    ReadAs settings registered ⟨3, mode⟩ issuerContext ∧
    ReadAs settings registered ⟨2, mode⟩ certificateContext ∧
    last.model.finalize.resolve 3 = 2 ∧
    (∃ fields, StructFor last.model.finalize "k8s_models" 3 fields) ∧
    ∀ fields, StructFor last.model.finalize "k8s_models" 3 fields →
      fields.map (fun f => (f.property, f.name)) = [("mode", "certificate_mode")] ∧
      (∀ f ∈ fields, f.name = certificateContext.fieldName f.property) ∧
      issuerContext.fieldName "mode" = "issuer_mode" ∧
      ¬∀ f ∈ fields, f.name = issuerContext.fieldName f.property := by
  refine ⟨calls, drain_eq, readAs_issuer, readAs_certificate, resolve_eq, exists_struct_issuer, ?_⟩
  intro fields hfields
  have hshown := structs_show_retained_names calls drain_eq readAs_issuer "k8s_models"
  obtain ⟨hretained, hiff⟩ := (hshown.2.2 fields hfields).2 ⟨2, mode⟩ certificateContext
    readAs_certificate resolve_eq.symm
  have hmode : "mode" ∈ fields.map Field.property := by
    have hnames := congrArg (List.map Prod.fst) (struct_fields hfields)
    rw [List.map_map] at hnames
    exact hnames ▸ List.mem_singleton_self _
  refine ⟨struct_fields hfields, hretained, rfl, fun hissuer => ?_⟩
  have hsame : issuerContext.fieldName "mode" = certificateContext.fieldName "mode" :=
    hiff.mp hissuer "mode" hmode
  exact absurd hsame (by decide)

/-- A name that overrides give need not be the name of any field. -/
theorem name_lost : ¬∀ (c : ImportSettings) (calls : List Call) (i k : Importer) (p : Pending)
    (b : BodyContext) (fields : List Field) (name given : String),
    Calls c {} calls i → i.drain c = (.ok (), k) → ReadAs c i p b →
    name ∈ p.schema.properties.map Prod.fst → b.keeps name = true →
    (b.patch name).fieldName = some given → StructFor k.model.finalize "k8s_models" p.id fields →
    ∃ f ∈ fields, f.property = name ∧ f.name = given := by
  intro h
  obtain ⟨fields, hfields⟩ := exists_struct_issuer
  obtain ⟨f, hf, hproperty, hname⟩ := h settings _ registered last ⟨3, mode⟩ issuerContext fields "mode"
    "issuer_mode" calls drain_eq readAs_issuer (List.mem_singleton_self _) rfl rfl hfields
  have hmem : (f.property, f.name) ∈ fields.map fun f => (f.property, f.name) :=
    List.mem_map_of_mem hf
  rw [struct_fields hfields, List.mem_singleton, hproperty, hname] at hmem
  exact absurd (Prod.mk.inj hmem).2 (by decide)

end EqualSettings

end SchemaCompiler
