import SchemaCompiler.Proofs.Import.Parts
import SchemaCompiler.Proofs.Value.Record

/-! Schemas are read back as they were written. What is left out when a schema is written is what reading
takes for granted when it is not there. -/

namespace SchemaCompiler

open Value (Record Definite)

/-- What is written for a value is read as that value, in every dialect and with any room that it fits in,
and what was read once is read again. -/
structure RoundTrips {α : Type} (decode : Dialect → Nat → Value → Option α) (toValue : α → Value)
    (Proper : α → Prop) : Prop where
  decode_toValue : ∀ (d : Dialect) (room : Nat) (a : α), Proper a → (toValue a).depth ≤ room →
    decode d room (toValue a) = some a
  decode_again : ∀ (d d' : Dialect) (room room' : Nat) (v : Value) (a : α), decode d room v = some a →
    (toValue a).depth ≤ room' → decode d' room' (toValue a) = some a
  /-- Writing leaves no document that is too deep to be read, unless next to nothing could be. -/
  depth_le : ∀ (d : Dialect) (room : Nat) (v : Value) (a : α), decode d room v = some a →
    (toValue a).depth ≤ max room 3

namespace Schema

open Value (Fields ifAny texts)

/-- Every map from property names to schemas, at any depth, has its keys in order. -/
def Ordered (s : Schema) : Prop :=
  ∀ t : Schema, t.Inside s → Table.Ordered t.properties

def additionalValue : Additional Schema → Value
  | .flag allowed => .bool allowed
  | .schema s => s.toValue

/-- The fields that a schema is written with. -/
def written (s : Schema) : Record := [
  ("type", s.type.map .text),
  ("format", s.format.map .text),
  ("description", s.description.map .text),
  ("properties", ifAny (fun ps => .map (propertyEntries ps)) s.properties),
  ("required", ifAny texts s.required),
  ("items", s.items.map toValue),
  ("additionalProperties", s.additional.map additionalValue),
  ("$ref", s.reference.map .text),
  ("allOf", ifAny (fun ss => .seq (allToValue ss)) s.allOf),
  ("x-kubernetes-group-version-kind", ifAny (fun gs => .seq (gs.map GroupVersionKind.toValue)) s.kinds),
  ("x-kubernetes-preserve-unknown-fields", s.preserveUnknown.map .bool),
  ("x-kubernetes-int-or-string", s.intOrString.map .bool),
  ("x-scoped", s.namespaced.map .bool)]

variable {s t : Schema} {d : Dialect} {room n : Nat} {v : Value}

theorem ordered_iff : s.Ordered ↔ Table.Ordered s.properties ∧
    ∀ t : Schema, t.Part s → t.Ordered := by
  constructor
  · intro h
    exact ⟨h s .refl, fun t ht u hu => h u (hu.tail ht)⟩
  · rintro ⟨hs, hparts⟩ t ht
    rcases Relation.ReflTransGen.cases_tail ht with rfl | ⟨u, hu, hpart⟩
    · exact hs
    · exact hparts u hpart t hu

theorem toValue_eq (s : Schema) : s.toValue = .map s.written.entries := by
  obtain ⟨type, format, description, properties, required, items, additional, reference, allOf, kinds,
    preserve, either, namespaced⟩ := s
  have hitems : itemsField items = Record.entries [("items", items.map toValue)] := by
    cases items <;> rfl
  have hadditional : additionalField additional =
      Record.entries [("additionalProperties", additional.map additionalValue)] := by
    rcases additional with _ | _ | _ <;> rfl
  have hallOf : Value.fieldIfAny "allOf" Value.seq (allToValue allOf) =
      Record.entries [("allOf", ifAny (fun ss => .seq (allToValue ss)) allOf)] := by
    cases allOf <;> rfl
  have hkinds : Value.fieldIfAny "x-kubernetes-group-version-kind" Value.seq
      (kinds.map GroupVersionKind.toValue) = Record.entries [("x-kubernetes-group-version-kind",
        ifAny (fun gs => .seq (gs.map GroupVersionKind.toValue)) kinds)] := by
    cases kinds <;> rfl
  have hproperties : Value.fieldIfAny "properties" Value.map (propertyEntries properties) =
      Record.entries [("properties", ifAny (fun ps => .map (propertyEntries ps)) properties)] := by
    rcases properties with _ | ⟨⟨name, s⟩, ps⟩ <;> rfl
  rw [toValue]
  simp only [hitems, hadditional, hallOf, hkinds, hproperties, Value.fieldIfSome_eq,
    Value.fieldIfAny_eq, ← Record.entries_append]
  rfl

theorem written_names (s : Schema) : s.written.map Prod.fst = fieldNames := rfl

theorem nodup_fieldNames : fieldNames.Nodup := by decide

theorem propertyEntries_eq (ps : List (String × Schema)) :
    propertyEntries ps = ps.map fun f => (.text f.1, f.2.toValue) := by
  induction ps with
  | nil => rfl
  | cons f ps ih => rw [propertyEntries, ih]; rfl

theorem allToValue_eq (ss : List Schema) : allToValue ss = ss.map toValue := by
  induction ss with
  | nil => rfl
  | cons s ss ih => rw [allToValue, ih]; rfl

/-- `P` holds of what is written for every field that has more to it than a text or a flag. -/
structure Parted (P : Value → Prop) (s : Schema) : Prop where
  properties : s.properties ≠ [] → P (.map (propertyEntries s.properties))
  required : s.required ≠ [] → P (texts s.required)
  items : ∀ t, s.items = some t → P t.toValue
  value : ∀ t, s.additional = some (.schema t) → P t.toValue
  allOf : s.allOf ≠ [] → P (.seq (allToValue s.allOf))
  kinds : s.kinds ≠ [] → P (.seq (s.kinds.map GroupVersionKind.toValue))

theorem forall_written_iff {P : Value → Prop} (htext : ∀ s, P (.text s)) (hbool : ∀ b, P (.bool b)) :
    (∀ f ∈ s.written, ∀ v, f.2 = some v → P v) ↔ s.Parted P := by
  have hadditional : (∀ v, s.additional.map additionalValue = some v → P v) ↔
      ∀ t, s.additional = some (.schema t) → P t.toValue := by
    rcases s.additional with _ | b | t <;> simp [additionalValue, hbool]
  simp only [written, List.forall_mem_cons, Value.forall_ifAny, hadditional, Value.forall_map]
  constructor
  · rintro ⟨-, -, -, hproperties, hrequired, hitems, hvalue, -, hallOf, hkinds, -⟩
    exact ⟨hproperties, hrequired, hitems, hvalue, hallOf, hkinds⟩
  · rintro ⟨hproperties, hrequired, hitems, hvalue, hallOf, hkinds⟩
    exact ⟨fun _ _ => htext _, fun _ _ => htext _, fun _ _ => htext _, hproperties, hrequired, hitems,
      hvalue, fun _ _ => htext _, hallOf, hkinds, fun _ _ => hbool _, fun _ _ => hbool _,
      fun _ _ => hbool _, by simp⟩

theorem definite_toValue (s : Schema) : s.toValue.Definite := by
  induction s using descent_induction Part.sizeOf_lt with
  | h s ih =>
    rw [toValue_eq]
    refine Value.definite_entries ((forall_written_iff Value.definite_text Value.definite_bool).mpr
      ⟨fun _ => ?_, fun _ => ?_, fun t ht => ih t (.item ht), fun t ht => ih t (.value ht), fun _ => ?_,
        fun _ => ?_⟩)
    · rw [propertyEntries_eq]
      refine Value.definite_map fun e he => ?_
      obtain ⟨f, hf, rfl⟩ := List.mem_map.mp he
      exact ⟨Value.definite_text _, ih f.2 (.property hf)⟩
    · refine Value.definite_seq fun v hv => ?_
      obtain ⟨name, -, rfl⟩ := List.mem_map.mp hv
      exact Value.definite_text name
    · rw [allToValue_eq]
      refine Value.definite_seq fun v hv => ?_
      obtain ⟨t, ht, rfl⟩ := List.mem_map.mp hv
      exact ih t (.wrapped ht)
    · refine Value.definite_seq fun v hv => ?_
      obtain ⟨g, -, rfl⟩ := List.mem_map.mp hv
      exact ⟨rfl, rfl⟩

/-! Depth. -/

theorem depth_propertyEntries_le {ps : List (String × Schema)} :
    (Value.map (propertyEntries ps)).depth ≤ n + 1 ↔ ∀ f ∈ ps, f.2.toValue.depth ≤ n := by
  have hentries : propertyEntries ps = Record.entries (ps.map fun f => (f.1, some f.2.toValue)) := by
    induction ps with
    | nil => rfl
    | cons f ps ih => rw [propertyEntries, ih]; rfl
  rw [hentries, Value.depth_entries_le_iff, List.forall_mem_map]
  simp only [Option.some.injEq, forall_eq']

theorem depth_texts_le {ss : List String} (hn : 0 < n) : (texts ss).depth ≤ n := by
  obtain ⟨n, rfl⟩ := Nat.exists_eq_add_of_le' hn
  rw [texts, Value.depth_seq_le_iff]
  simp [Value.depth]

theorem depth_kinds_le {gs : List GroupVersionKind} (hn : 1 < n) :
    (Value.seq (gs.map GroupVersionKind.toValue)).depth ≤ n := by
  obtain ⟨n, rfl⟩ := Nat.exists_eq_add_of_le' hn
  rw [Value.depth_seq_le_iff]
  simp [GroupVersionKind.toValue, Value.depth, Value.entriesDepth]

theorem depth_toValue_le_iff : s.toValue.depth ≤ n + 1 ↔ s.Parted (·.depth ≤ n) := by
  rw [toValue_eq, Value.depth_entries_le_iff,
    forall_written_iff (P := (·.depth ≤ n)) (by simp [Value.depth]) (by simp [Value.depth])]

/-! Reading. -/

/-- What reading the fields of a schema comes to. -/
structure Reads (d : Dialect) (room : Nat) (fields : Value.Fields) (s : Schema) : Prop where
  type : fields.option "type" Value.text? = some s.type
  format : fields.option "format" Value.text? = some s.format
  description : fields.option "description" Value.text? = some s.description
  properties : fields.optional "properties" [] (table? d room (decode d (room - 1))) = some s.properties
  required : fields.optional "required" [] (Value.texts? d room) = some s.required
  items : fields.option "items" (decode d room) = some s.items
  additional : fields.option "additionalProperties" (fun v => (v.content? room).bind fun
    | .bool allowed => some (.flag allowed)
    | v => (decode .exact room v).map .schema) = some s.additional
  reference : fields.option "$ref" Value.text? = some s.reference
  allOf : fields.optional "allOf" [] (list? d room (decode d (room - 1))) = some s.allOf
  kinds : fields.optional "x-kubernetes-group-version-kind" []
    (list? d room (GroupVersionKind.ofValue? d (room - 1))) = some s.kinds
  preserveUnknown : fields.option "x-kubernetes-preserve-unknown-fields" Value.bool? =
    some s.preserveUnknown
  intOrString : fields.option "x-kubernetes-int-or-string" Value.bool? = some s.intOrString
  namespaced : fields.option "x-scoped" Value.bool? = some s.namespaced

theorem decode_eq_some_iff : decode d (room + 1) v = some s ↔
    ∃ fields, v.record? d fieldNames (room + 1) = some fields ∧ Reads d room fields s := by
  rw [decode.eq_def]
  constructor
  · intro h
    obtain ⟨fields, hrecord, h⟩ := Option.bind_eq_some_iff.mp h
    obtain ⟨_, type, h⟩ := Option.bind_eq_some_iff.mp h
    obtain ⟨_, format, h⟩ := Option.bind_eq_some_iff.mp h
    obtain ⟨_, description, h⟩ := Option.bind_eq_some_iff.mp h
    obtain ⟨_, properties, h⟩ := Option.bind_eq_some_iff.mp h
    obtain ⟨_, required, h⟩ := Option.bind_eq_some_iff.mp h
    obtain ⟨_, items, h⟩ := Option.bind_eq_some_iff.mp h
    obtain ⟨_, additional, h⟩ := Option.bind_eq_some_iff.mp h
    obtain ⟨_, reference, h⟩ := Option.bind_eq_some_iff.mp h
    obtain ⟨_, allOf, h⟩ := Option.bind_eq_some_iff.mp h
    obtain ⟨_, kinds, h⟩ := Option.bind_eq_some_iff.mp h
    obtain ⟨_, preserveUnknown, h⟩ := Option.bind_eq_some_iff.mp h
    obtain ⟨_, intOrString, h⟩ := Option.bind_eq_some_iff.mp h
    obtain ⟨_, namespaced, h⟩ := Option.bind_eq_some_iff.mp h
    obtain rfl := Option.some.inj h
    -- the schemas of a list or map lie two containers deeper, where no room is as good as too little
    refine ⟨fields, hrecord, type, format, description, ?_, required, items, additional, reference, ?_,
      kinds, preserveUnknown, intOrString, namespaced⟩
    · cases room <;> exact properties
    · cases room <;> exact allOf
  · rintro ⟨fields, hrecord, h⟩
    obtain ⟨type, format, description, properties, required, items, additional, reference, allOf, kinds,
      preserveUnknown, intOrString, namespaced⟩ := h
    refine Option.bind_eq_some_iff.mpr ⟨fields, hrecord, ?_⟩
    refine Option.bind_eq_some_iff.mpr ⟨_, type, ?_⟩
    refine Option.bind_eq_some_iff.mpr ⟨_, format, ?_⟩
    refine Option.bind_eq_some_iff.mpr ⟨_, description, ?_⟩
    refine Option.bind_eq_some_iff.mpr ⟨s.properties, ?_, ?_⟩
    · cases room <;> exact properties
    refine Option.bind_eq_some_iff.mpr ⟨_, required, ?_⟩
    refine Option.bind_eq_some_iff.mpr ⟨_, items, ?_⟩
    refine Option.bind_eq_some_iff.mpr ⟨_, additional, ?_⟩
    refine Option.bind_eq_some_iff.mpr ⟨_, reference, ?_⟩
    refine Option.bind_eq_some_iff.mpr ⟨s.allOf, ?_, ?_⟩
    · cases room <;> exact allOf
    refine Option.bind_eq_some_iff.mpr ⟨_, kinds, ?_⟩
    refine Option.bind_eq_some_iff.mpr ⟨_, preserveUnknown, ?_⟩
    refine Option.bind_eq_some_iff.mpr ⟨_, intOrString, ?_⟩
    refine Option.bind_eq_some_iff.mpr ⟨_, namespaced, ?_⟩
    cases s
    rfl

theorem table?_propertyEntries {read : Value → Option Schema} {ps : List (String × Schema)}
    (hps : Table.Ordered ps) (hdepth : (Value.map (propertyEntries ps)).depth ≤ room)
    (hread : ∀ f ∈ ps, f.2.toValue.depth ≤ room - 1 → read f.2.toValue = some f.2) :
    table? d room read (.map (propertyEntries ps)) = some ps := by
  obtain ⟨room, rfl⟩ := Nat.exists_eq_add_of_le' (Nat.lt_of_lt_of_le (Value.depth_pos_map _) hdepth)
  rw [table?, propertyEntries_eq, Value.entries?, if_neg (Nat.succ_ne_zero room), Option.bind_eq_bind,
    Option.bind_some, Value.mapM_map_some ps fun f hf => ?_, Option.bind_eq_bind, Option.bind_some,
    Table.ofEntries_of_ordered hps]
  simp [Value.text?, hread f hf (depth_propertyEntries_le.mp hdepth f hf)]

theorem list?_map {α : Type} {read : Value → Option α} {write : α → Value} {as : List α}
    (hdepth : (Value.seq (as.map write)).depth ≤ room)
    (hread : ∀ a ∈ as, (write a).depth ≤ room - 1 → read (write a) = some a) :
    list? d room read (.seq (as.map write)) = some as := by
  obtain ⟨room, rfl⟩ := Nat.exists_eq_add_of_le' (Nat.lt_of_lt_of_le (Value.depth_pos_seq _) hdepth)
  refine Value.mapM_map_some as fun a ha => hread a ha ?_
  exact Value.depth_seq_le_iff.mp hdepth _ (List.mem_map_of_mem ha)

theorem ofValue?_toValue (g : GroupVersionKind) (hroom : 0 < room) :
    GroupVersionKind.ofValue? d room g.toValue = some g := by
  obtain ⟨fields, hrecord, hlookup⟩ := Record.read (d := d) GroupVersionKind.fieldNames _
    (r := [("group", some (.text g.group)), ("version", some (.text g.version)),
      ("kind", some (.text g.kind))]) rfl (by decide) hroom
  refine Option.bind_eq_some_iff.mpr ⟨fields, hrecord, ?_⟩
  simp only [Option.bind_eq_bind, Option.bind_eq_some_iff]
  exact ⟨_, Fields.optional_eq (hlookup _) rfl, _, Fields.require_eq (hlookup _) rfl, _,
    Fields.require_eq (hlookup _) rfl, rfl⟩

theorem decode_toValue (hs : s.Ordered) (hroom : s.toValue.depth ≤ room) :
    decode d room s.toValue = some s := by
  induction s using descent_induction Part.sizeOf_lt generalizing d room with
  | h s ih =>
    have hpos : 0 < room := Nat.lt_of_lt_of_le (by rw [toValue_eq]; exact Value.depth_pos_map _) hroom
    obtain ⟨room, rfl⟩ := Nat.exists_eq_add_of_le' hpos
    obtain ⟨hdproperties, hdrequired, hditems, hdvalue, hdallOf, hdkinds⟩ := depth_toValue_le_iff.mp hroom
    obtain ⟨hordered, hparts⟩ := ordered_iff.mp hs
    obtain ⟨fields, hrecord, hlookup⟩ := Record.read (d := d) _ _ (written_names s) nodup_fieldNames hpos
    rw [← toValue_eq] at hrecord
    refine decode_eq_some_iff.mpr ⟨fields, hrecord, ?_⟩
    refine ⟨Fields.option_eq (hlookup _) fun _ _ => ⟨rfl, rfl⟩,
      Fields.option_eq (hlookup _) fun _ _ => ⟨rfl, rfl⟩,
      Fields.option_eq (hlookup _) fun _ _ => ⟨rfl, rfl⟩,
      Fields.optional_any (hlookup _) fun hany => ?properties,
      Fields.optional_any (hlookup _) fun hany => ?required,
      Fields.option_eq (hlookup _) fun t ht =>
        ⟨by rw [toValue_eq]; rfl, ih t (.item ht) (hparts t (.item ht)) (hditems t ht)⟩,
      Fields.option_eq (hlookup _) ?additional,
      Fields.option_eq (hlookup _) fun _ _ => ⟨rfl, rfl⟩,
      Fields.optional_any (hlookup _) fun hany => ?allOf,
      Fields.optional_any (hlookup _) fun hany => ?kinds,
      Fields.option_eq (hlookup _) fun _ _ => ⟨rfl, rfl⟩,
      Fields.option_eq (hlookup _) fun _ _ => ⟨rfl, rfl⟩,
      Fields.option_eq (hlookup _) fun _ _ => ⟨rfl, rfl⟩⟩
    case properties =>
      exact table?_propertyEntries hordered (hdproperties hany) fun f hf =>
        ih f.2 (.property hf) (hparts f.2 (.property hf))
    case required =>
      exact list?_map (hdrequired hany) fun _ _ _ => rfl
    case additional =>
      rintro (allowed | t) ha
      · exact ⟨rfl, by
          rw [additionalValue, (Value.definite_bool allowed).content? (Nat.zero_le _)]
          rfl⟩
      · have hread := ih (d := .exact) t (.value ha) (hparts t (.value ha)) (hdvalue t ha)
        have hcontent := (definite_toValue t).content? (hdvalue t ha)
        rw [toValue_eq] at hread hcontent
        rw [additionalValue, toValue_eq]
        exact ⟨rfl, by rw [hcontent]; exact congrArg (Option.map Additional.schema) hread⟩
    case allOf =>
      rw [allToValue_eq] at hdallOf ⊢
      exact list?_map (hdallOf hany) fun t ht => ih t (.wrapped ht) (hparts t (.wrapped ht))
    case kinds =>
      exact list?_map (hdkinds hany) fun g _ hdepth => ofValue?_toValue g
        (Nat.lt_of_lt_of_le (Value.depth_pos_map _) hdepth)

/-! What was read. -/

theorem table?_ok {α : Type} {read : Value → Option α} {t : Table String α}
    (h : table? d room read v = some t) :
    Table.Ordered t ∧ (t ≠ [] → 0 < room) ∧ ∀ e ∈ t, ∃ w, read w = some e.2 := by
  obtain ⟨entries, hentries, h⟩ := Option.bind_eq_some_iff.mp h
  obtain ⟨named, hnamed, h⟩ := Option.bind_eq_some_iff.mp h
  obtain rfl := Option.some.inj h
  refine ⟨Table.ordered_ofEntries named, fun hany => Value.room_of_entries? hentries ?_, fun e he => ?_⟩
  · rintro rfl
    obtain rfl := Option.some.inj hnamed
    exact hany rfl
  · obtain ⟨⟨k, w⟩, -, hread⟩ := Value.mem_of_mapM hnamed (Table.mem_ofEntries he)
    obtain ⟨name, -, hread⟩ := Option.bind_eq_some_iff.mp hread
    obtain ⟨a, ha, hread⟩ := Option.bind_eq_some_iff.mp hread
    obtain rfl := Option.some.inj hread
    exact ⟨w, ha⟩

theorem table_of_optional {α : Type} {fields : Fields} {key : String} {read : Value → Option α}
    {t : Table String α} (h : fields.optional key [] (table? d room read) = some t) :
    Table.Ordered t ∧ (t ≠ [] → 0 < room) ∧ ∀ e ∈ t, ∃ w, read w = some e.2 := by
  rcases Fields.read_of_optional h with rfl | ⟨v, hv⟩
  · exact ⟨List.Pairwise.nil, fun hany => absurd rfl hany, by simp⟩
  · exact table?_ok hv

theorem list_of_optional {α : Type} {fields : Fields} {key : String} {read : Value → Option α}
    {as : List α} (h : fields.optional key [] (list? d room read) = some as) :
    (as ≠ [] → 0 < room) ∧ ∀ a ∈ as, ∃ w, read w = some a := by
  rcases Fields.read_of_optional h with rfl | ⟨v, hv⟩
  · exact ⟨fun hany => absurd rfl hany, by simp⟩
  obtain ⟨items, hitems, hv⟩ := Option.bind_eq_some_iff.mp hv
  refine ⟨fun hany => Value.room_of_items? hitems ?_, fun a ha => ?_⟩
  · rintro rfl
    obtain rfl := Option.some.inj hv
    exact hany rfl
  · obtain ⟨w, -, hread⟩ := Value.mem_of_mapM hv ha
    exact ⟨w, hread⟩

theorem room_of_kind {g : GroupVersionKind} (h : GroupVersionKind.ofValue? d room v = some g) :
    0 < room := by
  obtain ⟨fields, hfields, h⟩ := Option.bind_eq_some_iff.mp h
  simp only [Option.bind_eq_bind, Option.bind_eq_some_iff] at h
  obtain ⟨_, _, _, hversion, _⟩ := h
  exact Value.room_of_record? hfields (Fields.ne_nil_of_require hversion)

/-- A schema that was read can be written, and is no deeper than there was room. -/
theorem decode_ok (h : decode d room v = some s) : s.Ordered ∧ s.toValue.depth ≤ room := by
  induction room using Nat.strongRecOn generalizing d v s with
  | ind room ih =>
    rcases room with _ | room
    · cases h
    obtain ⟨fields, -, h⟩ := decode_eq_some_iff.mp h
    obtain ⟨hordered, hproom, hproperty⟩ := table_of_optional h.properties
    obtain ⟨hwroom, hwrapped⟩ := list_of_optional h.allOf
    obtain ⟨hkroom, hkind⟩ := list_of_optional h.kinds
    obtain ⟨hrroom, -⟩ : _ ∧ ∀ a ∈ s.required, ∃ w, Value.text? w = some a := list_of_optional h.required
    have hitem := Fields.read_of_option h.items
    have hvalue : ∀ t, s.additional = some (.schema t) → ∃ w, decode .exact room w = some t := by
      intro t ht
      obtain ⟨w, hw⟩ := Fields.read_of_option h.additional _ ht
      obtain ⟨w', -, hw⟩ := Option.bind_eq_some_iff.mp hw
      split at hw
      · cases hw
      · obtain ⟨t', ht', heq⟩ := Option.map_eq_some_iff.mp hw
        obtain rfl := Additional.schema.inj heq
        exact ⟨_, ht'⟩
    have hnested : ∀ t, (∃ w, decode d (room - 1) w = some t) →
        t.Ordered ∧ t.toValue.depth ≤ room - 1 := fun t ⟨w, hw⟩ => ih _ (by omega) hw
    have hdirect : ∀ d' t, (∃ w, decode d' room w = some t) → t.Ordered ∧ t.toValue.depth ≤ room :=
      fun d' t ⟨w, hw⟩ => ih _ (by omega) hw
    have hpart : ∀ t : Schema, t.Part s → t.Ordered := by
      rintro t (hf | ht | ht | ht)
      · exact (hnested _ (hproperty _ hf)).1
      · exact (hdirect d t (hitem t ht)).1
      · exact (hdirect .exact t (hvalue t ht)).1
      · exact (hnested _ (hwrapped _ ht)).1
    refine ⟨ordered_iff.mpr ⟨hordered, hpart⟩, depth_toValue_le_iff.mpr ⟨fun hany => ?properties,
      fun hany => depth_texts_le (hrroom hany), fun t ht => (hdirect d t (hitem t ht)).2,
      fun t ht => (hdirect .exact t (hvalue t ht)).2, fun hany => ?allOf,
      fun hany => depth_kinds_le ?kinds⟩⟩
    case properties =>
      obtain ⟨room, rfl⟩ := Nat.exists_eq_add_of_le' (hproom hany)
      exact depth_propertyEntries_le.mpr fun f hf => (hnested _ (hproperty f hf)).2
    case allOf =>
      obtain ⟨room, rfl⟩ := Nat.exists_eq_add_of_le' (hwroom hany)
      rw [allToValue_eq, Value.depth_seq_le_iff, List.forall_mem_map]
      exact fun t ht => (hnested t (hwrapped t ht)).2
    case kinds =>
      obtain ⟨g, hg⟩ := List.exists_mem_of_ne_nil _ hany
      obtain ⟨w, hw⟩ := hkind g hg
      have hpos := room_of_kind hw
      omega

theorem depth_pos (s : Schema) : 0 < s.toValue.depth := by
  rw [toValue_eq]
  exact Value.depth_pos_map _

theorem roundTrips : RoundTrips decode toValue Ordered where
  decode_toValue _ _ _ hs hdepth := decode_toValue hs hdepth
  decode_again _ _ _ _ _ _ h hdepth := decode_toValue (decode_ok h).1 hdepth
  depth_le _ _ _ _ h := Nat.le_trans (decode_ok h).2 (Nat.le_max_left _ _)

end Schema

end SchemaCompiler
