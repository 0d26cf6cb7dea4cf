import SchemaCompiler.Import.Importer
import SchemaCompiler.Proofs.Model.Change

/-! How an import goes forward. Importing a schema adds types and puts bodies of new types at the end
of the queue; an object that was there before stays as it was until its own body is read. -/

namespace SchemaCompiler

namespace Model

variable {m : Model}

theorem getElem?_registerNamed (m : Model) (group : GroupKey) (name : String) (kind : TypeKind)
    (description : Option String) {id : TypeId} (hid : id < m.types.size) :
    (m.registerNamed group name kind description).2.types[id]? = m.types[id]? := by
  cases hf : m.find? group (group.qualify name) with
  | some known => rw [registerNamed_known hf]
  | none => rw [types_registerNamed_new hf, Array.getElem?_push, if_neg (Nat.ne_of_lt hid)]

theorem size_registerNamed_le (m : Model) (group : GroupKey) (name : String) (kind : TypeKind)
    (description : Option String) :
    m.types.size ≤ (m.registerNamed group name kind description).2.types.size := by
  cases hf : m.find? group (group.qualify name) with
  | some known => simp only [registerNamed_known hf, Nat.le_refl]
  | none =>
    rw [types_registerNamed_new hf, Array.size_push]
    exact Nat.le_succ _

theorem getElem?_registerAnonymous (m : Model) (parent : TypeId) (property : String)
    (typeName description : Option String) {id : TypeId} (hid : id < m.types.size) :
    (m.registerAnonymous parent property typeName description).2.types[id]? = m.types[id]? := by
  cases hp : m.types[parent]? with
  | none => rw [registerAnonymous_orphan hp]
  | some above =>
    rw [types_registerAnonymous_new hp, Array.getElem?_push, if_neg (Nat.ne_of_lt hid)]

theorem registerAnonymous_fst (m : Model) (parent : TypeId) (property : String)
    (typeName description : Option String) :
    (m.registerAnonymous parent property typeName description).1 = m.types.size := by
  cases hp : m.types[parent]? with
  | none => rw [registerAnonymous_orphan hp]
  | some above => rw [registerAnonymous_new hp]

theorem filed_registerNamed (m : Model) (group : GroupKey) (name : String) (kind : TypeKind)
    (description : Option String) (key : GroupKey) (id : TypeId) :
    (m.registerNamed group name kind description).2.Filed key id ↔ m.Filed key id := by
  simp only [Filed, bucket_registerNamed]

theorem filed_registerAnonymous_new {parent : TypeId} {above : TypeEntry}
    (h : m.types[parent]? = some above) (property : String) (typeName description : Option String) :
    (m.registerAnonymous parent property typeName description).2.Filed above.group m.types.size := by
  refine ⟨(objectEntry above parent property typeName description).name, ?_⟩
  exact (mem_bucket_registerAnonymous h ..).mpr (.inr ⟨rfl, rfl, rfl⟩)

theorem filed_registerAnonymous {parent : TypeId} {property : String} {typeName description : Option String}
    {key : GroupKey} {id : TypeId}
    (h : (m.registerAnonymous parent property typeName description).2.Filed key id) :
    m.Filed key id ∨ id = m.types.size := by
  obtain ⟨short, hb⟩ := h
  cases hp : m.types[parent]? with
  | none =>
    rw [registerAnonymous_orphan hp] at hb
    exact .inl ⟨short, hb⟩
  | some above =>
    rw [mem_bucket_registerAnonymous hp] at hb
    exact hb.imp (fun hb => ⟨short, hb⟩) And.left

theorem Filed.registerAnonymous {key : GroupKey} {id : TypeId} (h : m.Filed key id)
    (parent : TypeId) (property : String) (typeName description : Option String) :
    (m.registerAnonymous parent property typeName description).2.Filed key id := by
  obtain ⟨short, hb⟩ := h
  refine ⟨short, ?_⟩
  cases hp : m.types[parent]? with
  | none => rwa [registerAnonymous_orphan hp]
  | some above =>
    rw [mem_bucket_registerAnonymous hp]
    exact .inl hb

end Model

namespace Importer

/-- Bodies wait for registered types, and one body at most for each. -/
structure Ready (i : Importer) : Prop where
  wellFormed : i.model.WellFormed
  pending_lt : ∀ p ∈ i.pending, p.id < i.model.types.size
  pending_nodup : (i.pending.map Pending.id).Nodup

/-- `j` comes from `i` by importing, without a body being read. -/
structure Step (i j : Importer) : Prop where
  ready : j.Ready
  size_le : i.model.types.size ≤ j.model.types.size
  filed : ∀ {key id}, i.model.Filed key id →
    j.model.Filed key id ∧ j.model.types[id]? = i.model.types[id]?
  /-- An object that is new waits for its body. -/
  objects : ∀ {key id}, j.model.Filed key id → i.model.Filed key id ∨ id ∈ j.pending.map Pending.id
  properties : ∀ {id : TypeId}, id < i.model.types.size →
    (j.model.types[id]?).map TypeEntry.properties = (i.model.types[id]?).map TypeEntry.properties
  named : ∀ {key name id}, i.model.named? key name = some id → j.model.named? key name = some id
  pending : ∃ more, j.pending = i.pending ++ more ∧ ∀ p ∈ more, i.model.types.size ≤ p.id

theorem ready_empty : Ready {} := ⟨Model.wellFormed_empty, by simp, by simp⟩

theorem Step.refl {i : Importer} (h : i.Ready) : Step i i :=
  ⟨h, Nat.le_refl _, fun hid => ⟨hid, rfl⟩, .inl, fun _ => rfl, fun hid => hid, [], by simp, by simp⟩

theorem Step.trans {i j k : Importer} (h : Step i j) (h' : Step j k) : Step i k where
  ready := h'.ready
  size_le := Nat.le_trans h.size_le h'.size_le
  filed := by
    intro key id hid
    obtain ⟨hj, he⟩ := h.filed hid
    obtain ⟨hk, he'⟩ := h'.filed hj
    exact ⟨hk, he'.trans he⟩
  objects := by
    intro key id hid
    refine (h'.objects hid).elim (fun hj => (h.objects hj).imp_right fun hmem => ?_) .inr
    obtain ⟨more, hmore, -⟩ := h'.pending
    rw [hmore, List.map_append]
    exact List.mem_append_left _ hmem
  properties := fun hid =>
    (h'.properties (Nat.lt_of_lt_of_le hid h.size_le)).trans (h.properties hid)
  named := fun hid => h'.named (h.named hid)
  pending := by
    obtain ⟨more, hm, hnew⟩ := h.pending
    obtain ⟨more', hm', hnew'⟩ := h'.pending
    refine ⟨more ++ more', by rw [hm', hm, List.append_assoc], fun p hp => ?_⟩
    rcases List.mem_append.mp hp with hp | hp
    · exact hnew p hp
    · exact Nat.le_trans h.size_le (hnew' p hp)

variable {c : ImportSettings} {i : Importer}

theorem Ready.remember (h : i.Ready) (key : String) (e : TypeExpr) : Step i (i.remember key e) :=
  ⟨⟨h.wellFormed, h.pending_lt, h.pending_nodup⟩, Nat.le_refl _, fun hid => ⟨hid, rfl⟩, .inl,
    fun _ => rfl, fun hid => hid, [], by simp [Importer.remember], by simp⟩

/-- A type that was just registered may have its body put into the queue. -/
theorem Ready.enqueue (h : i.Ready) {m : Model} (hm : m.WellFormed)
    (hsize : m.types.size = i.model.types.size + 1)
    (hfiled : ∀ {key id}, i.model.Filed key id → m.Filed key id)
    (hobjects : ∀ {key id}, m.Filed key id → i.model.Filed key id ∨ id = i.model.types.size)
    (hsame : ∀ {id : TypeId}, id < i.model.types.size → m.types[id]? = i.model.types[id]?)
    (hnamed : ∀ {key name id}, i.model.named? key name = some id → m.named? key name = some id)
    (schema : Schema) :
    Step i ({ i with model := m }.enqueue i.model.types.size schema) where
  ready := by
    refine ⟨hm, fun p hp => ?_, ?_⟩
    · change p.id < m.types.size
      rw [hsize]
      rcases List.mem_append.mp hp with hp | hp
      · exact Nat.lt_succ_of_lt (h.pending_lt p hp)
      · rw [List.mem_singleton.mp hp]
        exact Nat.lt_succ_self _
    · simp only [Importer.enqueue, List.map_append, List.map_cons, List.map_nil]
      refine List.nodup_append.mpr ⟨h.pending_nodup, List.nodup_singleton _, ?_⟩
      rintro a ha b hb rfl
      obtain ⟨p, hp, rfl⟩ := List.mem_map.mp ha
      exact Nat.ne_of_lt (h.pending_lt p hp) (List.mem_singleton.mp hb)
  size_le := by
    change i.model.types.size ≤ m.types.size
    omega
  filed := by
    rintro key id ⟨short, hb⟩
    exact ⟨hfiled ⟨short, hb⟩, hsame (h.wellFormed.lt_size hb)⟩
  objects := by
    intro key id hid
    refine (hobjects hid).imp_right fun heq => List.mem_map.mpr ⟨⟨id, schema⟩, ?_, rfl⟩
    exact heq ▸ List.mem_append_right _ List.mem_cons_self
  properties := fun hid => congrArg (Option.map _) (hsame hid)
  named := hnamed
  pending := ⟨_, rfl, by simp⟩

theorem Ready.filed_lt (h : i.Ready) {key : GroupKey} {id : TypeId} (hid : i.model.Filed key id) :
    id < i.model.types.size := by
  obtain ⟨short, hb⟩ := hid
  exact h.wellFormed.lt_size hb

theorem Ready.registerRoot (h : i.Ready) (group : GroupKey) (name : String) (kind : TypeKind)
    (schema : Schema) : Step i (i.registerRoot group name kind schema).2 := by
  rw [Importer.registerRoot]
  cases hf : i.model.find? group (group.qualify name) with
  | some id => exact Step.refl h
  | none =>
    have hid : (i.model.registerNamed group name kind schema.description).1 = i.model.types.size := by
      rw [Model.registerNamed_new hf]
    simp only [hid]
    have hfiled := Model.filed_registerNamed i.model group name kind schema.description
    refine h.enqueue (h.wellFormed.registerNamed group name kind schema.description) ?_
      (hfiled _ _).mpr (fun hid => .inl ((hfiled _ _).mp hid))
      (Model.getElem?_registerNamed _ _ _ _ _) ?_ schema
    · rw [Model.types_registerNamed_new hf, Array.size_push]
    · intro key n id hn
      exact h.wellFormed.named?_change hn (.registerNamed group name kind schema.description)

/-- The import with an object just registered and its body in the queue. -/
def registerObject (i : Importer) (parent : TypeId) (property : String) (typeName : Option String)
    (body : Schema) : Importer :=
  { i with
    model := (i.model.registerAnonymous parent property typeName body.description).2 }.enqueue
      i.model.types.size body

theorem importObject_new {property : String} {body : Schema}
    (h : c.inference.bind (Signature.infer · property body) = none) (parent : TypeId)
    (typeName : Option String) : i.importObject c parent property typeName body =
      (.type i.model.types.size, i.registerObject parent property typeName body) := by
  rw [importObject, h]
  simp only [Model.registerAnonymous_fst]
  rfl

theorem Ready.registerObject (h : i.Ready) {parent : TypeId} (hp : parent < i.model.types.size)
    (property : String) (typeName : Option String) (body : Schema) :
    Step i (i.registerObject parent property typeName body) := by
  have habove := Array.getElem?_eq_getElem hp
  refine h.enqueue (h.wellFormed.registerAnonymous parent property typeName body.description) ?_
    (fun hid => hid.registerAnonymous parent property typeName body.description)
    Model.filed_registerAnonymous (Model.getElem?_registerAnonymous _ _ _ _ _) ?_ body
  · rw [Model.types_registerAnonymous_new habove, Array.size_push]
  · intro key n id hn
    rwa [Model.named?_registerAnonymous]

theorem Ready.importObject (h : i.Ready) {parent : TypeId} (hp : parent < i.model.types.size)
    (property : String) (typeName : Option String) (body : Schema) :
    Step i (i.importObject c parent property typeName body).2 := by
  cases hinfer : c.inference.bind (Signature.infer · property body) with
  | some q =>
    rw [Importer.importObject, hinfer]
    exact Step.refl h
  | none =>
    rw [importObject_new hinfer]
    exact h.registerObject hp property typeName body

theorem Ready.withModel (h : i.Ready) {m : Model} (hm : m.WellFormed)
    (hsize : i.model.types.size ≤ m.types.size) : Ready { i with model := m } :=
  ⟨hm, fun p hp => Nat.lt_of_lt_of_le (h.pending_lt p hp) hsize, h.pending_nodup⟩

theorem Ready.alter (h : i.Ready) {m : Model} (hm : m.WellFormed)
    (hsize : i.model.types.size ≤ m.types.size)
    (hfiled : ∀ {key id}, i.model.Filed key id → m.types[id]? = i.model.types[id]?)
    (hobjects : ∀ key id, m.Filed key id ↔ i.model.Filed key id)
    (hproperties : ∀ {id : TypeId}, id < i.model.types.size →
      (m.types[id]?).map TypeEntry.properties = (i.model.types[id]?).map TypeEntry.properties)
    (hnamed : ∀ {key name id}, i.model.named? key name = some id → m.named? key name = some id) :
    Step i { i with model := m } where
  ready := h.withModel hm hsize
  size_le := hsize
  filed := fun hid => ⟨(hobjects _ _).mpr hid, hfiled hid⟩
  objects := fun hid => .inl ((hobjects _ _).mp hid)
  properties := hproperties
  named := hnamed
  pending := ⟨[], by simp, by simp⟩

theorem Ready.registerNamed (h : i.Ready) (group : GroupKey) (name : String) (kind : TypeKind)
    (description : Option String) :
    Step i { i with model := (i.model.registerNamed group name kind description).2 } := by
  refine h.alter (h.wellFormed.registerNamed group name kind description)
    (Model.size_registerNamed_le _ _ _ _ _)
    (fun hid => Model.getElem?_registerNamed _ _ _ _ _ (h.filed_lt hid))
    (Model.filed_registerNamed _ _ _ _ _)
    (fun hid => congrArg (Option.map _) (Model.getElem?_registerNamed _ _ _ _ _ hid)) ?_
  intro key n id hn
  exact h.wellFormed.named?_change hn (.registerNamed group name kind description)

theorem Ready.setKind (h : i.Ready) {group : GroupKey} {name : String} {id : TypeId}
    (hid : i.model.named? group name = some id) (kind : TypeKind) :
    Step i { i with model := i.model.setKind id kind } := by
  refine h.alter (h.wellFormed.setKind id kind) (Nat.le_of_eq Model.size_amend.symm) ?_
    (fun _ _ => .rfl) (fun {x} _ => Model.map_getElem?_amend (f := fun t => { t with kind }) (fun _ => rfl) x)
    fun hn => hn
  intro key j hfiled
  have hne : j ≠ id := by
    rintro rfl
    obtain ⟨short, hb⟩ := hfiled
    exact h.wellFormed.apart hid hb
  change (i.model.amend id fun t => { t with kind }).types[j]? = _
  rw [Model.getElem?_amend, if_neg hne]

theorem Ready.importWith (h : i.Ready) {follow : Importer → String → Except Error TypeExpr × Importer}
    (hfollow : ∀ path, Step i (follow i path).2) {parent : TypeId}
    (hp : parent < i.model.types.size) (property : String) (typeName : Option String)
    (schema : Schema) : Step i (importWith c follow i parent property typeName schema).2 := by
  rw [Importer.importWith]
  split
  · exact Step.refl h
  · next layers core _ =>
    cases core with
    | expr e => exact Step.refl h
    | object body => exact h.importObject hp property typeName body
    | reference path => exact hfollow path

theorem Ready.importDefinition (h : i.Ready)
    {follow : Importer → String → Except Error TypeExpr × Importer}
    (hfollow : ∀ {i : Importer}, i.Ready → ∀ path, Step i (follow i path).2) (key : String)
    (q : QualifiedName) (definition : Schema) :
    Step i (importDefinition c follow i key q definition).2 := by
  rw [Importer.importDefinition]
  by_cases hrecord : definition.isRecord = true
  · rw [if_pos hrecord]
    have hroot := h.registerRoot (GroupKey.of q) q.name (definitionKind q definition) definition
    exact hroot.trans (hroot.ready.remember _ _)
  · rw [if_neg hrecord]
    have hnamed := h.wellFormed.named?_registerNamed (GroupKey.of q) q.name
      (.synonym (.primitive .any)) definition.description
    have hregister := h.registerNamed (GroupKey.of q) q.name (.synonym (.primitive .any))
      definition.description
    have hremember := hregister.trans (hregister.ready.remember key
      (.type (i.model.registerNamed (GroupKey.of q) q.name (.synonym (.primitive .any))
        definition.description).1))
    simp only
    split
    · exact hremember
    · have hlt := h.wellFormed.registerNamed (GroupKey.of q) q.name (.synonym (.primitive .any))
        definition.description |>.named_lt hnamed
      have himport := hremember.ready.importWith (hfollow hremember.ready) hlt "item" none definition
        (c := c)
      have hboth := hremember.trans himport
      split
      · next target j he =>
        rw [he] at hboth himport
        exact hboth.trans (hboth.ready.setKind (himport.named hnamed) (.synonym target))
      · next e j he =>
        rwa [he] at hboth

theorem Ready.importReference (h : i.Ready)
    {follow : Importer → String → Except Error TypeExpr × Importer}
    (hfollow : ∀ {i : Importer}, i.Ready → ∀ path, Step i (follow i path).2) (reference : String) :
    Step i (importReference c follow i reference).2 := by
  rw [Importer.importReference]
  split
  · exact Step.refl h
  · split
    · exact Step.refl h
    · split
      · exact h.remember _ _
      · exact h.remember _ _
      · exact h.importDefinition hfollow _ _ _

theorem Ready.followRef (h : i.Ready) (depth : Nat) (reference : String) :
    Step i (followRef c depth i reference).2 := by
  induction depth generalizing i reference with
  | zero =>
    rw [Importer.followRef]
    exact Step.refl h
  | succ depth ih =>
    rw [Importer.followRef]
    exact h.importReference (fun hi path => ih hi path) reference

theorem Ready.importProperty (h : i.Ready) {parent : TypeId} (hp : parent < i.model.types.size)
    (property : String) (typeName : Option String) (schema : Schema) :
    Step i (importProperty c i parent property typeName schema).2 := by
  rw [Importer.importProperty]
  exact h.importWith (fun path => h.followRef _ path) hp property typeName schema

/-! Bodies. -/

/-- A property of a body is left out if it is implied or deleted. -/
def BodyContext.keeps (b : BodyContext) (name : String) : Bool :=
  !(b.resource && impliedProperties.contains name) &&
    match Table.get? name b.overrides with
    | some .delete => false
    | _ => true

/-- The fields that come of a body, each with its schema and whether it is required. -/
def BodyContext.fields (b : BodyContext) (s : Schema) : List (String × Schema × Bool) :=
  (s.properties.filter fun f => b.keeps f.1).map fun f => (f.1, f.2, s.required.contains f.1)

/-- The field that comes of a property that is kept, with the patch in effect for it. -/
def keptField (c : ImportSettings) (b : BodyContext) (i : Importer) (name : String)
    (declared : Schema) (patch : PropertyPatch) : Except Error (Option Property) × Importer :=
  if c.canonicalMetadata && b.resource && name == "metadata" then
    (.ok (some (patchedField b name declared patch (.ref objectMeta))), i)
  else
    let (r, i) := importProperty c i b.id name patch.typeName (patch.schema.getD declared)
    (r.map fun type => some (patchedField b name declared patch type), i)

def BodyContext.patch (b : BodyContext) (name : String) : PropertyPatch :=
  match Table.get? name b.overrides with
  | some (.patch p) => p
  | _ => {}

theorem importField_eq (b : BodyContext) (i : Importer) (name : String) (declared : Schema) :
    importField c b i name declared =
      if b.keeps name then keptField c b i name declared (b.patch name) else (.ok none, i) := by
  rw [importField, BodyContext.keeps, BodyContext.patch]
  by_cases himplied : (b.resource && impliedProperties.contains name) = true
  · rw [if_pos himplied, himplied]
    rfl
  · rw [if_neg himplied, Bool.eq_false_iff.mpr himplied]
    cases Table.get? name b.overrides with
    | none => rfl
    | some o => cases o <;> rfl

theorem Ready.importField (h : i.Ready) {b : BodyContext} (hb : b.id < i.model.types.size)
    (name : String) (declared : Schema) : Step i (importField c b i name declared).2 := by
  rw [importField_eq]
  split
  · rw [keptField]
    split
    · exact Step.refl h
    · exact h.importProperty hb name _ _
  · exact Step.refl h

theorem Ready.importFields (h : i.Ready) {b : BodyContext} (hb : b.id < i.model.types.size)
    (fields : List (String × Schema)) : Step i (importFields c b i fields).2 := by
  induction fields generalizing i with
  | nil => exact Step.refl h
  | cons field fields ih =>
    obtain ⟨name, declared⟩ := field
    have hfirst := h.importField (c := c) hb name declared
    rw [Importer.importFields]
    split
    · next e j he => rwa [he] at hfirst
    · next p j he =>
      rw [he] at hfirst
      have hrest := ih hfirst.ready (Nat.lt_of_lt_of_le hb hfirst.size_le)
      split
      · next e k hk =>
        rw [hk] at hrest
        exact hfirst.trans hrest
      · next ps k hk =>
        rw [hk] at hrest
        exact hfirst.trans hrest

theorem keptField_ok {b : BodyContext} {name : String} {declared : Schema} {patch : PropertyPatch}
    {p : Option Property} {j : Importer}
    (h : keptField c b i name declared patch = (.ok p, j)) :
    ∃ type, p = some (patchedField b name declared patch type) := by
  rw [keptField] at h
  split at h
  · obtain ⟨hp, -⟩ := Prod.mk.inj h
    exact ⟨_, (Except.ok.inj hp).symm⟩
  · cases hr : importProperty c i b.id name patch.typeName (patch.schema.getD declared) with
    | mk r k =>
      rw [hr] at h
      obtain ⟨hp, -⟩ := Prod.mk.inj h
      cases r with
      | error e => cases hp
      | ok type => exact ⟨type, (Except.ok.inj hp).symm⟩

/-- The properties that come of a body are those it keeps. -/
theorem importFields_keys {b : BodyContext} {fields : List (String × Schema)} {ps : List Property}
    {j : Importer} (h : importFields c b i fields = (.ok ps, j)) :
    ps.map (fun p => (p.name, p.required)) =
      (fields.filter fun f => b.keeps f.1).map fun f => (f.1, b.required.contains f.1) := by
  induction fields generalizing i ps j with
  | nil =>
    obtain ⟨hps, -⟩ := Prod.mk.inj h
    obtain rfl := Except.ok.inj hps
    rfl
  | cons field fields ih =>
    obtain ⟨name, declared⟩ := field
    rw [importFields] at h
    split at h
    · cases (Prod.mk.inj h).1
    · next p k hk =>
      split at h
      · cases (Prod.mk.inj h).1
      · next rest l hl =>
        obtain ⟨hps, -⟩ := Prod.mk.inj h
        obtain rfl := Except.ok.inj hps
        rw [importField_eq] at hk
        by_cases hkeep : b.keeps name = true
        · rw [if_pos hkeep] at hk
          obtain ⟨type, rfl⟩ := keptField_ok hk
          rw [List.filter_cons, if_pos hkeep, List.map_append, ih hl]
          rfl
        · rw [if_neg hkeep] at hk
          obtain ⟨hp, -⟩ := Prod.mk.inj hk
          obtain rfl := Except.ok.inj hp
          rw [List.filter_cons, if_neg hkeep]
          exact ih hl

end Importer

end SchemaCompiler
