import SchemaCompiler.Proofs.Model.Change

/-! What is settled about a type when it is registered: its names, its group, and its kind but for the
target of a synonym. A model that grows out of another keeps it. -/

namespace SchemaCompiler

/-- A type without what becomes known about it only after it was registered. -/
def TypeEntry.label (t : TypeEntry) : TypeEntry :=
  { t with
    properties := []
    kind := match t.kind with
      | .synonym _ => .synonym (.primitive .any)
      | kind => kind }

namespace TypeEntry

variable {t t' : TypeEntry}

@[simp] theorem label_isAnonymous (t : TypeEntry) : t.label.isAnonymous = t.isAnonymous := by
  cases hk : t.kind <;> simp [label, isAnonymous, hk]

theorem label_eq (hp : t.properties = []) (hk : ∀ target, t.kind ≠ .synonym target) :
    t.label = t := by
  obtain ⟨name, fullName, qualified, group, description, properties, kind, mergedInto⟩ := t
  obtain rfl : properties = [] := hp
  cases kind with
  | synonym target => exact absurd rfl (hk target)
  | _ => rfl

theorem label_anonymous_iff {parent : TypeId} {property : String} :
    t.label.kind = .anonymous parent property ↔ t.kind = .anonymous parent property := by
  cases hk : t.kind <;> simp [label, hk]

theorem label_synonym_iff :
    t.label.kind = .synonym (.primitive .any) ↔ ∃ target, t.kind = .synonym target := by
  cases hk : t.kind <;> simp [label, hk]

theorem label_kind_of_ne (h : ∀ target, t.label.kind ≠ .synonym target) : t.kind = t.label.kind := by
  cases hk : t.kind with
  | synonym target => exact absurd (label_synonym_iff.mpr ⟨target, hk⟩) (h _)
  | _ => simp [label, hk]

theorem isAnonymous_iff : t.isAnonymous = true ↔ ∃ parent property, t.kind = .anonymous parent property := by
  cases hk : t.kind <;> simp [isAnonymous, hk]

end TypeEntry

namespace Model

variable {m m' m'' : Model} {id : TypeId} {l : TypeEntry}

def label? (m : Model) (id : TypeId) : Option TypeEntry := (m.types[id]?).map TypeEntry.label

theorem label?_eq_some_iff : m.label? id = some l ↔ ∃ t, m.types[id]? = some t ∧ t.label = l :=
  Option.map_eq_some_iff

theorem label?_lt (h : m.label? id = some l) : id < m.types.size := by
  obtain ⟨t, ht, -⟩ := label?_eq_some_iff.mp h
  exact (Array.getElem?_eq_some_iff.mp ht).1

def kind? (m : Model) (id : TypeId) : Option TypeKind := (m.types[id]?).map TypeEntry.kind

theorem kind?_lt {kind : TypeKind} (h : m.kind? id = some kind) : id < m.types.size := by
  obtain ⟨t, ht, -⟩ := Option.map_eq_some_iff.mp h
  exact (Array.getElem?_eq_some_iff.mp ht).1

theorem kind_of_label? {l : TypeEntry} {parent : TypeId} {property : String}
    (hl : m.label? id = some l)
    (hk : m.kind? id = some (.anonymous parent property)) : l.kind = .anonymous parent property := by
  obtain ⟨t, ht, rfl⟩ := label?_eq_some_iff.mp hl
  rw [kind?, ht] at hk
  exact TypeEntry.label_anonymous_iff.mpr (Option.some.inj hk)

theorem getElem?_setProperties (m : Model) (a : TypeId) (ps : List Property) (id : TypeId) :
    (m.setProperties a ps).types[id]? = if id = a then
      (m.types[id]?).map fun t => { t with properties := Property.sort ps } else m.types[id]? :=
  getElem?_amend (f := fun t => { t with properties := Property.sort ps }) id

theorem kind?_setProperties (m : Model) (a : TypeId) (ps : List Property) (id : TypeId) :
    (m.setProperties a ps).kind? id = m.kind? id :=
  map_getElem?_amend (f := fun t => { t with properties := Property.sort ps }) (fun _ => rfl) id

theorem getElem?_setKind (m : Model) (a : TypeId) (kind : TypeKind) (id : TypeId) :
    (m.setKind a kind).types[id]? =
      if id = a then (m.types[id]?).map fun t => { t with kind } else m.types[id]? :=
  getElem?_amend (f := fun t => { t with kind }) id

theorem kind?_setKind_of_ne (kind : TypeKind) {a : TypeId} (hne : id ≠ a) :
    (m.setKind a kind).kind? id = m.kind? id := by
  rw [Model.kind?, getElem?_setKind, if_neg hne, Model.kind?]

/-- Every type of `m` is in `m'`, under the same label and name. -/
structure Extends (m m' : Model) : Prop where
  label : ∀ {id l}, m.label? id = some l → m'.label? id = some l
  named : ∀ {key name id}, m.named? key name = some id → m'.named? key name = some id

theorem Extends.refl (m : Model) : m.Extends m := ⟨fun h => h, fun h => h⟩

theorem Extends.trans (h : m.Extends m') (h' : m'.Extends m'') : m.Extends m'' :=
  ⟨fun hid => h'.label (h.label hid), fun hid => h'.named (h.named hid)⟩

theorem SameUpTo.extends (h : SameUpTo TypeEntry.label m m') : m.Extends m' := by
  refine ⟨fun {id l} hid => ?_, fun hid => ?_⟩
  · rw [label?, h.entries]
    exact hid
  · rwa [h.named?]

theorem sameLabels_setProperties (m : Model) (id : TypeId) (ps : List Property) :
    SameUpTo TypeEntry.label m (m.setProperties id ps) :=
  ⟨rfl, rfl, fun i => map_getElem?_amend (m := m)
    (f := fun t => { t with properties := Property.sort ps }) (fun _ => rfl) i⟩

theorem sameLabels_setKind {t : TypeEntry} (ht : m.types[id]? = some t) {e : TypeExpr}
    (hk : t.kind = .synonym e) (e' : TypeExpr) :
    SameUpTo TypeEntry.label m (m.setKind id (.synonym e')) := by
  refine ⟨rfl, rfl, fun i => ?_⟩
  change ((m.amend id fun t => { t with kind := .synonym e' }).types[i]?).map _ = _
  rw [getElem?_amend]
  by_cases hi : i = id
  · rw [if_pos hi, hi, ht]
    simp [TypeEntry.label, hk]
  · rw [if_neg hi]

theorem objectEntry_label (above : TypeEntry) (parent : TypeId) (property : String)
    (typeName description : Option String) :
    objectEntry above.label parent property typeName description =
      objectEntry above parent property typeName description := by
  simp only [objectEntry, TypeEntry.label_isAnonymous]
  rfl

/-! Adding types. -/

section Register

variable {t : TypeEntry}

theorem label?_push (h : m'.types = m.types.push t) (id : TypeId) :
    m'.label? id = if id = m.types.size then some t.label else m.label? id := by
  rw [label?, h, Array.getElem?_push]
  by_cases hid : id = m.types.size <;> simp [hid, label?]

theorem extends_push (h : m'.types = m.types.push t)
    (hnamed : ∀ {key name id}, m.named? key name = some id → m'.named? key name = some id) :
    m.Extends m' := by
  refine ⟨fun {id l} hid => ?_, hnamed⟩
  rw [label?_push h, if_neg (Nat.ne_of_lt (label?_lt hid)), hid]

/-- Every type is found under its own name, and none is merged. -/
structure Shelved (m : Model) : Prop where
  live : ∀ id, m.mergedInto? id = none
  named : ∀ {id l}, m.label? id = some l → l.isAnonymous = false → m.named? l.group l.name = some id
  filed : ∀ {id l}, m.label? id = some l → l.isAnonymous = true → id ∈ m.bucket l.group l.name

theorem shelved_empty : Shelved {} where
  live := by simp [mergedInto?]
  named := by simp [label?]
  filed := by simp [label?]

theorem mergedInto?_label (m : Model) (id : TypeId) :
    m.mergedInto? id = (m.label? id).bind TypeEntry.mergedInto := by
  cases h : m.types[id]? <;> simp [mergedInto?, label?, h, TypeEntry.label]

theorem Shelved.relabel (h : m.Shelved) (hm : SameUpTo TypeEntry.label m m') : m'.Shelved := by
  have hlabel : ∀ id, m'.label? id = m.label? id := hm.entries
  refine ⟨fun id => ?_, fun hid ha => ?_, fun hid ha => ?_⟩
  · rw [mergedInto?_label, hlabel, ← mergedInto?_label, h.live]
  · rw [hm.named?]
    exact h.named (hlabel _ ▸ hid) ha
  · rw [hm.bucket]
    exact h.filed (hlabel _ ▸ hid) ha

variable {group : GroupKey} {name : String}

theorem extends_registerNamed (hw : m.WellFormed) (group : GroupKey) (name : String)
    (kind : TypeKind) (description : Option String) :
    m.Extends (m.registerNamed group name kind description).2 := by
  cases hf : m.find? group (group.qualify name) with
  | some id =>
    rw [registerNamed_known hf]
    exact .refl m
  | none =>
    exact extends_push (types_registerNamed_new hf kind description) fun hid =>
      hw.named?_change hid (.registerNamed group name kind description)

theorem Shelved.registerNamed (h : m.Shelved) (hw : m.WellFormed) (group : GroupKey) (name : String)
    {kind : TypeKind} (hkind : ∀ parent property, kind ≠ .anonymous parent property)
    (description : Option String) : (m.registerNamed group name kind description).2.Shelved := by
  cases hf : m.find? group (group.qualify name) with
  | some id => rwa [registerNamed_known hf]
  | none =>
    have htypes := types_registerNamed_new hf kind description
    have hextends := extends_registerNamed hw group name kind description
    have hnew : (namedEntry group name kind description).label.isAnonymous = false := by
      cases ha : (namedEntry group name kind description).isAnonymous with
      | false => simpa using ha
      | true =>
        obtain ⟨parent, property, hk⟩ := TypeEntry.isAnonymous_iff.mp ha
        exact absurd hk (hkind parent property)
    refine ⟨fun id => ?_, fun {id l} hid ha => ?_, fun {id l} hid ha => ?_⟩
    · rw [mergedInto?_push htypes rfl, h.live]
    · rw [label?_push htypes] at hid
      split at hid
      · next hsize =>
        obtain rfl := Option.some.inj hid
        rw [named?_registerNamed_new hf, if_pos ⟨rfl, rfl⟩, hsize]
      · exact hextends.named (h.named hid ha)
    · rw [label?_push htypes] at hid
      split at hid
      · rw [← Option.some.inj hid, hnew] at ha
        cases ha
      · rw [bucket_registerNamed]
        exact h.filed hid ha

variable {parent : TypeId} {above : TypeEntry}

theorem extends_registerAnonymous (hp : m.types[parent]? = some above) (property : String)
    (typeName description : Option String) :
    m.Extends (m.registerAnonymous parent property typeName description).2 :=
  extends_push (types_registerAnonymous_new hp property typeName description) fun hid => by
    rwa [named?_registerAnonymous]

theorem Shelved.registerAnonymous (h : m.Shelved) (hp : m.types[parent]? = some above)
    (property : String) (typeName description : Option String) :
    (m.registerAnonymous parent property typeName description).2.Shelved := by
  have htypes := types_registerAnonymous_new hp property typeName description
  refine ⟨fun id => ?_, fun {id l} hid ha => ?_, fun {id l} hid ha => ?_⟩
  · rw [mergedInto?_push htypes rfl, h.live]
  · rw [label?_push htypes] at hid
    split at hid
    · rw [← Option.some.inj hid] at ha
      cases ha
    · rw [named?_registerAnonymous]
      exact h.named hid ha
  · rw [label?_push htypes] at hid
    split at hid
    · next hsize =>
      obtain rfl := Option.some.inj hid
      exact (mem_bucket_registerAnonymous hp ..).mpr (.inr ⟨hsize, rfl, rfl⟩)
    · exact (mem_bucket_registerAnonymous hp ..).mpr (.inl (h.filed hid ha))

end Register

end Model

end SchemaCompiler
