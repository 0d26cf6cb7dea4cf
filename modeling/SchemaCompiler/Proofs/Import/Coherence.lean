import SchemaCompiler.Proofs.Import.Denotation
import SchemaCompiler.Proofs.Import.Depth
import SchemaCompiler.Proofs.Import.Ending

/-! What every state of an import has in common. What a reference was found to be is what it stands for,
and no definition is registered under the name of another. -/

namespace SchemaCompiler

open QualifiedName (parse?)

namespace Importer

open Model (objectEntry namedEntry)

/-- A type that is asked for with a body of its own. -/
structure Root where
  group : GroupKey
  name : String
  kind : TypeKind
  schema : Schema

/-- No two keys of definitions are read as the same name, and the roots are records with other names
than the definitions. -/
structure Separate (c : ImportSettings) (roots : List Root) : Prop where
  distinct : ∀ d ∈ c.definitions, ∀ d' ∈ c.definitions, ∀ q,
    parse? d.1 = some q → parse? d'.1 = some q → d.1 = d'.1
  apart : ∀ d ∈ c.definitions, ∀ q, parse? d.1 = some q →
    ∀ r ∈ roots, ¬(r.group = GroupKey.of q ∧ r.name = q.name)
  records : ∀ r ∈ roots, r.kind = .resource ∨ ∃ info, r.kind = .apiResource info

/-- No two keys of definitions are read as the same name, and the roots are not anonymous and have other
names than the definitions. -/
structure Unshared (c : ImportSettings) (roots : List Root) : Prop where
  distinct : ∀ d ∈ c.definitions, ∀ d' ∈ c.definitions, ∀ q,
    parse? d.1 = some q → parse? d'.1 = some q → d.1 = d'.1
  apart : ∀ d ∈ c.definitions, ∀ q, parse? d.1 = some q →
    ∀ r ∈ roots, ¬(r.group = GroupKey.of q ∧ r.name = q.name)
  named : ∀ r ∈ roots, ∀ parent property, r.kind ≠ .anonymous parent property

/-- The root `r` is the type `id`. -/
structure RootAt (m : Model) (r : Root) (id : TypeId) : Prop where
  named : m.named? r.group r.name = some id
  label : m.label? id = some (namedEntry r.group r.name r.kind r.schema.description).label

structure Coherent (c : ImportSettings) (roots : List Root) (i : Importer) : Prop where
  ready : i.Ready
  shelved : i.model.Shelved
  remembered : ∀ {key e}, Table.get? key i.resolved = some e → Meaning c i.model key e
  known : ∀ {group name id}, i.model.named? group name = some id →
    (∃ r ∈ roots, RootAt i.model r id ∧ r.group = group ∧ r.name = name) ∨
      ∃ key q definition, Defined c i.model key q definition id ∧
        Table.get? key i.resolved = some (.type id)

variable {c : ImportSettings} {roots : List Root} {i j : Importer} {key : String} {q : QualifiedName}
  {definition : Schema} {id : TypeId}

theorem Separate.unshared (h : Separate c roots) : Unshared c roots := by
  refine ⟨h.distinct, h.apart, fun r hr parent property => ?_⟩
  rcases h.records r hr with hkind | ⟨info, hkind⟩ <;> simp [hkind]

theorem Unshared.eq_of_parse? (hs : Unshared c roots) {key' : String} {definition' : Schema}
    (hq : parse? key = some q) (hq' : parse? key' = some q)
    (hd : Table.get? key c.definitions = some definition)
    (hd' : Table.get? key' c.definitions = some definition') : key = key' :=
  hs.distinct _ (Table.mem_of_get? hd) _ (Table.mem_of_get? hd') q hq hq'

theorem separate_of_bare (h : ∀ d ∈ c.definitions, QualifiedName.Bare d.1) : Separate c [] := by
  refine ⟨fun d hd d' hd' q hq hq' => ?_, by simp, by simp⟩
  have hidentifier := QualifiedName.parse?_inj hq hq'
  rwa [(h d hd).identifier, (h d' hd').identifier] at hidentifier

theorem RootAt.mono {m m' : Model} {r : Root} (h : RootAt m r id)
    (hm : m.Extends m') : RootAt m' r id :=
  ⟨hm.named h.named, hm.label h.label⟩

theorem coherent_empty : Coherent c roots {} where
  ready := ready_empty
  shelved := Model.shelved_empty
  remembered := by simp [Table.get?]
  known := by simp [Model.named?, Model.group?, Table.get?]

theorem Defined.group_eq {m : Model} (hm : m.WellFormed) (h : Defined c m key q definition id)
    {group : GroupKey} {name : String} (hid : m.named? group name = some id) :
    GroupKey.of q = group ∧ q.name = name := by
  obtain ⟨t, ht, hgroup, hname, -⟩ := hm.named h.named
  obtain ⟨t', ht', hgroup', hname', -⟩ := hm.named hid
  obtain rfl := Option.some.inj (ht.symm.trans ht')
  exact ⟨hgroup.symm.trans hgroup', hname.symm.trans hname'⟩

theorem Defined.key_eq {m : Model} (hs : Unshared c roots) (hm : m.WellFormed)
    (h : Defined c m key q definition id) {key' : String} {q' : QualifiedName} {definition' : Schema}
    (h' : Defined c m key' q' definition' id) : key = key' := by
  obtain rfl := GroupKey.of_inj.mp (h.group_eq hm h'.named)
  exact hs.eq_of_parse? h.name h'.name h.defined h'.defined

/-- A definition that was not met yet has not been registered under any other key. -/
theorem Coherent.unregistered (h : Coherent c roots i) (hs : Unshared c roots)
    (hq : parse? key = some q) (hd : Table.get? key c.definitions = some definition)
    (hnew : Table.get? key i.resolved = none) :
    i.model.find? (GroupKey.of q) ((GroupKey.of q).qualify q.name) = none := by
  rw [h.ready.wellFormed.indexed]
  cases hid : i.model.named? (GroupKey.of q) q.name with
  | none => rfl
  | some id =>
    exfalso
    rcases h.known hid with ⟨r, hr, -, hroot⟩ | ⟨key', q', definition', hdefined, hresolved⟩
    · exact hs.apart _ (Table.mem_of_get? hd) q hq r hr hroot
    · obtain rfl := GroupKey.of_inj.mp (hdefined.group_eq h.ready.wellFormed hid)
      obtain rfl := hs.eq_of_parse? hq hdefined.name hd hdefined.defined
      cases hresolved.symm.trans hnew

theorem Coherent.pop (h : Coherent c roots i) {p : Pending} {rest : List Pending}
    (hp : i.pending = p :: rest) : Coherent c roots { i with pending := rest } :=
  ⟨(h.ready.pop hp).1, h.shelved, h.remembered, h.known⟩

theorem Coherent.known_mono (h : Coherent c roots i) {group : GroupKey} {name : String}
    (hid : i.model.named? group name = some id) (hm : i.model.Extends j.model)
    (hresolved : ∀ {key e}, Table.get? key i.resolved = some e → Table.get? key j.resolved = some e) :
    (∃ r ∈ roots, RootAt j.model r id ∧ r.group = group ∧ r.name = name) ∨
      ∃ key q definition, Defined c j.model key q definition id ∧
        Table.get? key j.resolved = some (.type id) := by
  rcases h.known hid with ⟨r, hr, hroot, hname⟩ | ⟨key, q, definition, hdefined, hkey⟩
  · exact .inl ⟨r, hr, hroot.mono hm, hname⟩
  · exact .inr ⟨key, q, definition, hdefined.mono hm, hresolved hkey⟩

theorem Coherent.relabel (h : Coherent c roots i) {m : Model} (hm : m.WellFormed)
    (hlabels : Model.SameUpTo TypeEntry.label i.model m) : Coherent c roots { i with model := m } where
  ready := h.ready.withModel hm (Nat.le_of_eq hlabels.size_eq.symm)
  shelved := h.shelved.relabel hlabels
  remembered := fun he => (h.remembered he).mono hlabels.extends
  known := by
    intro group name id hid
    rw [show m.named? group name = _ from hlabels.named? group name] at hid
    exact h.known_mono hid hlabels.extends fun he => he

theorem get?_remember (i : Importer) (key k : String) (e : TypeExpr) :
    Table.get? k (i.remember key e).resolved =
      if k = key then some e else Table.get? k i.resolved := by
  rw [remember, Table.get?_insert]

theorem get?_remember_of_some {e e' : TypeExpr} {k : String} (hnew : Table.get? key i.resolved = none)
    (h : Table.get? k i.resolved = some e') :
    Table.get? k (i.remember key e).resolved = some e' := by
  have hne : k ≠ key := by
    rintro rfl
    rw [hnew] at h
    cases h
  rw [get?_remember, if_neg hne, h]

theorem Coherent.remember (h : Coherent c roots i) (hnew : Table.get? key i.resolved = none)
    {e : TypeExpr} (he : Meaning c i.model key e) : Coherent c roots (i.remember key e) where
  ready := (h.ready.remember key e).ready
  shelved := h.shelved
  remembered := by
    intro k e' hk
    rw [get?_remember] at hk
    split at hk
    · next heq => rwa [heq, ← Option.some.inj hk]
    · exact h.remembered hk
  known := by
    intro group name id hid
    exact h.known_mono (j := i.remember key e) hid (.refl _) fun he => get?_remember_of_some hnew he

theorem Coherent.registerObject (h : Coherent c roots i) {parent : TypeId} {above : TypeEntry}
    (hp : i.model.types[parent]? = some above) (property : String) (typeName : Option String)
    (body : Schema) : Coherent c roots (i.registerObject parent property typeName body) := by
  have hextends := Model.extends_registerAnonymous hp property typeName body.description
  refine ⟨(h.ready.registerObject (Array.getElem?_eq_some_iff.mp hp).1 property typeName body).ready,
    h.shelved.registerAnonymous hp property typeName body.description,
    fun he => (h.remembered he).mono hextends, ?_⟩
  intro group name id hid
  change (Model.registerAnonymous _ _ _ _ _).2.named? group name = some id at hid
  rw [Model.named?_registerAnonymous] at hid
  exact h.known_mono hid hextends fun he => he

/-! Registering a definition. -/

/-- The import with a definition just registered and remembered. -/
def define (i : Importer) (key : String) (q : QualifiedName) (definition : Schema) : Importer :=
  Importer.remember { i with
    model := (i.model.registerNamed (GroupKey.of q) q.name (definedKind q definition)
      definition.description).2 } key (.type i.model.types.size)

theorem importDefinition_eq {follow : Importer → String → Except Error TypeExpr × Importer}
    (hnew : i.model.find? (GroupKey.of q) ((GroupKey.of q).qualify q.name) = none) (key : String)
    (definition : Schema) : importDefinition c follow i key q definition =
      if definition.isRecord then (.ok (.type i.model.types.size),
        (i.define key q definition).enqueue i.model.types.size definition)
      else if definition.isUnconstrained then
        (.ok (.type i.model.types.size), i.define key q definition)
      else
        match importWith c follow (i.define key q definition) i.model.types.size "item" none
            definition with
        | (.ok target, j) => (.ok (.type i.model.types.size),
            { j with model := j.model.setKind i.model.types.size (.synonym target) })
        | (.error e, j) => (.error e, j) := by
  have hid : ∀ kind description, (i.model.registerNamed (GroupKey.of q) q.name kind description).1 =
      i.model.types.size := fun kind description => by rw [Model.registerNamed_new hnew]
  rw [importDefinition, define, definedKind]
  by_cases hrecord : definition.isRecord = true
  · simp only [hrecord, if_true, registerRoot, hnew, hid]
    rfl
  · simp only [hrecord, hid]
    rfl

theorem importRef_known {path : String} {e : TypeExpr}
    (h : Table.get? (QualifiedName.identifier path) i.resolved = some e) :
    i.importRef c path = (.ok e, i) := by
  rw [importRef, followRef, importReference]
  simp only [h]

theorem followRef_record {path : String} (hkey : QualifiedName.identifier path = key)
    (hnew : Table.get? key i.resolved = none) (hq : parse? key = some q) (hw : wellKnown? q = none)
    (hd : Table.get? key c.definitions = some definition) (hrecord : definition.isRecord = true)
    (hfind : i.model.find? (GroupKey.of q) ((GroupKey.of q).qualify q.name) = none) (depth : Nat) :
    followRef c (depth + 1) i path = (.ok (.type i.model.types.size),
      (i.define key q definition).enqueue i.model.types.size definition) := by
  rw [followRef, importReference]
  simp only [hkey, hnew, hq, hw, hd]
  rw [importDefinition_eq hfind, if_pos hrecord]

theorem importRef_record (hkey : QualifiedName.identifier key = key)
    (hnew : Table.get? key i.resolved = none) (hq : parse? key = some q) (hw : wellKnown? q = none)
    (hd : Table.get? key c.definitions = some definition) (hrecord : definition.isRecord = true)
    (hfind : i.model.find? (GroupKey.of q) ((GroupKey.of q).qualify q.name) = none) :
    i.importRef c key = (.ok (.type i.model.types.size),
      (i.define key q definition).enqueue i.model.types.size definition) :=
  followRef_record hkey hnew hq hw hd hrecord hfind _

/-- A definition whose name its group has already keeps the type of the name. -/
theorem followRef_registered {path : String} {id : TypeId}
    (hkey : QualifiedName.identifier path = key) (hnew : Table.get? key i.resolved = none)
    (hq : parse? key = some q) (hw : wellKnown? q = none)
    (hd : Table.get? key c.definitions = some definition) (hrecord : definition.isRecord = true)
    (hfind : i.model.find? (GroupKey.of q) ((GroupKey.of q).qualify q.name) = some id) (depth : Nat) :
    followRef c (depth + 1) i path = (.ok (.type id), i.remember key (.type id)) := by
  rw [followRef, importReference]
  simp only [hkey, hnew, hq, hw, hd]
  rw [importDefinition, if_pos hrecord]
  simp only [registerRoot, hfind]

theorem importRef_synonym {e : TypeExpr} (hkey : QualifiedName.identifier key = key)
    (hnew : Table.get? key i.resolved = none) (hq : parse? key = some q) (hw : wellKnown? q = none)
    (hd : Table.get? key c.definitions = some definition) (hrecord : definition.isRecord = false)
    (hconstrained : definition.isUnconstrained = false)
    (hfind : i.model.find? (GroupKey.of q) ((GroupKey.of q).qualify q.name) = none)
    (htarget : importWith c (followRef c c.definitions.length) (i.define key q definition)
      i.model.types.size "item" none definition = (.ok e, j)) :
    i.importRef c key = (.ok (.type i.model.types.size),
      { j with model := j.model.setKind i.model.types.size (.synonym e) }) := by
  rw [importRef, followRef, importReference]
  simp only [hkey, hnew, hq, hw, hd]
  rw [importDefinition_eq hfind, if_neg (by simp [hrecord]), if_neg (by simp [hconstrained]), htarget]

theorem Coherent.define (h : Coherent c roots i) (hs : Unshared c roots) (hq : parse? key = some q)
    (hw : wellKnown? q = none) (hd : Table.get? key c.definitions = some definition)
    (hnew : Table.get? key i.resolved = none) : Coherent c roots (i.define key q definition) ∧
      Defined c (i.define key q definition).model key q definition i.model.types.size := by
  have hfind := h.unregistered hs hq hd hnew
  have hwell := h.ready.wellFormed
  have hextends := Model.extends_registerNamed hwell (GroupKey.of q) q.name (definedKind q definition)
    definition.description
  have hdefined : Defined c (i.define key q definition).model key q definition i.model.types.size := by
    refine ⟨hq, hw, hd, ?_, ?_⟩
    · change (Model.registerNamed _ _ _ _ _).2.named? _ _ = _
      rw [Model.named?_registerNamed_new hfind, if_pos ⟨rfl, rfl⟩]
    · change (Model.registerNamed _ _ _ _ _).2.label? _ = _
      rw [Model.label?_push (Model.types_registerNamed_new hfind _ _), if_pos rfl]
      exact congrArg some (definitionEntry_label q definition)
  refine ⟨⟨?_, ?_, ?_, ?_⟩, hdefined⟩
  · exact ((h.ready.registerNamed _ _ _ _).ready.remember _ _).ready
  · exact h.shelved.registerNamed hwell _ _ (definitionEntry_named q definition) _
  · intro k e hk
    rw [Importer.define, get?_remember] at hk
    split at hk
    · next heq =>
      rw [heq, ← Option.some.inj hk]
      exact .defined hdefined
    · exact (h.remembered hk).mono hextends
  · intro group name id hid
    change (Model.registerNamed _ _ _ _ _).2.named? group name = some id at hid
    rw [Model.named?_registerNamed_new hfind] at hid
    split at hid
    · obtain rfl := Option.some.inj hid
      exact .inr ⟨key, q, definition, hdefined, by rw [Importer.define, get?_remember, if_pos rfl]⟩
    · exact h.known_mono hid hextends fun he => get?_remember_of_some hnew he

theorem Coherent.enqueue (h : Coherent c roots i) {schema : Schema}
    (hready : (i.enqueue id schema).Ready) : Coherent c roots (i.enqueue id schema) :=
  ⟨hready, h.shelved, h.remembered, h.known⟩

end Importer

end SchemaCompiler
