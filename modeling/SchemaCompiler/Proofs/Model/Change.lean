import SchemaCompiler.Proofs.Model.Finalization

/-! Models as the outcome of changes. Whatever is done to a model, in whatever order, its arena and
the tables of its groups go on describing each other, and a named type is found where it was
registered. -/

namespace SchemaCompiler

inductive Change where
  | registerNamed (group : GroupKey) (name : String) (kind : TypeKind) (description : Option String)
  | registerAnonymous (parent : TypeId) (property : String) (typeName description : Option String)
  | setProperties (id : TypeId) (properties : List Property)
  | setKind (id : TypeId) (kind : TypeKind)
  | finalizeGroup (key : GroupKey)
  | finalize

namespace Model

def change (m : Model) : Change → Model
  | .registerNamed group name kind description => (m.registerNamed group name kind description).2
  | .registerAnonymous parent property typeName description =>
    (m.registerAnonymous parent property typeName description).2
  | .setProperties id properties => m.setProperties id properties
  | .setKind id kind => m.setKind id kind
  | .finalizeGroup key => m.finalizeGroup key
  | .finalize => m.finalize

/-- The model that `cs` make of the empty one, in order. -/
def ofChanges (cs : List Change) : Model := cs.foldl change {}

theorem ofChanges_append (cs cs' : List Change) :
    ofChanges (cs ++ cs') = cs'.foldl change (ofChanges cs) :=
  List.foldl_append

variable {m : Model}

theorem WellFormed.change (h : m.WellFormed) (c : Change) : (m.change c).WellFormed := by
  cases c with
  | registerNamed group name kind description => exact h.registerNamed group name kind description
  | registerAnonymous parent property typeName description =>
    exact h.registerAnonymous parent property typeName description
  | setProperties id properties => exact h.setProperties id properties
  | setKind id kind => exact h.setKind id kind
  | finalizeGroup key => exact h.finalizeGroup key
  | finalize => exact h.finalize

theorem WellFormed.changes (h : m.WellFormed) (cs : List Change) :
    (cs.foldl Model.change m).WellFormed := by
  induction cs generalizing m with
  | nil => exact h
  | cons c cs ih => exact ih (h.change c)

theorem wellFormed_ofChanges (cs : List Change) : (ofChanges cs).WellFormed :=
  wellFormed_empty.changes cs

/-! No bucket is without objects. -/

def Stocked (m : Model) : Prop :=
  ∀ key g short, m.group? key = some g → Table.get? short g.anonymous ≠ some []

theorem stocked_empty : Stocked {} := by
  simp [Stocked, group?, Table.get?]

theorem Stocked.alterGroup {m' : Model} (h : m.Stocked) (hgroups : m'.groups = m.groups) (key : GroupKey)
    {f : Group → Group} (hf : ∀ g short, (∀ short, Table.get? short g.anonymous ≠ some []) →
      Table.get? short (f g).anonymous ≠ some []) : (m'.alterGroup key f).Stocked := by
  intro k g short hg
  rw [group?_alterGroup, group?, group?, hgroups, ← group?, ← group?] at hg
  split at hg
  · obtain rfl := Option.some.inj hg
    refine hf _ short fun short => ?_
    cases hold : m.group? key with
    | none => simp [Table.get?]
    | some old => exact h key old short hold
  · exact h k g short hg

theorem Stocked.registerNamed (h : m.Stocked) (group : GroupKey) (name : String) (kind : TypeKind)
    (description : Option String) : (m.registerNamed group name kind description).2.Stocked := by
  cases hf : m.find? group (group.qualify name) with
  | some id => rwa [registerNamed_known hf]
  | none =>
    rw [registerNamed_new hf]
    exact h.alterGroup rfl group fun g short hg => hg short

theorem Stocked.registerAnonymous (h : m.Stocked) (parent : TypeId) (property : String)
    (typeName description : Option String) :
    (m.registerAnonymous parent property typeName description).2.Stocked := by
  cases hp : m.types[parent]? with
  | none => rwa [registerAnonymous_orphan hp]
  | some above =>
    rw [registerAnonymous_new hp]
    refine h.alterGroup rfl _ fun g short hg => ?_
    rw [Table.get?_alter]
    split
    · simp
    · exact hg short

theorem Stocked.finalizeGroup (h : m.Stocked) (hwf : m.WellFormed) (key : GroupKey) :
    (m.finalizeGroup key).Stocked := by
  cases hg : m.group? key with
  | none => rwa [finalizeGroup_absent hg]
  | some g =>
    intro k g' short hg'
    rw [finalizeGroup_eq hg, group?_setFinalized] at hg'
    split at hg'
    · obtain rfl := Option.some.inj hg'
      exact h key g short hg
    · rw [hwf.group?_reconcile hg] at hg'
      exact h k g' short hg'

theorem Stocked.finalize (h : m.Stocked) (hwf : m.WellFormed) : m.finalize.Stocked := by
  rw [Model.finalize]
  generalize m.keys = keys
  induction keys generalizing m with
  | nil => exact h
  | cons key keys ih => exact ih (h.finalizeGroup hwf key) (hwf.finalizeGroup key)

theorem Stocked.change (h : m.Stocked) (hwf : m.WellFormed) (c : Change) : (m.change c).Stocked := by
  cases c with
  | registerNamed group name kind description => exact h.registerNamed group name kind description
  | registerAnonymous parent property typeName description =>
    exact h.registerAnonymous parent property typeName description
  | setProperties id properties => exact h
  | setKind id kind => exact h
  | finalizeGroup key => exact h.finalizeGroup hwf key
  | finalize => exact h.finalize hwf

theorem Stocked.changes (h : m.Stocked) (hwf : m.WellFormed) (cs : List Change) :
    (cs.foldl Model.change m).Stocked := by
  induction cs generalizing m with
  | nil => exact h
  | cons c cs ih => exact ih (h.change hwf c) (hwf.change c)

theorem stocked_ofChanges (cs : List Change) : (ofChanges cs).Stocked :=
  stocked_empty.changes wellFormed_empty cs

/-! Named types stay. -/

theorem WellFormed.named?_registerNamed (h : m.WellFormed) (group : GroupKey) (name : String)
    (kind : TypeKind) (description : Option String) :
    (m.registerNamed group name kind description).2.named? group name =
      some (m.registerNamed group name kind description).1 := by
  cases hf : m.find? group (group.qualify name) with
  | some id => rw [registerNamed_known hf, ← h.indexed, hf]
  | none => rw [named?_registerNamed_new hf, if_pos ⟨rfl, rfl⟩, registerNamed_new hf]

theorem WellFormed.named?_finalizeGroup (h : m.WellFormed) (k key : GroupKey) (name : String) :
    (m.finalizeGroup k).named? key name = m.named? key name := by
  cases hg : m.group? k with
  | none => rw [finalizeGroup_absent hg]
  | some g =>
    rw [finalizeGroup_eq hg, named?_setFinalized ((h.group?_reconcile hg k).trans hg), named?,
      h.group?_reconcile hg, named?]

theorem WellFormed.named?_foldl (h : m.WellFormed) (keys : List GroupKey) (key : GroupKey)
    (name : String) : (keys.foldl Model.finalizeGroup m).named? key name = m.named? key name := by
  induction keys generalizing m with
  | nil => rfl
  | cons k keys ih => rw [List.foldl_cons, ih (h.finalizeGroup k), h.named?_finalizeGroup]

theorem WellFormed.named?_finalize (h : m.WellFormed) (key : GroupKey) (name : String) :
    m.finalize.named? key name = m.named? key name :=
  h.named?_foldl m.keys key name

theorem WellFormed.named?_change (h : m.WellFormed) {key : GroupKey} {name : String} {id : TypeId}
    (hid : m.named? key name = some id) (c : Change) : (m.change c).named? key name = some id := by
  cases c with
  | registerNamed group n kind description =>
    cases hf : m.find? group (group.qualify n) with
    | some id => rwa [Model.change, registerNamed_known hf]
    | none =>
      have hne : ¬(key = group ∧ name = n) := by
        rintro ⟨rfl, rfl⟩
        rw [h.indexed, hid] at hf
        cases hf
      rwa [Model.change, named?_registerNamed_new hf, if_neg hne]
  | registerAnonymous parent property typeName description =>
    rwa [Model.change, named?_registerAnonymous]
  | setProperties i properties => exact hid
  | setKind i kind => exact hid
  | finalizeGroup k => rwa [Model.change, h.named?_finalizeGroup]
  | finalize => rwa [Model.change, h.named?_finalize]

theorem WellFormed.named?_changes (h : m.WellFormed) {key : GroupKey} {name : String} {id : TypeId}
    (hid : m.named? key name = some id) (cs : List Change) :
    (cs.foldl Model.change m).named? key name = some id := by
  induction cs generalizing m with
  | nil => exact hid
  | cons c cs ih => exact ih (h.change c) (h.named?_change hid c)

end Model

end SchemaCompiler
