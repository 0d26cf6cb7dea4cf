import SchemaCompiler.Proofs.Import.Coherence

/-! What an import never loses. Whether its calls succeed or fail, a definition that has been met goes on
standing for the same type, and that type stays as it was unless a body is read for it or another
definition has its name. -/

namespace SchemaCompiler

open QualifiedName (parse?)

namespace Importer

variable {c : ImportSettings} {i j k : Importer} {key : String} {q : QualifiedName}
  {definition : Schema} {id parent : TypeId} {follow : Importer → String → Except Error TypeExpr × Importer}

/-- No definition but that under `key` is read as the name `q`. -/
def Sole (c : ImportSettings) (key : String) (q : QualifiedName) : Prop :=
  ∀ {key' definition}, Table.get? key' c.definitions = some definition → parse? key' = some q →
    key' = key

/-- `j` has lost nothing that `i` had. -/
structure Retains (c : ImportSettings) (i j : Importer) : Prop where
  ready : j.Ready
  named : ∀ {group name id}, i.model.named? group name = some id → j.model.named? group name = some id
  resolved : ∀ {key e}, Table.get? key i.resolved = some e → Table.get? key j.resolved = some e
  /-- What is no name is not remembered. -/
  unread : ∀ {key}, parse? key = none → Table.get? key j.resolved = Table.get? key i.resolved
  idle : ∀ {group name id}, i.model.named? group name = some id → id ∉ i.pending.map Pending.id →
    id ∉ j.pending.map Pending.id
  same : ∀ {key q e id}, Table.get? key i.resolved = some e → Sole c key q →
    i.model.named? (GroupKey.of q) q.name = some id → id ∉ i.pending.map Pending.id →
    j.model.types[id]? = i.model.types[id]?

theorem Retains.refl (h : i.Ready) : Retains c i i :=
  ⟨h, fun hid => hid, fun he => he, fun _ => rfl, fun _ hp => hp, fun _ _ _ _ => rfl⟩

theorem Retains.trans (h : Retains c i j) (h' : Retains c j k) : Retains c i k where
  ready := h'.ready
  named := fun hid => h'.named (h.named hid)
  resolved := fun he => h'.resolved (h.resolved he)
  unread := fun hq => (h'.unread hq).trans (h.unread hq)
  idle := fun hid hp => h'.idle (h.named hid) (h.idle hid hp)
  same := fun he hsole hid hp =>
    (h'.same (h.resolved he) hsole (h.named hid) (h.idle hid hp)).trans (h.same he hsole hid hp)

/-- A body is put into the queue only for a type that is new. -/
theorem Step.idle (h : Step i j) (hi : i.Ready) {group : GroupKey} {name : String}
    (hid : i.model.named? group name = some id) (hp : id ∉ i.pending.map Pending.id) :
    id ∉ j.pending.map Pending.id := by
  obtain ⟨more, hmore, hnew⟩ := h.pending
  rw [hmore, List.map_append, List.mem_append, not_or]
  refine ⟨hp, fun hmem => ?_⟩
  obtain ⟨p, hlate, rfl⟩ := List.mem_map.mp hmem
  exact absurd (hi.wellFormed.named_lt hid) (Nat.not_lt.mpr (hnew p hlate))

/-- Nothing is remembered, and no type that is there is changed. -/
theorem Step.retains (h : Step i j) (hi : i.Ready) (hresolved : j.resolved = i.resolved)
    (hsame : ∀ {id : TypeId}, id < i.model.types.size → j.model.types[id]? = i.model.types[id]?) :
    Retains c i j where
  ready := h.ready
  named := h.named
  resolved := fun he => hresolved ▸ he
  unread := fun _ => congrArg (Table.get? _) hresolved
  idle := h.idle hi
  same := fun _ _ hid _ => hsame (hi.wellFormed.named_lt hid)

theorem Retains.remember (h : Retains c i j) (hnew : Table.get? key j.resolved = none)
    (hq : parse? key = some q) (e : TypeExpr) : Retains c i (j.remember key e) where
  ready := (h.ready.remember key e).ready
  named := h.named
  resolved := fun he => get?_remember_of_some hnew (h.resolved he)
  unread := by
    intro key' hq'
    have hne : key' ≠ key := by
      rintro rfl
      cases hq.symm.trans hq'
    rw [get?_remember, if_neg hne]
    exact h.unread hq'
  idle := h.idle
  same := h.same

/-- The target is set of a synonym whose definition had not been met before. -/
theorem Retains.setKind (h : Retains c i j) (hnew : Table.get? key i.resolved = none)
    (hq : parse? key = some q) (hd : Table.get? key c.definitions = some definition)
    (hid : j.model.named? (GroupKey.of q) q.name = some id) (kind : TypeKind) :
    Retains c i { j with model := j.model.setKind id kind } where
  ready := (h.ready.setKind hid kind).ready
  named := h.named
  resolved := h.resolved
  unread := h.unread
  idle := h.idle
  same := by
    intro key' q' e id' he hsole hid' hp
    have hne : id' ≠ id := by
      rintro rfl
      obtain ⟨t, ht, hgroup, hname, -⟩ := h.ready.wellFormed.named hid
      obtain ⟨t', ht', hgroup', hname', -⟩ := h.ready.wellFormed.named (h.named hid')
      obtain rfl := Option.some.inj (ht.symm.trans ht')
      obtain rfl := GroupKey.of_inj.mp ⟨hgroup.symm.trans hgroup', hname.symm.trans hname'⟩
      obtain rfl := hsole hd hq
      cases hnew.symm.trans he
    change (j.model.setKind id kind).types[id']? = _
    rw [Model.getElem?_setKind, if_neg hne]
    exact h.same he hsole hid' hp

theorem resolved_registerRoot (i : Importer) (group : GroupKey) (name : String) (kind : TypeKind)
    (schema : Schema) : (i.registerRoot group name kind schema).2.resolved = i.resolved := by
  rw [registerRoot]
  split <;> rfl

theorem retains_registerRoot (h : i.Ready) (group : GroupKey) (name : String) (kind : TypeKind)
    (schema : Schema) : Retains c i (i.registerRoot group name kind schema).2 := by
  refine (h.registerRoot group name kind schema).retains h (resolved_registerRoot ..) fun {id} hid => ?_
  rw [registerRoot]
  split
  · rfl
  · exact Model.getElem?_registerNamed _ _ _ _ _ hid

theorem retains_importObject (h : i.Ready) (hp : parent < i.model.types.size) (property : String)
    (typeName : Option String) (body : Schema) :
    Retains c i (i.importObject c parent property typeName body).2 := by
  cases hinfer : c.inference.bind (Signature.infer · property body) with
  | some q =>
    rw [importObject, hinfer]
    exact .refl h
  | none =>
    rw [importObject_new hinfer]
    exact (h.registerObject hp property typeName body).retains h rfl
      (Model.getElem?_registerAnonymous _ _ _ _ _)

/-! Definitions. -/

/-- A synonym is registered and remembered whose target is not known yet. -/
def announce (i : Importer) (key : String) (q : QualifiedName) (definition : Schema) :
    TypeId × Importer :=
  let (id, model) := i.model.registerNamed (GroupKey.of q) q.name (.synonym (.primitive .any))
    definition.description
  (id, { i with model }.remember key (.type id))

theorem importDefinition_synonym (hrecord : definition.isRecord = false) (key : String)
    (q : QualifiedName) : importDefinition c follow i key q definition =
      if definition.isUnconstrained then
        (.ok (.type (i.announce key q definition).1), (i.announce key q definition).2)
      else
        match importWith c follow (i.announce key q definition).2 (i.announce key q definition).1 "item"
            none definition with
        | (.ok target, j) => (.ok (.type (i.announce key q definition).1),
            { j with model := j.model.setKind (i.announce key q definition).1 (.synonym target) })
        | (.error e, j) => (.error e, j) := by
  rw [importDefinition, if_neg (by simp [hrecord])]
  rfl

theorem Ready.named?_announce (h : i.Ready) (key : String) (q : QualifiedName) (definition : Schema) :
    (i.announce key q definition).2.model.named? (GroupKey.of q) q.name =
      some (i.announce key q definition).1 :=
  h.wellFormed.named?_registerNamed _ _ _ _

theorem get?_announce (i : Importer) (key : String) (q : QualifiedName) (definition : Schema)
    (key' : String) : Table.get? key' (i.announce key q definition).2.resolved =
      if key' = key then some (.type (i.announce key q definition).1) else Table.get? key' i.resolved :=
  get?_remember _ _ _ _

theorem retains_announce (h : i.Ready) (hnew : Table.get? key i.resolved = none)
    (hq : parse? key = some q) (definition : Schema) :
    Retains c i (i.announce key q definition).2 := by
  have hregister := h.registerNamed (GroupKey.of q) q.name (.synonym (.primitive .any))
    definition.description
  exact (hregister.retains h rfl (Model.getElem?_registerNamed _ _ _ _ _)).remember hnew hq _

theorem retains_importWith (h : i.Ready) (hfollow : ∀ path, Retains c i (follow i path).2)
    (hp : parent < i.model.types.size) (property : String) (typeName : Option String)
    (schema : Schema) : Retains c i (importWith c follow i parent property typeName schema).2 := by
  rw [Importer.importWith]
  split
  · exact .refl h
  · next layers core _ =>
    cases core with
    | expr e => exact .refl h
    | object body => exact retains_importObject h hp property typeName body
    | reference path => exact hfollow path

theorem retains_importDefinition (h : i.Ready)
    (hfollow : ∀ {i : Importer}, i.Ready → ∀ path, Retains c i (follow i path).2)
    (hnew : Table.get? key i.resolved = none) (hq : parse? key = some q)
    (hd : Table.get? key c.definitions = some definition) :
    Retains c i (importDefinition c follow i key q definition).2 := by
  cases hrecord : definition.isRecord with
  | true =>
    rw [importDefinition, if_pos hrecord]
    refine (retains_registerRoot h _ _ _ _).remember ?_ hq _
    rwa [resolved_registerRoot]
  | false =>
    have hannounce := retains_announce (c := c) h hnew hq definition
    rw [importDefinition_synonym hrecord]
    split
    · exact hannounce
    · have hnamed := h.named?_announce key q definition
      have htarget := retains_importWith hannounce.ready (hfollow hannounce.ready)
        (hannounce.ready.wellFormed.named_lt hnamed) "item" none definition
      split
      · next target j he =>
        rw [he] at htarget
        exact (hannounce.trans htarget).setKind hnew hq hd (htarget.named hnamed) (.synonym target)
      · next e j he =>
        rw [he] at htarget
        exact hannounce.trans htarget

theorem retains_followRef (h : i.Ready) (depth : Nat) (reference : String) :
    Retains c i (followRef c depth i reference).2 := by
  induction depth generalizing i reference with
  | zero => exact .refl h
  | succ depth ih =>
    rw [followRef, importReference]
    split
    · exact .refl h
    · next hnew =>
      split
      · exact .refl h
      · next q hq =>
        split
        · exact (Retains.refl h).remember hnew hq _
        · exact (Retains.refl h).remember hnew hq _
        · next definition _ hd =>
          exact retains_importDefinition h (fun hi path => ih hi path) hnew hq hd

theorem retains_importRef (h : i.Ready) (reference : String) :
    Retains c i (i.importRef c reference).2 :=
  retains_followRef h _ reference

/-! Bodies. -/

theorem retains_importFields (h : i.Ready) {b : BodyContext} (hb : b.id < i.model.types.size)
    (fields : List (String × Schema)) : Retains c i (importFields c b i fields).2 := by
  induction fields generalizing i with
  | nil => exact .refl h
  | cons field fields ih =>
    obtain ⟨name, declared⟩ := field
    have hfirst : Retains c i (importField c b i name declared).2 := by
      rw [importField_eq]
      split
      · rw [keptField]
        split
        · exact .refl h
        · exact retains_importWith h (fun path => retains_importRef h path) hb name _ _
      · exact .refl h
    have hsize := (h.importField (c := c) hb name declared).size_le
    rw [Importer.importFields]
    split
    · next e j he => rwa [he] at hfirst
    · next p j he =>
      rw [he] at hfirst hsize
      have hrest := hfirst.trans (ih hfirst.ready (Nat.lt_of_lt_of_le hb hsize))
      split
      · next e k hk => rwa [hk] at hrest
      · next ps k hk => rwa [hk] at hrest

theorem retains_pop (h : i.Ready) {p : Pending} {rest : List Pending} (hp : i.pending = p :: rest) :
    Retains c i { i with pending := rest } := by
  refine ⟨(h.pop hp).1, fun hid => hid, fun he => he, fun _ => rfl, fun _ hidle => ?_,
    fun _ _ _ _ => rfl⟩
  rw [hp, List.map_cons, List.mem_cons, not_or] at hidle
  exact hidle.2

/-- A body is read for a type that waits for it. -/
theorem retains_importBody (h : i.Ready) {p : Pending} {rest : List Pending}
    (hp : i.pending = p :: rest) : Retains c i (importBody c { i with pending := rest } p).2 := by
  obtain ⟨hrest, hlt, -⟩ := h.pop hp
  have hfields := (retains_pop (c := c) h hp).trans
    (retains_importFields hrest (b := bodyContext c i.model p) hlt p.schema.properties)
  rw [importBody]
  split
  · next e j he =>
    rw [he] at hfields
    exact hfields
  · next ps j he =>
    rw [he] at hfields
    refine ⟨hfields.ready.withModel (hfields.ready.wellFormed.setProperties p.id ps)
      (Nat.le_of_eq Model.size_amend.symm), hfields.named, hfields.resolved, hfields.unread,
      hfields.idle, fun {key q e id} he hsole hid hidle => ?_⟩
    have hne : id ≠ p.id := by
      rintro rfl
      rw [hp, List.map_cons] at hidle
      exact hidle List.mem_cons_self
    change (j.model.setProperties p.id ps).types[id]? = _
    rw [Model.getElem?_setProperties, if_neg hne]
    exact hfields.same he hsole hid hidle

theorem retains_run (h : i.Ready) (limit : Nat) : Retains c i (run c limit i).2 := by
  induction limit generalizing i with
  | zero =>
    cases hp : i.pending with
    | nil =>
      rw [run_nil hp]
      exact .refl h
    | cons p rest =>
      rw [run_zero hp]
      exact .refl h
  | succ limit ih =>
    cases hp : i.pending with
    | nil =>
      rw [run_nil hp]
      exact .refl h
    | cons p rest =>
      have hbody := retains_importBody (c := c) h hp
      cases hresult : importBody c { i with pending := rest } p with
      | mk r j =>
        rw [hresult] at hbody
        cases r with
        | ok u =>
          rw [run_succ_ok hp hresult]
          exact hbody.trans (ih hbody.ready)
        | error e =>
          rw [run_succ_error hp hresult]
          exact hbody

/-! Calls of any outcome. -/

/-- Calls lead from `i` to this state, whether they succeed or fail. -/
inductive Later (c : ImportSettings) (i : Importer) : Importer → Prop where
  | here : Later c i i
  | registerRoot {j : Importer} (h : Later c i j) (group : GroupKey) (name : String) (kind : TypeKind)
      (schema : Schema) : Later c i (j.registerRoot group name kind schema).2
  | importRef {j : Importer} (h : Later c i j) (reference : String) :
      Later c i (j.importRef c reference).2
  | run {j : Importer} (h : Later c i j) (limit : Nat) : Later c i (run c limit j).2

theorem Later.trans (h : Later c i j) (h' : Later c j k) : Later c i k := by
  induction h' with
  | here => exact h
  | registerRoot _ group name kind schema ih => exact .registerRoot ih group name kind schema
  | importRef _ reference ih => exact .importRef ih reference
  | run _ limit ih => exact .run ih limit

/-- No call makes an import lose anything. -/
theorem Later.retains (h : Later c i j) (hi : i.Ready) : Retains c i j := by
  induction h with
  | here => exact .refl hi
  | registerRoot _ group name kind schema ih =>
    exact ih.trans (retains_registerRoot ih.ready group name kind schema)
  | importRef _ reference ih => exact ih.trans (retains_importRef ih.ready reference)
  | run _ limit ih => exact ih.trans (retains_run ih.ready limit)

end Importer

end SchemaCompiler
