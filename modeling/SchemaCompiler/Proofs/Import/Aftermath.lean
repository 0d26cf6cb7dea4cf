import SchemaCompiler.Proofs.Import.Failure
import SchemaCompiler.Proofs.Import.Retention

/-! What a reference leaves behind that cannot be followed. A definition that becomes a synonym is
remembered before its target is known, so that the definitions on the way to a failure stay behind as
synonyms without a target, and none of them is ever followed again. -/

namespace SchemaCompiler

open QualifiedName (parse? identifier)

namespace Importer

variable {c : ImportSettings} {i j k : Importer} {key key' path : String} {q : QualifiedName}
  {definition : Schema} {id parent : TypeId} {e : Error}

/-! How following a reference fails. -/

section Step

variable {follow : Importer → String → Except Error TypeExpr × Importer}

/-- A property can only fail where its schema is taken apart, or in the reference at its core. -/
theorem importWith_error_iff {property : String} {typeName : Option String} {schema : Schema} :
    importWith c follow i parent property typeName schema = (.error e, k) ↔
      schema.layered (i.model.fullNameOf parent ++ "." ++ property) none = .error e ∧ i = k ∨
      ∃ layers path, schema.layered (i.model.fullNameOf parent ++ "." ++ property) none =
        .ok ⟨layers, .reference path⟩ ∧ follow i path = (.error e, k) := by
  rw [importWith]
  cases hs : schema.layered (i.model.fullNameOf parent ++ "." ++ property) none with
  | error e' => simp
  | ok l =>
    obtain ⟨layers, core⟩ := l
    cases core with
    | expr e' => simp
    | object body => simp
    | reference path =>
      cases hf : follow i path with
      | mk r j => cases r <;> simp [Except.map, hf]

/-- The definition under `key` has not been met yet, and is to become a synonym with a target. -/
structure Opens (c : ImportSettings) (i : Importer) (key : String) (q : QualifiedName)
    (definition : Schema) : Prop where
  name : parse? key = some q
  ordinary : wellKnown? q = none
  defined : Table.get? key c.definitions = some definition
  fresh : Table.get? key i.resolved = none
  synonym : definition.isRecord = false
  constrained : definition.isUnconstrained = false

theorem importDefinition_error_iff :
    importDefinition c follow i key q definition = (.error e, k) ↔
      definition.isRecord = false ∧ definition.isUnconstrained = false ∧
        importWith c follow (i.announce key q definition).2 (i.announce key q definition).1 "item" none
          definition = (.error e, k) := by
  cases hrecord : definition.isRecord with
  | true => simp [importDefinition, hrecord]
  | false =>
    rw [importDefinition_synonym hrecord]
    cases hu : definition.isUnconstrained with
    | true => simp
    | false =>
      cases himport : importWith c follow (i.announce key q definition).2
        (i.announce key q definition).1 "item" none definition with
      | mk r j => cases r <;> simp

/-- Following a reference fails where it is no name, and where the target of its definition fails. -/
theorem importReference_error_iff : importReference c follow i path = (.error e, k) ↔
    Table.get? (identifier path) i.resolved = none ∧ parse? (identifier path) = none ∧
      .unknownGroup (identifier (identifier path)) = e ∧ i = k ∨
    ∃ q definition, Opens c i (identifier path) q definition ∧
      importWith c follow (i.announce (identifier path) q definition).2
        (i.announce (identifier path) q definition).1 "item" none definition = (.error e, k) := by
  rw [importReference]
  cases hnew : Table.get? (identifier path) i.resolved with
  | some e' =>
    simp only [Prod.mk.injEq, reduceCtorEq, false_and, false_or, false_iff]
    rintro ⟨q, definition, hopens, -⟩
    cases hopens.fresh.symm.trans hnew
  | none =>
    cases hq : parse? (identifier path) with
    | none =>
      simp only [Prod.mk.injEq, Except.error.injEq, true_and]
      refine (or_iff_left ?_).symm
      rintro ⟨q, definition, hopens, -⟩
      cases hopens.name.symm.trans hq
    | some q =>
      simp only [reduceCtorEq, false_and, and_false, false_or]
      cases hw : wellKnown? q with
      | some w =>
        simp only [Prod.mk.injEq, reduceCtorEq, false_and, false_iff]
        rintro ⟨q', definition, hopens, -⟩
        obtain rfl := Option.some.inj (hq.symm.trans hopens.name)
        cases hopens.ordinary.symm.trans hw
      | none =>
        cases hd : Table.get? (identifier path) c.definitions with
        | none =>
          simp only [Prod.mk.injEq, reduceCtorEq, false_and, false_iff]
          rintro ⟨q', definition, hopens, -⟩
          cases hopens.defined.symm.trans hd
        | some definition =>
          simp only [importDefinition_error_iff]
          constructor
          · rintro ⟨hrecord, hu, himport⟩
            exact ⟨q, definition, ⟨hq, hw, hd, hnew, hrecord, hu⟩, himport⟩
          · rintro ⟨q', definition', hopens, himport⟩
            obtain rfl := Option.some.inj (hq.symm.trans hopens.name)
            obtain rfl := Option.some.inj (hd.symm.trans hopens.defined)
            exact ⟨hopens.synonym, hopens.constrained, himport⟩

end Step

/-- Following `path` from `i` fails with `e` and leaves `k`. -/
inductive Fails (c : ImportSettings) : Importer → String → Error → Importer → Prop where
  | unread {i : Importer} {path : String} (hnew : Table.get? (identifier path) i.resolved = none)
      (hq : parse? (identifier path) = none) :
      Fails c i path (.unknownGroup (identifier (identifier path))) i
  | shapeless {i j : Importer} {path : String} {q : QualifiedName} {definition : Schema} {id : TypeId}
      {e : Error} (h : Opens c i (identifier path) q definition)
      (hj : i.announce (identifier path) q definition = (id, j))
      (hs : definition.layered (j.model.fullNameOf id ++ "." ++ "item") none = .error e) :
      Fails c i path e j
  | through {i j k : Importer} {path path' : String} {q : QualifiedName} {definition : Schema}
      {id : TypeId} {layers : List Layer} {e : Error} (h : Opens c i (identifier path) q definition)
      (hj : i.announce (identifier path) q definition = (id, j))
      (hs : definition.layered (j.model.fullNameOf id ++ "." ++ "item") none =
        .ok ⟨layers, .reference path'⟩)
      (hrest : Fails c j path' e k) : Fails c i path e k

theorem Opens.unresolved_lt (h : Opens c i key q definition)
    (hj : i.announce key q definition = (id, j)) : unresolved c j < unresolved c i := by
  obtain rfl := congrArg Prod.snd hj
  exact unresolved_remember_lt (i := { i with model := _ }) h.defined h.fresh _

theorem fails_of_followRef {depth : Nat} (h : followRef c depth i path = (.error e, k))
    (hdepth : unresolved c i < depth) : Fails c i path e k := by
  induction depth generalizing i path with
  | zero => exact absurd hdepth (Nat.not_lt_zero _)
  | succ depth ih =>
    rw [followRef, importReference_error_iff] at h
    obtain ⟨hnew, hq, rfl, rfl⟩ | ⟨q, definition, hopens, himport⟩ := h
    · exact .unread hnew hq
    · rcases importWith_error_iff.mp himport with ⟨hs, rfl⟩ | ⟨layers, path', hs, hrest⟩
      · exact .shapeless hopens rfl hs
      · have hlt := hopens.unresolved_lt rfl
        exact .through hopens rfl hs (ih hrest (by omega))

theorem Fails.importRef (h : Fails c i path e k) : i.importRef c path = (.error e, k) := by
  induction h with
  | unread hnew hq =>
    rw [Importer.importRef, followRef, importReference_error_iff]
    exact .inl ⟨hnew, hq, rfl, rfl⟩
  | @shapeless i j path q definition id e hopens hj hs =>
    rw [Importer.importRef, followRef, importReference_error_iff]
    refine .inr ⟨q, definition, hopens, ?_⟩
    rw [hj]
    exact importWith_error_iff.mpr (.inl ⟨hs, rfl⟩)
  | @through i j k path path' q definition id layers e hopens hj hs _ ih =>
    rw [Importer.importRef, followRef, importReference_error_iff]
    refine .inr ⟨q, definition, hopens, ?_⟩
    rw [hj]
    refine importWith_error_iff.mpr (.inr ⟨layers, path', hs, ?_⟩)
    change followRef c c.definitions.length j path' = (.error e, k)
    have hlt := hopens.unresolved_lt hj
    have hle := unresolved_le c i
    rw [← ih, Importer.importRef]
    exact followRef_depth (by omega) (by omega) path'

/-- A reference fails in no other way. -/
theorem importRef_error_iff : i.importRef c path = (.error e, k) ↔ Fails c i path e k := by
  refine ⟨fun h => fails_of_followRef h ?_, Fails.importRef⟩
  have hle := unresolved_le c i
  omega

/-! What is left. -/

/-- A definition that had not been met once another was announced had not been met before either. -/
theorem Opens.of_announce {q' : QualifiedName} {definition' : Schema}
    (h : Opens c (i.announce key q definition).2 key' q' definition') :
    key' ≠ key ∧ Opens c i key' q' definition' := by
  have hfresh := h.fresh
  rw [get?_announce] at hfresh
  split at hfresh
  · cases hfresh
  · next hne => exact ⟨hne, { h with fresh := hfresh }⟩

/-- The type of a synonym whose target is not known. -/
def placeholder (q : QualifiedName) (definition : Schema) : TypeEntry :=
  Model.namedEntry (GroupKey.of q) q.name (.synonym (.primitive .any)) definition.description

/-- Between `i` and `k` nothing was done but to announce synonyms. -/
structure Leaves (c : ImportSettings) (i k : Importer) : Prop where
  pending : k.pending = i.pending
  size_le : i.model.types.size ≤ k.model.types.size
  same : ∀ {id : TypeId}, id < i.model.types.size → k.model.types[id]? = i.model.types[id]?
  fresh : ∀ {id t}, i.model.types.size ≤ id → k.model.types[id]? = some t →
    ∃ key q definition, Opens c i key q definition ∧ t = placeholder q definition

theorem Leaves.refl (c : ImportSettings) (i : Importer) : Leaves c i i where
  pending := rfl
  size_le := Nat.le_refl _
  same := fun _ => rfl
  fresh := fun hle ht => absurd (Array.getElem?_eq_some_iff.mp ht).1 (Nat.not_lt.mpr hle)

theorem model_announce_known
    (h : i.model.find? (GroupKey.of q) ((GroupKey.of q).qualify q.name) = some id)
    (definition : Schema) : (i.announce key q definition).2.model = i.model := by
  simp only [announce, Model.registerNamed_known h, remember]

theorem types_announce_new
    (h : i.model.find? (GroupKey.of q) ((GroupKey.of q).qualify q.name) = none)
    (key : String) (definition : Schema) : (i.announce key q definition).1 = i.model.types.size ∧
      (i.announce key q definition).2.model.types = i.model.types.push (placeholder q definition) := by
  constructor
  · rw [announce, Model.registerNamed_new h]
  · exact Model.types_registerNamed_new h _ _

theorem Opens.leaves (h : Opens c i key q definition) :
    Leaves c i (i.announce key q definition).2 where
  pending := rfl
  size_le := Model.size_registerNamed_le _ _ _ _ _
  same := fun hid => Model.getElem?_registerNamed _ _ _ _ _ hid
  fresh := by
    intro id t hle ht
    cases hf : i.model.find? (GroupKey.of q) ((GroupKey.of q).qualify q.name) with
    | some known =>
      rw [model_announce_known hf] at ht
      exact absurd (Array.getElem?_eq_some_iff.mp ht).1 (Nat.not_lt.mpr hle)
    | none =>
      rw [(types_announce_new hf key definition).2, Array.getElem?_push] at ht
      split at ht
      · exact ⟨key, q, definition, h, (Option.some.inj ht).symm⟩
      · exact absurd (Array.getElem?_eq_some_iff.mp ht).1 (Nat.not_lt.mpr hle)

theorem Fails.leaves (h : Fails c i path e k) : Leaves c i k := by
  induction h with
  | unread => exact .refl c _
  | shapeless hopens hj =>
    obtain rfl := congrArg Prod.snd hj
    exact hopens.leaves
  | @through i j k path path' q definition id layers e hopens hj _ _ ih =>
    obtain rfl := congrArg Prod.snd hj
    have hfirst := hopens.leaves
    refine ⟨ih.pending.trans hfirst.pending, Nat.le_trans hfirst.size_le ih.size_le,
      fun hid => (ih.same (Nat.lt_of_lt_of_le hid hfirst.size_le)).trans (hfirst.same hid), ?_⟩
    intro id t hle ht
    rcases Nat.lt_or_ge id (i.announce (identifier path) q definition).2.model.types.size with hlt | hge
    · rw [ih.same hlt] at ht
      exact hfirst.fresh hle ht
    · obtain ⟨key', q', definition', hopens', rfl⟩ := ih.fresh hge ht
      exact ⟨key', q', definition', hopens'.of_announce.2, rfl⟩

/-- What was announced does not keep the import from being finished. -/
theorem Fails.finish (h : Fails c i path e k) (hp : i.pending = []) :
    k.finish c = .ok k.model.finalize := by
  rw [Importer.finish, drain, run_nil (h.leaves.pending.trans hp)]

/-- The definition under `key`, which `i` had not met, is remembered in `k` as the synonym `id`. -/
structure Announced (c : ImportSettings) (i k : Importer) (key : String) (q : QualifiedName)
    (definition : Schema) (id : TypeId) : Prop where
  opens : Opens c i key q definition
  named : k.model.named? (GroupKey.of q) q.name = some id
  remembered : Table.get? key k.resolved = some (.type id)
  /-- A name that is new belongs to a synonym without a target, unless it has other definitions. -/
  bare : i.model.named? (GroupKey.of q) q.name = none → Sole c key q →
    k.model.types[id]? = some (placeholder q definition) ∧ id ∉ k.pending.map Pending.id

theorem Opens.announced (h : Opens c i key q definition) (hi : i.Ready) :
    Announced c i (i.announce key q definition).2 key q definition (i.announce key q definition).1 where
  opens := h
  named := hi.named?_announce _ _ _
  remembered := by rw [get?_announce, if_pos rfl]
  bare := by
    intro hnone _
    rw [← hi.wellFormed.indexed] at hnone
    obtain ⟨hid, htypes⟩ := types_announce_new hnone key definition
    rw [hid, htypes]
    refine ⟨by rw [Array.getElem?_push, if_pos rfl], fun hmem => ?_⟩
    obtain ⟨p, hp, hid⟩ := List.mem_map.mp hmem
    exact Nat.ne_of_lt (hi.pending_lt p hp) hid

theorem Opens.retains (h : Opens c i key q definition) (hi : i.Ready) :
    Retains c i (i.announce key q definition).2 :=
  retains_announce hi h.fresh h.name definition

theorem Announced.retains (h : Announced c i j key q definition id) (hk : Retains c j k) :
    Announced c i k key q definition id where
  opens := h.opens
  named := hk.named h.named
  remembered := hk.resolved h.remembered
  bare := by
    intro hnone hsole
    obtain ⟨ht, hidle⟩ := h.bare hnone hsole
    exact ⟨(hk.same h.remembered hsole h.named hidle).trans ht, hk.idle h.named hidle⟩

theorem Announced.of_announce {q' : QualifiedName} {definition' : Schema}
    (h : Opens c i key q definition)
    (h' : Announced c (i.announce key q definition).2 k key' q' definition' id) :
    Announced c i k key' q' definition' id := by
  obtain ⟨hne, hopens⟩ := h'.opens.of_announce
  refine ⟨hopens, h'.named, h'.remembered, fun hnone hsole => h'.bare ?_ hsole⟩
  -- the name belongs to one definition only, so that announcing the other does not take it
  have hname : ¬(GroupKey.of q' = GroupKey.of q ∧ q'.name = q.name) := by
    intro heq
    obtain rfl := GroupKey.of_inj.mp heq
    exact hne (hsole h.defined h.name).symm
  cases hf : i.model.find? (GroupKey.of q) ((GroupKey.of q).qualify q.name) with
  | some known => rwa [model_announce_known hf]
  | none =>
    change (Model.registerNamed _ _ _ _ _).2.named? _ _ = none
    rw [Model.named?_registerNamed_new hf, if_neg hname, hnone]

theorem Fails.retains (h : Fails c i path e k) (hi : i.Ready) : Retains c i k := by
  have hretains := retains_importRef (c := c) hi path
  rwa [h.importRef] at hretains

theorem Opens.announced_of_fails (h : Opens c i key q definition) (hi : i.Ready)
    (hrest : Fails c (i.announce key q definition).2 path e k) :
    Announced c i k key q definition (i.announce key q definition).1 :=
  (h.announced hi).retains (hrest.retains (h.retains hi).ready)

/-- What is no name fails at once. -/
theorem Fails.of_unread (h : Fails c i path e k) (hq : parse? (identifier path) = none) :
    Table.get? (identifier path) i.resolved = none ∧
      e = .unknownGroup (identifier (identifier path)) ∧ k = i := by
  cases h with
  | unread hnew => exact ⟨hnew, rfl, rfl⟩
  | shapeless hopens => cases hq.symm.trans hopens.name
  | through hopens => cases hq.symm.trans hopens.name

/-- A name fails only once its definition is announced. -/
theorem Fails.of_read (h : Fails c i path e k) (hi : i.Ready) (hq : parse? (identifier path) = some q) :
    ∃ definition id, Announced c i k (identifier path) q definition id := by
  cases h with
  | unread _ hnone => cases hq.symm.trans hnone
  | shapeless hopens hj =>
    obtain rfl := Option.some.inj (hq.symm.trans hopens.name)
    obtain rfl := congrArg Prod.snd hj
    exact ⟨_, _, hopens.announced hi⟩
  | through hopens hj _ hrest =>
    obtain rfl := Option.some.inj (hq.symm.trans hopens.name)
    obtain rfl := congrArg Prod.snd hj
    exact ⟨_, _, hopens.announced_of_fails hi hrest⟩

/-- Whatever a failure has met is announced. -/
theorem Fails.announced (h : Fails c i path e k) (hi : i.Ready)
    (hnew : Table.get? key i.resolved = none) (hmet : (Table.get? key k.resolved).isSome) :
    ∃ q definition id, Announced c i k key q definition id := by
  induction h with
  | unread =>
    rw [hnew] at hmet
    cases hmet
  | shapeless hopens hj =>
    obtain rfl := congrArg Prod.snd hj
    rw [get?_announce] at hmet
    split at hmet
    · next heq =>
      subst heq
      exact ⟨_, _, _, hopens.announced hi⟩
    · rw [hnew] at hmet
      cases hmet
  | @through i j k path path' q definition id layers e hopens hj _ hrest ih =>
    obtain rfl := congrArg Prod.snd hj
    by_cases heq : key = identifier path
    · subst heq
      exact ⟨_, _, _, hopens.announced_of_fails hi hrest⟩
    · have hnew' : Table.get? key (i.announce (identifier path) q definition).2.resolved = none := by
        rw [get?_announce, if_neg heq, hnew]
      obtain ⟨q', definition', id', h'⟩ := ih (hopens.retains hi).ready hnew' hmet
      exact ⟨q', definition', id', .of_announce hopens h'⟩

/-! After a failure. -/

/-- The failure is repeated whatever else is done, and no name is left for what could not be
followed. -/
structure Clean (c : ImportSettings) (i k : Importer) (path : String) (e : Error) : Prop where
  repeats : ∀ {j}, Later c k j → (j.importRef c path).1 = .error e
  unregistered : ∀ {q}, parse? (identifier path) = some q →
    i.model.named? (GroupKey.of q) q.name = none → k.model.named? (GroupKey.of q) q.name = none

/-- The definition under `key`, which `i` had not met, is taken for the synonym `id` whatever else is
done. If its name was new and has no other definition, the synonym never gets a target, and is part of
the finished model. -/
structure Masked (c : ImportSettings) (i k : Importer) (key : String) (q : QualifiedName)
    (definition : Schema) (id : TypeId) : Prop where
  opens : Opens c i key q definition
  named : k.model.named? (GroupKey.of q) q.name = some id
  found : ∀ {j path}, Later c k j → identifier path = key → j.importRef c path = (.ok (.type id), j)
  bare : i.model.named? (GroupKey.of q) q.name = none → Sole c key q → ∀ {j}, Later c k j →
    j.model.types[id]? = some (placeholder q definition)
  finished : i.model.named? (GroupKey.of q) q.name = none → Sole c key q → ∀ {j m}, Later c k j →
    j.finish c = .ok m → m.named? (GroupKey.of q) q.name = some id ∧
      m.types[id]? = some (placeholder q definition)

theorem later_of_finish {m : Model} (h : j.finish c = .ok m) :
    ∃ l, Later c j l ∧ m = l.model.finalize := by
  rw [finish] at h
  split at h
  · next l hl =>
    refine ⟨l, ?_, (Except.ok.inj h).symm⟩
    have hrun := Later.here (c := c) (i := j) |>.run stepLimit
    rwa [← drain, hl] at hrun
  · cases h

theorem Announced.masked (h : Announced c i k key q definition id) (hk : k.Ready) :
    Masked c i k key q definition id where
  opens := h.opens
  named := h.named
  found := by
    intro j path hj hkey
    subst hkey
    exact importRef_known (h.retains (hj.retains hk)).remembered
  bare := fun hnone hsole {_} hj => ((h.retains (hj.retains hk)).bare hnone hsole).1
  finished := by
    intro hnone hsole j m hj hm
    obtain ⟨l, hl, rfl⟩ := later_of_finish hm
    have hretains := (hj.trans hl).retains hk
    have hl := h.retains hretains
    have hwf := hretains.ready.wellFormed
    refine ⟨(hwf.named?_finalize _ _).trans hl.named, ?_⟩
    rw [hwf.types_finalize fun key hfiled => ?_]
    · exact (hl.bare hnone hsole).1
    · obtain ⟨short, hb⟩ := hfiled
      exact hwf.apart hl.named hb

/-- A text in a format that is not known. -/
def oddText : Schema := { type := some "string", format := some "rgb" }

theorem layered_oddText (context : String) :
    oddText.layered context none = .error (.unsupportedFormat "rgb") := by
  rw [oddText, Schema.layered_eq, odd_shape]

def oddPhase : ImportSettings where
  definitions := [("io.k8s.api.core.v1.Phase", oddText)]

def phaseReference : Schema := { reference := some "#/definitions/io.k8s.api.core.v1.Phase" }

def phaseList : Schema := { type := some "array", items := some phaseReference }

theorem layered_phaseList (context : String) : phaseList.layered context none =
    .ok ⟨[.list], .reference "#/definitions/io.k8s.api.core.v1.Phase"⟩ := by
  have hitems : phaseReference.isUnconstrained = false := rfl
  have hshape : phaseReference.shape context =
      .ok (.reference "#/definitions/io.k8s.api.core.v1.Phase") := by
    rw [phaseReference, Schema.shape]
  have hlist := Schema.layered_fill hitems (.list {}) context none
  rw [Schema.layered_eq phaseReference, hshape] at hlist
  exact hlist

/-- A list of phases, and phases that are no text in a format that is known. -/
def oddPhases : ImportSettings where
  definitions := [("io.k8s.api.core.v1.Phase", oddText), ("io.k8s.api.core.v1.Phases", phaseList)]

theorem identifier_phase : identifier "io.k8s.api.core.v1.Phase" = "io.k8s.api.core.v1.Phase" := by
  decide

theorem opens_phase {c : ImportSettings} {i : Importer}
    (hd : Table.get? "io.k8s.api.core.v1.Phase" c.definitions = some oddText)
    (hnew : Table.get? "io.k8s.api.core.v1.Phase" i.resolved = none) :
    Opens c i "io.k8s.api.core.v1.Phase" ⟨"Phase", "core", some "v1"⟩ oddText :=
  ⟨by decide, by decide, hd, hnew, rfl, rfl⟩

/-- A reference that cannot be followed goes on failing, and leaves nothing, if and only if it is no name.
Otherwise the failure is masked: its definition, and every other that was met on the way, is announced and
never followed again. -/
theorem failing_reference (hi : Later c {} i) (h : i.importRef c path = (.error e, k)) :
    (Clean c i k path e ↔ parse? (identifier path) = none) ∧
    (parse? (identifier path) = none → k = i) ∧
    (∀ q, parse? (identifier path) = some q →
      ∃ definition id, Masked c i k (identifier path) q definition id) ∧
    (∀ key, Table.get? key i.resolved = none → (Table.get? key k.resolved).isSome →
      ∃ q definition id, Masked c i k key q definition id) ∧
    Leaves c i k ∧ (i.pending = [] → k.finish c = .ok k.model.finalize) := by
  have hready := (hi.retains ready_empty).ready
  have hfails := importRef_error_iff.mp h
  have hk := (hfails.retains hready).ready
  have hself : ∀ q, parse? (identifier path) = some q →
      ∃ definition id, Masked c i k (identifier path) q definition id := by
    intro q hq
    obtain ⟨definition, id, hannounced⟩ := hfails.of_read hready hq
    exact ⟨definition, id, hannounced.masked hk⟩
  refine ⟨⟨fun hclean => ?_, fun hq => ?_⟩, fun hq => (hfails.of_unread hq).2.2, hself,
    fun key hnew hmet => ?_, hfails.leaves, hfails.finish⟩
  · cases hq : parse? (identifier path) with
    | none => rfl
    | some q =>
      obtain ⟨definition, id, hmasked⟩ := hself q hq
      have hrepeats := hclean.repeats .here
      rw [hmasked.found .here rfl] at hrepeats
      cases hrepeats
  · obtain ⟨hnew, rfl, rfl⟩ := hfails.of_unread hq
    refine ⟨fun {j} hj => ?_, fun hq' => by cases hq.symm.trans hq'⟩
    have hunread : Fails c j path _ j := .unread (((hj.retains hk).unread hq).trans hnew) hq
    rw [hunread.importRef]
  · obtain ⟨q, definition, id, hannounced⟩ := hfails.announced hready hnew hmet
    exact ⟨q, definition, id, hannounced.masked hk⟩

/-- Both definitions are met before the second fails, and both of them are masked. -/
theorem failing_reference_phases :
    ∃ k, Importer.importRef {} oddPhases "io.k8s.api.core.v1.Phases" =
        (.error (.unsupportedFormat "rgb"), k) ∧
      ¬Clean oddPhases {} k "io.k8s.api.core.v1.Phases" (.unsupportedFormat "rgb") ∧
      (∀ key ∈ Table.keys oddPhases.definitions, ∃ q definition id,
        Masked oddPhases {} k key q definition id) ∧ ∃ m, k.finish oddPhases = .ok m := by
  have hkey : identifier "io.k8s.api.core.v1.Phases" = "io.k8s.api.core.v1.Phases" := by
    decide
  have hitem : identifier "#/definitions/io.k8s.api.core.v1.Phase" = "io.k8s.api.core.v1.Phase" := by
    decide
  have hfirst : Opens oddPhases {} (identifier "io.k8s.api.core.v1.Phases")
      ⟨"Phases", "core", some "v1"⟩ phaseList := by
    rw [hkey]
    exact ⟨by decide, by decide, rfl, rfl, rfl, rfl⟩
  obtain ⟨first, j, hj⟩ : ∃ id j, announce {} "io.k8s.api.core.v1.Phases"
      ⟨"Phases", "core", some "v1"⟩ phaseList = (id, j) :=
    ⟨_, _, rfl⟩
  obtain ⟨second, k, hk⟩ : ∃ id k, j.announce "io.k8s.api.core.v1.Phase"
      ⟨"Phase", "core", some "v1"⟩ oddText = (id, k) := ⟨_, _, rfl⟩
  have hjmet := get?_announce {} "io.k8s.api.core.v1.Phases" ⟨"Phases", "core", some "v1"⟩ phaseList
  have hkmet := get?_announce j "io.k8s.api.core.v1.Phase" ⟨"Phase", "core", some "v1"⟩ oddText
  rw [hj] at hjmet
  rw [hk] at hkmet
  have hsecond : Opens oddPhases j (identifier "#/definitions/io.k8s.api.core.v1.Phase")
      ⟨"Phase", "core", some "v1"⟩ oddText := by
    rw [hitem]
    exact opens_phase rfl (by rw [hjmet, if_neg (by decide)]; rfl)
  have hfails : Fails oddPhases {} "io.k8s.api.core.v1.Phases" (.unsupportedFormat "rgb") k :=
    .through hfirst (by rw [hkey, hj]) (layered_phaseList _)
      (.shapeless hsecond (by rw [hitem, hk]) (layered_oddText _))
  obtain ⟨hclean, -, -, hmasked, -, hfinish⟩ := failing_reference .here hfails.importRef
  refine ⟨k, hfails.importRef, ?_, fun key hkeys => hmasked key rfl ?_, _, hfinish rfl⟩
  · rw [hclean, hfirst.name]
    nofun
  · rcases List.mem_cons.mp hkeys with rfl | hkeys
    · rw [hkmet, if_pos rfl]
      rfl
    · obtain rfl := List.mem_singleton.mp hkeys
      rw [hkmet, if_neg (by decide), hjmet, if_pos rfl]
      rfl

/-- A phase fails once. After that it is a synonym for any value, and so it is in the finished model. -/
theorem not_clean_phase :
    ∃ k, Importer.importRef {} oddPhase "io.k8s.api.core.v1.Phase" =
        (.error (.unsupportedFormat "rgb"), k) ∧
      ¬Clean oddPhase {} k "io.k8s.api.core.v1.Phase" (.unsupportedFormat "rgb") ∧
      k.importRef oddPhase "io.k8s.api.core.v1.Phase" = (.ok (.type 0), k) ∧
      ∃ m, k.finish oddPhase = .ok m ∧
        m.types[0]? = some (placeholder ⟨"Phase", "core", some "v1"⟩ oddText) := by
  have hopens : Opens oddPhase {} (identifier "io.k8s.api.core.v1.Phase")
      ⟨"Phase", "core", some "v1"⟩ oddText := by
    rw [identifier_phase]
    exact opens_phase rfl rfl
  obtain ⟨k, hk⟩ : ∃ k, announce {} (identifier "io.k8s.api.core.v1.Phase")
      ⟨"Phase", "core", some "v1"⟩ oddText = (0, k) := ⟨_, rfl⟩
  have hannounced := hopens.announced ready_empty
  rw [hk] at hannounced
  have hfails : Fails oddPhase {} "io.k8s.api.core.v1.Phase" (.unsupportedFormat "rgb") k :=
    .shapeless hopens hk (layered_oddText _)
  have hmasked := hannounced.masked (hfails.retains ready_empty).ready
  have hsole : Sole oddPhase (identifier "io.k8s.api.core.v1.Phase") ⟨"Phase", "core", some "v1"⟩ := by
    intro key definition hd _
    rw [identifier_phase]
    exact congrArg Prod.fst (List.mem_singleton.mp (Table.mem_of_get? hd))
  have hfound := hmasked.found .here rfl
  have hfinish := hfails.finish rfl
  refine ⟨k, hfails.importRef, fun hclean => ?_, hfound, _, hfinish,
    (hmasked.finished rfl hsole .here hfinish).2⟩
  have hrepeats := hclean.repeats .here
  rw [hfound] at hrepeats
  cases hrepeats

end Importer

end SchemaCompiler
