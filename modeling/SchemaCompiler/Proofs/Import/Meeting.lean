import SchemaCompiler.Proofs.Import.Completeness

/-! The references that a run of imports meets. Some are met long before the definition that they lead
to has been imported, and some while it is being imported; all stand for the same in the end. -/

namespace SchemaCompiler

open QualifiedName (parse?)

namespace Importer

/-- A reference that is about to be followed. -/
structure Meeting where
  depth : Nat
  state : Importer
  reference : String

def Meeting.outcome (c : ImportSettings) (v : Meeting) : Except Error TypeExpr × Importer :=
  followRef c v.depth v.state v.reference

/-- The import when the definition of a synonym was registered and its target is about to be imported. -/
def openSynonym (i : Importer) (key : String) (q : QualifiedName) (definition : Schema) : Importer :=
  Importer.remember { i with
    model := (i.model.registerNamed (GroupKey.of q) q.name (.synonym (.primitive .any))
      definition.description).2 } key
    (.type (i.model.registerNamed (GroupKey.of q) q.name (.synonym (.primitive .any))
      definition.description).1)

/-- Following the first reference means to follow the second, which is itself or the target of a
synonym on the way. -/
inductive Follows (c : ImportSettings) : Meeting → Meeting → Prop where
  | self (v : Meeting) : Follows c v v
  | synonym {depth : Nat} {i : Importer} {reference path context : String} {q : QualifiedName}
      {definition : Schema} {layers : List Layer} {w : Meeting}
      (hnew : Table.get? (QualifiedName.identifier reference) i.resolved = none)
      (hq : parse? (QualifiedName.identifier reference) = some q) (hw : wellKnown? q = none)
      (hd : Table.get? (QualifiedName.identifier reference) c.definitions = some definition)
      (hr : definition.isRecord = false) (hu : definition.isUnconstrained = false)
      (hlayered : definition.layered context none = .ok ⟨layers, .reference path⟩)
      (h : Follows c
        ⟨depth, i.openSynonym (QualifiedName.identifier reference) q definition, path⟩ w) :
      Follows c ⟨depth + 1, i, reference⟩ w

/-- Importing the fields, a reference is followed. -/
inductive FieldsMeet (c : ImportSettings) (b : BodyContext) :
    Importer → List (String × Schema) → Meeting → Prop where
  | here {i : Importer} {name path context : String} {declared : Schema}
      {rest : List (String × Schema)} {layers : List Layer} {w : Meeting}
      (hkeep : b.keeps name = true) (hc : isCanonical c b name = false)
      (hlayered : (b.effective name declared).layered context none = .ok ⟨layers, .reference path⟩)
      (h : Follows c ⟨c.definitions.length + 1, i, path⟩ w) :
      FieldsMeet c b i ((name, declared) :: rest) w
  | later {i j : Importer} {name : String} {declared : Schema} {rest : List (String × Schema)}
      {o : Option Property} {w : Meeting} (hfield : importField c b i name declared = (.ok o, j))
      (h : FieldsMeet c b j rest w) : FieldsMeet c b i ((name, declared) :: rest) w

/-- Reading the queue, a reference is followed. -/
inductive QueueMeets (c : ImportSettings) : Importer → Meeting → Prop where
  | here {i : Importer} {p : Pending} {rest : List Pending} {w : Meeting} (hp : i.pending = p :: rest)
      (h : FieldsMeet c (bodyContext c i.model p) { i with pending := rest } p.schema.properties w) :
      QueueMeets c i w
  | later {i j : Importer} {p : Pending} {rest : List Pending} {w : Meeting}
      (hp : i.pending = p :: rest)
      (hbody : importBody c { i with pending := rest } p = (.ok (), j)) (h : QueueMeets c j w) :
      QueueMeets c i w

/-- A run of calls none of which fails comes to this state. -/
inductive Run (c : ImportSettings) : Importer → Prop where
  | start : Run c {}
  | importRef {i j : Importer} {reference : String} {e : TypeExpr} (h : Run c i)
      (hok : i.importRef c reference = (.ok e, j)) : Run c j
  | drain {i j : Importer} (h : Run c i) (hok : i.drain c = (.ok (), j)) : Run c j

/-- A run of calls none of which fails comes to this state, and on its way the reference is followed. -/
inductive Met (c : ImportSettings) : Importer → Meeting → Prop where
  | importRef {i j : Importer} {reference : String} {e : TypeExpr} {w : Meeting} (h : Run c i)
      (hok : i.importRef c reference = (.ok e, j))
      (hw : Follows c ⟨c.definitions.length + 1, i, reference⟩ w) : Met c j w
  | drain {i j : Importer} {w : Meeting} (h : Run c i) (hok : i.drain c = (.ok (), j))
      (hw : QueueMeets c i w) : Met c j w
  | before_importRef {i j : Importer} {reference : String} {e : TypeExpr} {w : Meeting}
      (h : Met c i w) (hok : i.importRef c reference = (.ok e, j)) : Met c j w
  | before_drain {i j : Importer} {w : Meeting} (h : Met c i w) (hok : i.drain c = (.ok (), j)) :
      Met c j w

variable {c : ImportSettings} {roots : List Root} {i j k : Importer} {v w : Meeting} {e : TypeExpr}

/-- Where the reference was followed, it was found to be something that `m` has as well. -/
structure Answered (c : ImportSettings) (roots : List Root) (m : Model) (w : Meeting) : Prop where
  coherent : Coherent c roots w.state
  found : ∃ e j, w.outcome c = (.ok e, j) ∧ j.model.Extends m

theorem Answered.mono {m m' : Model} (h : Answered c roots m w) (hm : m.Extends m') :
    Answered c roots m' w := by
  obtain ⟨e, j, hok, hj⟩ := h.found
  exact ⟨h.coherent, e, j, hok, hj.trans hm⟩

theorem openSynonym_eq {q : QualifiedName} {definition : Schema}
    (hnew : i.model.find? (GroupKey.of q) ((GroupKey.of q).qualify q.name) = none)
    (hr : definition.isRecord = false) (key : String) :
    i.openSynonym key q definition = i.define key q definition := by
  have hid : (i.model.registerNamed (GroupKey.of q) q.name (.synonym (.primitive .any))
      definition.description).1 = i.model.types.size := by rw [Model.registerNamed_new hnew]
  rw [openSynonym, define, definedKind, hr, hid]
  rfl

theorem importWith_reference {follow : Importer → String → Except Error TypeExpr × Importer}
    {schema : Schema} {context path : String} {layers : List Layer}
    (h : schema.layered context none = .ok ⟨layers, .reference path⟩) (parent : TypeId)
    (property : String) (typeName : Option String) :
    importWith c follow i parent property typeName schema =
      ((follow i path).1.map (wrap layers), (follow i path).2) := by
  rw [importWith, Schema.layered_ok h]

theorem Follows.answered (h : Follows c v w) (hs : Unshared c roots) (hv : Coherent c roots v.state)
    (hok : v.outcome c = (.ok e, j)) : Answered c roots j.model w := by
  induction h generalizing e j with
  | self v => exact ⟨hv, e, j, hok, .refl _⟩
  | @synonym depth i reference path context q definition layers w hnew hq hw hd hr hu hlayered h ih =>
    have hv : Coherent c roots i := hv
    have hfind := hv.unregistered hs hq hd hnew
    have hdefine := (hv.define hs hq hw hd hnew).1
    rw [openSynonym_eq hfind hr] at ih
    rw [Meeting.outcome, followRef, importReference] at hok
    simp only [hnew, hq, hw, hd] at hok
    rw [importDefinition_eq hfind, hr, hu, importWith_reference hlayered] at hok
    cases hfollow : followRef c depth (i.define (QualifiedName.identifier reference) q definition) path with
    | mk r l =>
      rw [hfollow] at hok
      cases r with
      | error err => cases (Prod.mk.inj hok).1
      | ok target =>
        obtain ⟨-, rfl⟩ := Prod.mk.inj hok
        refine (ih hdefine hfollow).mono ?_
        have hfound := hdefine.found_followRef hs [] hfollow
        have htypes := hv.types_define hs hq hd hnew
        have hentry : (i.define (QualifiedName.identifier reference) q definition).model.types[
            i.model.types.size]? = some (Model.namedEntry (GroupKey.of q) q.name
              (definedKind q definition) definition.description) := by
          rw [htypes, Array.getElem?_push, if_pos rfl]
        have hl := (hfound.grows.same (Array.getElem?_eq_some_iff.mp hentry).1).trans hentry
        have hkind : (Model.namedEntry (GroupKey.of q) q.name (definedKind q definition)
            definition.description).kind = .synonym (.primitive .any) := by
          rw [definedKind, hr]
          rfl
        exact (Model.sameLabels_setKind hl hkind _).extends

theorem FieldsMeet.answered {b : BodyContext} {fields : List (String × Schema)}
    (h : FieldsMeet c b i fields w) (hs : Unshared c roots) (hi : Coherent c roots i)
    (hb : b.id < i.model.types.size)
    (hsource : ∀ f ∈ fields, Sourced c roots (b.effective f.1 f.2)) {ps : List Property}
    (hok : importFields c b i fields = (.ok ps, j)) : Answered c roots j.model w := by
  induction h generalizing ps j with
  | @here i name path context declared rest layers w hkeep hc hlayered h =>
    rw [importFields] at hok
    split at hok
    · cases (Prod.mk.inj hok).1
    · next o k hk =>
      split at hok
      · cases (Prod.mk.inj hok).1
      · next rest' l hl =>
        obtain ⟨-, rfl⟩ := Prod.mk.inj hok
        obtain ⟨p, rfl, hgrows, -⟩ := hi.importField_ok hs [] hb
          (hsource _ List.mem_cons_self) hkeep hk
        have hrest := hgrows.coherent.fielded_importFields hs []
          (Nat.lt_of_lt_of_le hb hgrows.size_le) (fun f hf => hsource f (List.mem_cons_of_mem _ hf)) hl
        rw [importField_eq, if_pos hkeep, keptField] at hk
        rw [isCanonical] at hc
        rw [if_neg (by simp [hc]), importProperty] at hk
        rw [BodyContext.effective] at hlayered
        rw [importWith_reference hlayered] at hk
        cases hfollow : followRef c (c.definitions.length + 1) i path with
        | mk r l' =>
          simp only [importRef, hfollow] at hk
          obtain ⟨ho, rfl⟩ := Prod.mk.inj hk
          cases r with
          | error err => cases ho
          | ok e => exact (h.answered hs hi hfollow).mono hrest.grows.extends
  | @later i k name declared rest o w hfield h ih =>
    rw [importFields, hfield] at hok
    simp only at hok
    split at hok
    · cases (Prod.mk.inj hok).1
    · next rest' l hl =>
      obtain ⟨-, rfl⟩ := Prod.mk.inj hok
      have hgrows : Grows c roots [] i k := by
        by_cases hkeep : b.keeps name = true
        · obtain ⟨p, -, hgrows, -⟩ := hi.importField_ok hs [] hb
            (hsource _ List.mem_cons_self) hkeep hfield
          exact hgrows
        · rw [importField_eq, if_neg hkeep] at hfield
          obtain ⟨-, rfl⟩ := Prod.mk.inj hfield
          exact .refl hi
      exact ih hgrows.coherent (Nat.lt_of_lt_of_le hb hgrows.size_le)
        (fun f hf => hsource f (List.mem_cons_of_mem _ hf)) hl

variable {read : List Pending} {seeds : List TypeExpr}

theorem QueueMeets.answered (h : QueueMeets c i w) (hs : Unshared c roots)
    (hi : Full c roots read [] i) (hr : Rooted seeds i) {bodies : List Pending}
    (hk : Empties c i bodies k) : Answered c roots k.model w := by
  induction h generalizing read bodies with
  | @here i p rest w hp h =>
    cases hk with
    | done hnil => cases hnil.symm.trans hp
    | read hp' hbody hk =>
      obtain ⟨rfl, rfl⟩ := List.cons.inj (hp.symm.trans hp')
      obtain ⟨hj, hrj, -⟩ := hi.readBody hs hr hp hbody
      obtain ⟨-, -, -, hextends, -⟩ := hj.empties hs hrj hk
      have hpop := hi.pop hp
      obtain ⟨ps, l, hfields, rfl⟩ := importBody_ok hbody
      have hlt : p.id < i.model.types.size :=
        hi.coherent.ready.pending_lt p (hp ▸ List.mem_cons_self)
      have hb : bodyContext c i.model p = contextOf c i.model.types[p.id] p :=
        bodyContext_eq (Array.getElem?_eq_getElem hlt)
      rw [hb] at h hfields
      have hanswered := h.answered hs hpop.coherent hlt (fun f hf => hpop.effective_sourced f hf)
        hfields
      exact hanswered.mono ((Model.sameLabels_setProperties _ _ _).extends.trans hextends)
  | @later i j p rest w hp hbody h ih =>
    cases hk with
    | done hnil => cases hnil.symm.trans hp
    | read hp' hbody' hk =>
      obtain ⟨rfl, rfl⟩ := List.cons.inj (hp.symm.trans hp')
      obtain rfl := (Prod.mk.inj (hbody.symm.trans hbody')).2
      obtain ⟨hj, hrj, -⟩ := hi.readBody hs hr hp hbody
      exact ih hj hrj hk

theorem Run.full (h : Run c i) (hs : Unshared c []) :
    ∃ read seeds, Full c [] read [] i ∧ Rooted seeds i := by
  induction h with
  | start => exact ⟨[], [], full_empty c [], rooted_empty⟩
  | importRef _ hok ih =>
    obtain ⟨read, seeds, hfull, hr⟩ := ih
    obtain ⟨hj, hrj, -⟩ := hfull.importRef hs hr hok
    exact ⟨read, _, hj, hrj⟩
  | drain _ hok ih =>
    obtain ⟨read, seeds, hfull, hr⟩ := ih
    obtain ⟨bodies, hempties, -⟩ := empties_of_run hok
    obtain ⟨-, hk, hrk, -⟩ := hfull.empties hs hr hempties
    exact ⟨_, _, hk, hrk⟩

theorem Met.run (h : Met c i w) : Run c i := by
  induction h with
  | importRef h hok _ => exact h.importRef hok
  | drain h hok _ => exact h.drain hok
  | before_importRef _ hok ih => exact ih.importRef hok
  | before_drain _ hok ih => exact ih.drain hok

theorem Met.answered (h : Met c i w) (hs : Unshared c []) : Answered c [] i.model w := by
  induction h with
  | importRef h hok hw =>
    obtain ⟨read, seeds, hfull, -⟩ := h.full hs
    exact hw.answered hs hfull.coherent hok
  | drain h hok hw =>
    obtain ⟨read, seeds, hfull, hr⟩ := h.full hs
    obtain ⟨bodies, hempties, -⟩ := empties_of_run hok
    exact hw.answered hs hfull hr hempties
  | before_importRef h hok ih =>
    obtain ⟨read, seeds, hfull, hr⟩ := h.run.full hs
    obtain ⟨-, -, hextends, -⟩ := hfull.importRef hs hr hok
    exact ih.mono hextends
  | before_drain h hok ih =>
    obtain ⟨read, seeds, hfull, hr⟩ := h.run.full hs
    obtain ⟨bodies, hempties, -⟩ := empties_of_run hok
    obtain ⟨-, -, -, hextends, -⟩ := hfull.empties hs hr hempties
    exact ih.mono hextends

/-- What a key stands for in a model: one of the well-known types, the only type with the name that the
key is read as, or that name itself. -/
inductive StandsFor (c : ImportSettings) (m : Model) (key : String) : TypeExpr → Prop where
  | wellKnown {w : WellKnown} (hw : QualifiedName.wellKnownAt? key = some w) :
      StandsFor c m key (.wellKnown w)
  | type {q : QualifiedName} {definition : Schema} {id : TypeId} {kind : TypeKind}
      (hw : QualifiedName.wellKnownAt? key = none) (hq : parse? key = some q)
      (hd : Table.get? key c.definitions = some definition)
      (hid : m.named? (GroupKey.of q) q.name = some id)
      (honly : ∀ (x : TypeId) (t : TypeEntry), m.types[x]? = some t → t.isAnonymous = false →
        t.group = GroupKey.of q → t.name = q.name → x = id)
      (hkind : m.kind? id = some kind)
      (hrecord : if definition.isRecord then kind = definitionKind q definition
        else ∃ target, kind = .synonym target) : StandsFor c m key (.type id)
  | name {q : QualifiedName} (hw : QualifiedName.wellKnownAt? key = none)
      (hq : parse? key = some q) (hd : Table.get? key c.definitions = none) :
      StandsFor c m key (.ref q)

variable {key : String}

theorem Meaning.standsFor (h : Meaning c i.model key e) (hi : Coherent c roots i)
    (hkey : QualifiedName.Bare key) : StandsFor c i.model key e := by
  have hknown : ∀ {q}, parse? key = some q → QualifiedName.wellKnownAt? key = wellKnown? q := by
    intro q hq
    rw [QualifiedName.wellKnown?_of_parse? hq, hkey.identifier]
  cases h with
  | wellKnown hq hw => exact .wellKnown ((hknown hq).trans hw)
  | undefined hq hw hd => exact .name ((hknown hq).trans hw) hq hd
  | @defined q definition id h =>
    obtain ⟨kind, hkind, hrecord⟩ := h.kind
    refine .type ((hknown h.name).trans h.ordinary) h.name h.defined h.named ?_ hkind hrecord
    intro x t ht ha hgroup hname
    have hx : i.model.label? x = some t.label := by rw [Model.label?, ht]; rfl
    have hnamed := hi.shelved.named hx ((TypeEntry.label_isAnonymous t).trans ha)
    change i.model.named? t.group t.name = some x at hnamed
    rw [hgroup, hname] at hnamed
    exact Option.some.inj (hnamed.symm.trans h.named)

theorem StandsFor.unique {m : Model} {e' : TypeExpr} (h : StandsFor c m key e)
    (h' : StandsFor c m key e') : e = e' := by
  cases h with
  | wellKnown hw =>
    cases h' with
    | wellKnown hw' => rw [Option.some.inj (hw.symm.trans hw')]
    | type hw' => cases hw.symm.trans hw'
    | name hw' => cases hw.symm.trans hw'
  | type hw hq hd hid =>
    cases h' with
    | wellKnown hw' => cases hw.symm.trans hw'
    | type hw' hq' hd' hid' =>
      obtain rfl := Option.some.inj (hq.symm.trans hq')
      rw [Option.some.inj (hid.symm.trans hid')]
    | name hw' hq' hd' => cases hd.symm.trans hd'
  | name hw hq hd =>
    cases h' with
    | wellKnown hw' => cases hw.symm.trans hw'
    | type hw' hq' hd' => cases hd.symm.trans hd'
    | name hw' hq' => rw [Option.some.inj (hq.symm.trans hq')]

/-- Every reference that a run meets is found to be what its key stands for, wherever it is met and
however it is written, and no type stands for two keys. -/
theorem met_references_coherent (hkeys : ∀ d ∈ c.definitions, QualifiedName.Bare d.1) (hk : Run c k) :
    (∀ w key, Met c k w → QualifiedName.Bare key →
      (w.reference = key ∨ ∃ path ∈ QualifiedName.referencePaths, w.reference = path ++ key) →
        ∃ e j, w.outcome c = (.ok e, j) ∧ StandsFor c k.model key e) ∧
    (∀ key e e', StandsFor c k.model key e → StandsFor c k.model key e' → e = e') ∧
    (∀ key key' id, StandsFor c k.model key (.type id) → StandsFor c k.model key' (.type id) →
      key = key') := by
  have hs := separate_of_bare hkeys
  obtain ⟨read, seeds, hfull, -⟩ := hk.full hs.unshared
  refine ⟨fun w key hw hkey hreference => ?_, fun key e e' h h' => h.unique h',
    fun key key' id h h' => ?_⟩
  · obtain ⟨hcoherent, e, j, hok, hextends⟩ := hw.answered hs.unshared
    have hmeaning := (hcoherent.found_followRef hs.unshared [] hok).meaning.mono hextends
    have hidentifier : QualifiedName.identifier w.reference = key := by
      rcases hreference with h | ⟨path, hpath, h⟩
      · rw [h, hkey.identifier]
      · rw [h, QualifiedName.identifier_path hpath]
    rw [hidentifier] at hmeaning
    exact ⟨e, j, hok, hmeaning.standsFor hfull.coherent hkey⟩
  · cases h with
    | type hw hq hd hid =>
      cases h' with
      | type hw' hq' hd' hid' =>
        have hwell := hfull.coherent.ready.wellFormed
        obtain ⟨t, ht, hgroup, hname, -⟩ := hwell.named hid
        obtain ⟨t', ht', hgroup', hname', -⟩ := hwell.named hid'
        obtain rfl := Option.some.inj (ht.symm.trans ht')
        obtain rfl := GroupKey.of_inj.mp ⟨hgroup.symm.trans hgroup', hname.symm.trans hname'⟩
        exact hs.unshared.eq_of_parse? hq hq' hd hd'

/-- A node that has another for its parent. -/
def nodeSettings : ImportSettings where
  definitions := [("io.k8s.api.core.v1.Node", {
    properties := [("parent", .toReference "#/definitions/io.k8s.api.core.v1.Node")] })]

def nodeImport : Importer :=
  (Importer.importRef {} nodeSettings "io.k8s.api.core.v1.Node").2

/-- The import of the node with its queue read. -/
def nodeRead : Importer :=
  { nodeImport with
    pending := []
    model := nodeImport.model.setProperties 0 [{
      name := "parent", type := .type 0, required := false }] }

/-- The node is asked for. -/
def nodeAsked : Meeting :=
  ⟨2, {}, "io.k8s.api.core.v1.Node"⟩

/-- While the node is read, it is found to be its own parent. -/
def nodeInside : Meeting :=
  ⟨2, { nodeImport with pending := [] }, "#/definitions/io.k8s.api.core.v1.Node"⟩

theorem importRef_node :
    Importer.importRef {} nodeSettings "io.k8s.api.core.v1.Node" = (.ok (.type 0), nodeImport) := rfl

theorem drain_node : nodeImport.drain nodeSettings = (.ok (), nodeRead) := by
  have hparent : importProperty nodeSettings { nodeImport with pending := [] } 0 "parent" none
      (.toReference "#/definitions/io.k8s.api.core.v1.Node") =
        (.ok (.type 0), { nodeImport with pending := [] }) :=
    importProperty_reference (toReference_shape _) rfl
  have hbody := importBody_single (p := ⟨0, {
    properties := [("parent", .toReference "#/definitions/io.k8s.api.core.v1.Node")] }⟩) rfl rfl
      (by decide) rfl hparent
  have hempties := Empties.read (i := nodeImport) rfl hbody (.done rfl)
  exact hempties.run (by decide)

theorem nodeInside_met : Met nodeSettings nodeRead nodeInside := by
  have hlayered : (Schema.toReference "#/definitions/io.k8s.api.core.v1.Node").layered "" none =
      .ok ⟨[], .reference "#/definitions/io.k8s.api.core.v1.Node"⟩ := by
    rw [layered_leaf (toReference_shape _) (by simp) (by simp)]
    rfl
  exact .drain (.importRef .start importRef_node) drain_node
    (.here rfl (.here (by decide) (by decide) hlayered (.self _)))

/-- The two references stand for the node, one from before it was imported and one in itself. -/
theorem met_references_coherent_node :
    (∀ d ∈ nodeSettings.definitions, QualifiedName.Bare d.1) ∧ Run nodeSettings nodeRead ∧
      Met nodeSettings nodeRead nodeAsked ∧ Met nodeSettings nodeRead nodeInside ∧
      (nodeAsked.outcome nodeSettings).1 = .ok (.type 0) ∧
      (nodeInside.outcome nodeSettings).1 = .ok (.type 0) ∧
      StandsFor nodeSettings nodeRead.model "io.k8s.api.core.v1.Node" (.type 0) ∧
      ∀ key, StandsFor nodeSettings nodeRead.model key (.type 0) → key = "io.k8s.api.core.v1.Node" := by
  have hbare : QualifiedName.Bare "io.k8s.api.core.v1.Node" := by
    unfold QualifiedName.Bare
    decide
  have hkeys : ∀ d ∈ nodeSettings.definitions, QualifiedName.Bare d.1 := by
    intro d hd
    obtain rfl := List.mem_singleton.mp hd
    exact hbare
  have hrun : Run nodeSettings nodeRead := .drain (.importRef .start importRef_node) drain_node
  have hasked : Met nodeSettings nodeRead nodeAsked :=
    .before_drain (.importRef .start importRef_node (.self _)) drain_node
  obtain ⟨hmet, hunique, hinj⟩ := met_references_coherent hkeys hrun
  obtain ⟨e, j, hok, hstands⟩ := hmet nodeAsked _ hasked hbare (.inl rfl)
  obtain rfl : e = .type 0 := Except.ok.inj (Prod.mk.inj (hok.symm.trans importRef_node)).1
  obtain ⟨e', j', hok', hstands'⟩ := hmet nodeInside _ nodeInside_met hbare
    (.inr ⟨"#/definitions/", by decide, by decide⟩)
  obtain rfl := hunique _ _ _ hstands hstands'
  exact ⟨hkeys, hrun, hasked, nodeInside_met, by rw [hok], by rw [hok'], hstands,
    fun key h => hinj _ _ _ h hstands⟩

end Importer

end SchemaCompiler
