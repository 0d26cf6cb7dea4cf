import SchemaCompiler.Proofs.Import.Keys
import SchemaCompiler.Proofs.ShortName

/-! Compiling some of the types of a document. What comes of it is the part of what comes of the whole
document that those types lead to. -/

namespace SchemaCompiler

open QualifiedName (parse? Bare identifier)

namespace Importer

variable {c : ImportSettings} {m : Model} {keys : List String}

/-- The type `id` has the name that `key` is read as. -/
def IsUnder (m : Model) (key : String) (id : TypeId) : Prop :=
  ∃ q, parse? key = some q ∧ m.named? (GroupKey.of q) q.name = some id

section Restricts

variable {bodies₁ bodies₂ : List Pending} {k₁ k₂ : Importer} {f : TypeId → TypeId} {key : String}
  {e : TypeExpr} {x y : TypeId}

theorem isUnder_finalize (hm : m.WellFormed) : IsUnder m.finalize key x ↔ IsUnder m key x := by
  simp only [IsUnder, hm.named?_finalize]

theorem Defined.isUnder {q : QualifiedName} {definition : Schema} (h : Defined c m key q definition x) :
    IsUnder m key x :=
  ⟨q, h.name, h.named⟩

theorem IsUnder.defined (h : IsUnder k₁.model key x) (hk₁ : Coherent c [] k₁)
    (hkeys : ∀ d ∈ c.definitions, Bare d.1) (hkey : Bare key) :
    ∃ q definition, Defined c k₁.model key q definition x := by
  obtain ⟨q, hq, hnamed⟩ := h
  rcases hk₁.known hnamed with ⟨r, hr, -⟩ | ⟨key', q', definition, hd, -⟩
  · cases hr
  · obtain rfl := GroupKey.of_inj.mp (hd.group_eq hk₁.ready.wellFormed hnamed)
    have hidentifier := QualifiedName.parse?_inj hq hd.name
    rw [hkey.identifier, (hkeys _ (Table.mem_of_get? hd.defined)).identifier] at hidentifier
    exact ⟨q', definition, hidentifier ▸ hd⟩

theorem Imported.restricts {seeds₁ seeds₂ : List TypeExpr} (hs : Separate c []) (htidy : Tidy c [])
    (hkeys : ∀ d ∈ c.definitions, Bare d.1)
    (h₁ : Imported c (Table.keys c.definitions) seeds₁ bodies₁ k₁)
    (h₂ : Imported c keys seeds₂ bodies₂ k₂) (hsubset : keys ⊆ Table.keys c.definitions) :
    ∃ f, Model.Restricts k₁.model.finalize k₂.model.finalize
      (fun x => ∃ key ∈ keys, IsUnder k₁.model.finalize key x) f := by
  have hbare : ∀ key ∈ keys, Bare key := by
    intro key hkey
    obtain ⟨d, hd, rfl⟩ := List.mem_map.mp (hsubset hkey)
    exact hkeys d hd
  have hd₁ := h₁.finished.distinct hs htidy
  have hd₂ := h₂.finished.distinct hs htidy
  obtain ⟨f, hf⟩ := h₁.exists_twins hs h₂ hsubset
  refine ⟨f, restricts_finalize hs h₁.finished h₂.finished hd₁ hd₂ hf h₂.rooted ?_ ?_⟩
  · intro e he y hy
    obtain ⟨key, hkey, hmeaning⟩ := forall₂_mem_right h₂.meanings he
    rw [(hbare key hkey).identifier] at hmeaning
    obtain ⟨q, definition, hdy⟩ := hmeaning.mem_leaves hy
    have htwin := hf y (Model.label?_lt hdy.label)
    have hdx := hdy.of_counterpart hs h₁.finished.full.coherent hd₂.wellFormed htwin.counterpart
    exact ⟨key, hkey, (isUnder_finalize hd₁.wellFormed).mpr hdx.isUnder⟩
  · rintro x ⟨key, hkey, hx⟩
    rw [isUnder_finalize hd₁.wellFormed] at hx
    obtain ⟨q, definition, hx⟩ := hx.defined h₁.finished.full.coherent hkeys (hbare key hkey)
    obtain ⟨e, -, he⟩ := h₂.meaning hkey
    rw [(hbare key hkey).identifier] at he
    obtain ⟨y, -, hy⟩ := he.defined_at hx.name hx.ordinary hx.defined
    have hlt := Model.label?_lt hy.label
    exact ⟨y, hlt, hx.eq_counterpart hy hd₂.wellFormed (hf y hlt).counterpart⟩

/-- Keys can be imported again, and alone. -/
theorem Imported.exists_restricts {seeds₁ : List TypeExpr} (hs : Separate c []) (htidy : Tidy c [])
    (hkeys : ∀ d ∈ c.definitions, Bare d.1)
    (h₁ : Imported c (Table.keys c.definitions) seeds₁ bodies₁ k₁) (hlimit : bodies₁.length ≤ stepLimit)
    (hsubset : keys ⊆ Table.keys c.definitions) :
    ∃ seeds i m f, Imports c {} keys seeds i ∧ i.finish c = .ok m ∧
      Model.Restricts k₁.model.finalize m (fun x => ∃ key ∈ keys, IsUnder k₁.model.finalize key x) f := by
  obtain ⟨seeds, i, bodies, k, himports, hempties, hlength⟩ := h₁.exists_imports hs htidy hsubset
  obtain ⟨f, hf⟩ := h₁.restricts hs htidy hkeys (himports.imported hs hempties) hsubset
  exact ⟨seeds, i, _, f, himports, hempties.finish_eq (Nat.le_trans hlength hlimit), hf⟩

end Restricts

end Importer

namespace OpenApiDocument

open Importer

variable {doc : OpenApiDocument} {annotations : Annotations} {requested : List String} {m : Model}
  {names : ShortNames}

/-- The key of the definition that a name asks for. -/
def keyFor (doc : OpenApiDocument) (requested : String) : Except Error String := do
  (← doc.shortNames).resolve requested

theorem keyFor_eq (hnames : doc.shortNames = .ok names) (r : String) :
    doc.keyFor r = names.resolve r := by
  rw [keyFor, hnames]
  rfl

theorem shortNames_of_keyFor {r key : String} (h : doc.keyFor r = .ok key) :
    ∃ names, doc.shortNames = .ok names := by
  cases hnames : doc.shortNames with
  | ok names => exact ⟨names, rfl⟩
  | error e =>
    rw [keyFor, hnames] at h
    cases h

theorem compileTypes_eq_finish {r : String} {keys : List String} {seeds : List TypeExpr}
    (hkeys : List.Forall₂ (fun r key => doc.keyFor r = .ok key) (r :: requested) keys)
    (h : Imports (doc.settings annotations) {} keys seeds i) :
    doc.compileTypes annotations (r :: requested) = i.finish (doc.settings annotations) := by
  obtain ⟨key, -, hkey⟩ := forall₂_mem_left hkeys List.mem_cons_self
  obtain ⟨names, hnames⟩ := shortNames_of_keyFor hkey
  simp only [keyFor_eq hnames] at hkeys
  rw [compileTypes, hnames]
  exact h.importTypes_eq hkeys

theorem exists_keys {find : String → Except Error String}
    (hfound : ∀ r ∈ requested, ∃ key, find r = .ok key) :
    ∃ keys, List.Forall₂ (fun r key => find r = .ok key) requested keys := by
  induction requested with
  | nil => exact ⟨[], .nil⟩
  | cons r requested ih =>
    obtain ⟨key, hkey⟩ := hfound r List.mem_cons_self
    obtain ⟨keys, hkeys⟩ := ih fun r hr => hfound r (List.mem_cons_of_mem _ hr)
    exact ⟨key :: keys, .cons hkey hkeys⟩

/-! Two types with objects of one full name. -/

/-- A type with an object that has an owner. -/
structure Owned where
  name : String
  property : String
  owner : Schema

namespace Owned

variable {doc : OpenApiDocument} {c : ImportSettings} {i k : Importer} {o a b : Owned}
  {e e' : TypeExpr} {id : TypeId} {rest bodies : List Pending}

def key (o : Owned) : String := "io.k8s.api.apps.v1." ++ o.name

def qualified (o : Owned) : QualifiedName := ⟨o.name, "apps", some "v1"⟩

def object (o : Owned) : Schema where
  type := some "object"
  properties := [("owner", o.owner)]

def schema (o : Owned) : Schema where
  properties := [(o.property, o.object)]

theorem isObject_object (o : Owned) : o.object.IsObject :=
  ⟨"", [("owner", o.owner)], by simp [object, Schema.shape, Schema.typedShape]⟩

def ask (i : Importer) (o : Owned) : Importer :=
  (i.define o.key o.qualified o.schema).enqueue i.model.types.size o.schema

/-- The import with the body of `o` read, which registers the object. -/
def readBody (i : Importer) (id : TypeId) (o : Owned) (rest : List Pending) : Importer :=
  let j := Importer.registerObject { i with pending := rest } id o.property none o.object
  { j with
    model := j.model.setProperties id [
      { name := o.property, type := .type i.model.types.size, required := false }] }

/-- The import with the body of the object read, where `e` is the owner. -/
def readObject (i : Importer) (id : TypeId) (o : Owned) (e : TypeExpr) (rest : List Pending) :
    Importer :=
  { i with
    pending := rest
    model := i.model.setProperties id [
      { name := "owner", type := e, required := false, description := o.owner.description }] }

/-- The import with the queue read, when it held the bodies of the types `n` and `n + 1`. -/
def answered (i : Importer) (n : TypeId) (a b : Owned) (e e' : TypeExpr) : Importer :=
  let i := readBody i n a [⟨n + 1, b.schema⟩]
  let i := readBody i (n + 1) b [⟨n + 2, a.object⟩]
  let i := readObject i (n + 2) a e [⟨n + 3, b.object⟩]
  readObject i (n + 3) b e' []

/-- What is compiled of two types that are asked for. -/
def compiled (a b : Owned) (e e' : TypeExpr) : Model :=
  (answered (ask (ask {} a) b) 0 a b e e').model.finalize

section Read

variable (hannotations : c.annotations = []) (hcanonical : c.canonicalMetadata = false)

include hannotations hcanonical

theorem empties_readBody (hinference : c.inference = none)
    (ho : impliedProperties.contains o.property = false) (hp : i.pending = ⟨id, o.schema⟩ :: rest)
    (h : Empties c (readBody i id o rest) bodies k) : Empties c i (⟨id, o.schema⟩ :: bodies) k :=
  .read hp (importBody_single hannotations hcanonical ho rfl
    (importProperty_object o.isObject_object (by rw [hinference]; rfl))) h

theorem empties_readObject (he : importProperty c { i with pending := rest } id "owner" none o.owner =
      (.ok e, { i with pending := rest }))
    (hp : i.pending = ⟨id, o.object⟩ :: rest) (h : Empties c (readObject i id o e rest) bodies k) :
    Empties c i (⟨id, o.object⟩ :: bodies) k :=
  .read hp (importBody_single hannotations hcanonical (by decide) rfl he) h

theorem empties_answered {n : TypeId} (hinference : c.inference = none)
    (hpending : i.pending = [⟨n, a.schema⟩, ⟨n + 1, b.schema⟩])
    (hsize : i.model.types.size = n + 2 ∧
      (readBody i n a [⟨n + 1, b.schema⟩]).model.types.size = n + 3)
    (ha : impliedProperties.contains a.property = false)
    (hb : impliedProperties.contains b.property = false)
    (hea : ∀ j : Importer, j.resolved = i.resolved → ∀ parent,
      importProperty c j parent "owner" none a.owner = (.ok e, j))
    (heb : ∀ j : Importer, j.resolved = i.resolved → ∀ parent,
      importProperty c j parent "owner" none b.owner = (.ok e', j)) :
    Empties c i [⟨n, a.schema⟩, ⟨n + 1, b.schema⟩, ⟨n + 2, a.object⟩, ⟨n + 3, b.object⟩]
      (answered i n a b e e') := by
  obtain ⟨htwo, hthree⟩ := hsize
  have hqueue : ∀ {i : Importer} {k id : TypeId} {rest} {o : Owned}, i.model.types.size = k →
      (readBody i id o rest).pending = rest ++ [⟨k, o.object⟩] := by
    rintro i _ id rest o rfl
    rfl
  have hresolved : (readBody (readBody i n a [⟨n + 1, b.schema⟩]) (n + 1) b
      [⟨n + 2, a.object⟩]).resolved = i.resolved := rfl
  refine empties_readBody hannotations hcanonical hinference ha hpending ?_
  refine empties_readBody hannotations hcanonical hinference hb (hqueue htwo) ?_
  refine empties_readObject (e := e) hannotations hcanonical ?_ (hqueue hthree) ?_
  · refine hea _ ?_ (n + 2)
    exact hresolved
  refine empties_readObject (e := e') hannotations hcanonical ?_ rfl (.done rfl)
  refine heb _ ?_ (n + 3)
  exact hresolved

end Read

/-- The definition is found by its key, and its property is kept. -/
def Readable (o : Owned) : Prop :=
  identifier o.key = o.key ∧ parse? o.key = some o.qualified ∧ wellKnown? o.qualified = none ∧
    impliedProperties.contains o.property = false

instance (o : Owned) : Decidable o.Readable := inferInstanceAs (Decidable (_ ∧ _ ∧ _ ∧ _))

/-- The type is still unknown. -/
def New (o : Owned) (i : Importer) : Prop :=
  Table.get? o.key i.resolved = none ∧
    i.model.find? (GroupKey.of o.qualified) ((GroupKey.of o.qualified).qualify o.name) = none

instance (o : Owned) (i : Importer) : Decidable (o.New i) := inferInstanceAs (Decidable (_ ∧ _))

/-- `b` is still unknown when `a` has been asked for. -/
def Follows (b a : Owned) : Prop :=
  b.New (ask {} a) ∧ (ask {} a).model.types.size = 1 ∧ (ask (ask {} a) b).model.types.size = 2 ∧
    (readBody (ask (ask {} a) b) 0 a [⟨1, b.schema⟩]).model.types.size = 3

instance (a b : Owned) : Decidable (b.Follows a) :=
  inferInstanceAs (Decidable (_ ∧ _ ∧ _ ∧ _))

theorem importRef_asked (ho : o.Readable) (hnew : o.New i)
    (hd : Table.get? o.key c.definitions = some o.schema) :
    i.importRef c o.key = (.ok (.type i.model.types.size), ask i o) := by
  obtain ⟨hi, hq, hw, -⟩ := ho
  exact importRef_record hi hnew.1 hq hw hd rfl hnew.2

theorem compileTypes_asked {r s : String} (hr : doc.keyFor r = .ok a.key) (hs : doc.keyFor s = .ok b.key)
    (hreadable : a.Readable ∧ b.Readable ∧ b.Follows a)
    (hda : Table.get? a.key doc.schemas = some a.schema)
    (hdb : Table.get? b.key doc.schemas = some b.schema)
    (hea : ∀ i : Importer, i.resolved = (ask (ask {} a) b).resolved → ∀ parent,
      importProperty (doc.settings []) i parent "owner" none a.owner = (.ok e, i))
    (heb : ∀ i : Importer, i.resolved = (ask (ask {} a) b).resolved → ∀ parent,
      importProperty (doc.settings []) i parent "owner" none b.owner = (.ok e', i)) :
    doc.compileTypes [] [r, s] = .ok (compiled a b e e') := by
  obtain ⟨ha, hb, hnew, hone, htwo, hthree⟩ := hreadable
  have himports : Imports (doc.settings []) {} [a.key, b.key] _ (ask (ask {} a) b) :=
    .cons (importRef_asked ha ⟨rfl, rfl⟩ hda) (.cons (importRef_asked hb hnew hdb) (.nil _))
  have hpending : (ask (ask {} a) b).pending = [⟨0, a.schema⟩, ⟨1, b.schema⟩] := by
    rw [← hone]
    rfl
  have hempties := empties_answered (c := doc.settings []) rfl rfl rfl hpending ⟨htwo, hthree⟩
    ha.2.2.2 hb.2.2.2 hea heb
  have hlimit : 4 ≤ stepLimit := by decide
  exact (compileTypes_eq_finish (.cons hr (.cons hs .nil)) himports).trans (hempties.finish_eq hlimit)

end Owned

def stateful (owner : Schema) : Owned := ⟨"Stateful", "setSpec", owner⟩

def statefulSet (owner : Schema) : Owned := ⟨"StatefulSet", "spec", owner⟩

theorem readable_stateful (owner : Schema) : (stateful owner).Readable := by
  have h : (stateful {}).Readable := by decide
  exact h

theorem readable_statefulSet (owner : Schema) : (statefulSet owner).Readable := by
  have h : (statefulSet {}).Readable := by decide
  exact h

def ownedDocument (a b : Owned) : OpenApiDocument where
  definitions := [(a.key, a.schema), (b.key, b.schema)]

def text : Schema where
  type := some "string"

def apps : GroupKey := ⟨"apps", some "v1"⟩

def deploymentKey : String := "io.k8s.api.apps.v1.Deployment"

def deploymentSchema : Schema where
  type := some "object"

/-- A deployment, and two types with objects that are equal. -/
def workloads : OpenApiDocument where
  definitions :=
    (deploymentKey, deploymentSchema) :: (ownedDocument (stateful text) (statefulSet text)).definitions

theorem bare_workloads : ∀ d ∈ workloads.schemas, Bare d.1 := by
  have hall : ∀ key ∈ Table.keys workloads.schemas, Bare key := by
    unfold Bare
    decide
  exact fun d hd => hall _ (List.mem_map_of_mem hd)

theorem tidy_workloads : Tidy (workloads.settings []) [] := by
  have howned : ∀ {o : Owned} {s : Schema}, o.owner.isLeaf = true → s.Inside o.schema →
      (s.properties.map Prod.fst).Nodup := by
    intro o s howner hinside
    rcases hinside.cases_record rfl with rfl | ⟨declared, hmem, hinside⟩
    · exact List.nodup_singleton _
    · obtain rfl := List.mem_singleton.mp hmem
      rcases hinside.cases_flat rfl fun f hf => List.mem_singleton.mp hf ▸ howner with rfl | hleaf
      · exact List.nodup_singleton _
      · exact Schema.isLeaf_names hleaf
  intro s hsource
  cases hsource with
  | replacement hr => cases hr
  | root hr => cases hr
  | @definition d hd hinside =>
    have hall : d ∈ [(deploymentKey, deploymentSchema), ((stateful text).key, (stateful text).schema),
        ((statefulSet text).key, (statefulSet text).schema)] := hd
    simp only [List.mem_cons, List.not_mem_nil, or_false] at hall
    rcases hall with rfl | rfl | rfl
    · rw [Schema.Inside.eq_of_leaf hinside rfl]
      exact Schema.isLeaf_names rfl
    · exact howned rfl hinside
    · exact howned rfl hinside

theorem ordered_workloads : Table.Ordered workloads.schemas := by
  show workloads.definitions.Pairwise _
  decide

theorem get?_stateful :
    Table.get? (stateful text).key workloads.schemas = some (stateful text).schema :=
  ordered_workloads.get?_of_mem (.tail _ (.head _))

theorem get?_statefulSet :
    Table.get? (statefulSet text).key workloads.schemas = some (statefulSet text).schema :=
  ordered_workloads.get?_of_mem (.tail _ (.tail _ (.head _)))

theorem importProperty_text {i : Importer} {parent : TypeId} {property : String} :
    importProperty (doc.settings annotations) i parent property none text =
      (.ok (.primitive .string), i) :=
  importProperty_plain text_shape rfl

def askedWorkloads : Model :=
  Owned.compiled (stateful text) (statefulSet text) (.primitive .string) (.primitive .string)

theorem compileTypes_workloads :
    workloads.compileTypes [] ["stateful", "statefulset"] = .ok askedWorkloads :=
  Owned.compileTypes_asked (by decide) (by decide)
    ⟨readable_stateful _, readable_statefulSet _, by decide⟩ get?_stateful get?_statefulSet
    (fun _ _ _ => importProperty_text) fun _ _ _ => importProperty_text

/-- The import of the document before its queue is read. -/
def workloadsImport : Importer :=
  let i : Importer := (Importer.define {} deploymentKey ⟨"Deployment", "apps", some "v1"⟩
    deploymentSchema).enqueue 0 deploymentSchema
  Owned.ask (Owned.ask i (stateful text)) (statefulSet text)

/-- The import with the body of the deployment read. -/
def workloadsRead : Importer :=
  { workloadsImport with
    pending := [⟨1, (stateful text).schema⟩, ⟨2, (statefulSet text).schema⟩]
    model := workloadsImport.model.setProperties 0 [] }

def allWorkloads : Model :=
  (Owned.answered workloadsRead 1 (stateful text) (statefulSet text) (.primitive .string)
    (.primitive .string)).model.finalize

theorem compile_workloads : workloads.compile [] = .ok allWorkloads := by
  have hdeployment := importRef_record (c := workloads.settings []) (i := {})
    (q := ⟨"Deployment", "apps", some "v1"⟩)
    (show identifier deploymentKey = deploymentKey by decide) rfl (by decide)
    (by decide) (ordered_workloads.get?_of_mem (.head _)) rfl rfl
  have himports : Imports (workloads.settings []) {} (Table.keys workloads.schemas) _ workloadsImport :=
    .cons hdeployment (.cons
      (Owned.importRef_asked (readable_stateful _) (by decide) get?_stateful) (.cons
        (Owned.importRef_asked (readable_statefulSet _) (by decide) get?_statefulSet) (.nil _)))
  have hempties : Empties (workloads.settings []) workloadsRead _
      (Owned.answered workloadsRead 1 (stateful text) (statefulSet text) (.primitive .string)
        (.primitive .string)) :=
    Owned.empties_answered rfl rfl rfl rfl (by decide) (readable_stateful _).2.2.2
      (readable_statefulSet _).2.2.2 (fun _ _ _ => importProperty_text) fun _ _ _ => importProperty_text
  exact himports.importKeys_eq.trans
    ((Empties.read rfl (importBody_nil rfl) hempties).finish_eq (by decide))

/-- The objects go with the types that they are declared in. -/
theorem map_workloads {start : TypeId → Prop} {f : TypeId → TypeId}
    (h : allWorkloads.Restricts askedWorkloads start f) :
    [0, 1, 2, 3].map f = [1, 2, 3, 4] := by
  have hstateful : allWorkloads.named? apps "Stateful" = some (f 0) :=
    (h.named (by decide +kernel)).mp (by decide +kernel)
  have hstatefulSet : allWorkloads.named? apps "StatefulSet" = some (f 1) :=
    (h.named (by decide +kernel)).mp (by decide +kernel)
  have hzero : f 0 = 1 := Option.some.inj (hstateful.symm.trans (by decide +kernel))
  have hone : f 1 = 2 := Option.some.inj (hstatefulSet.symm.trans (by decide +kernel))
  have hobject : ∀ (property : String) {a p q b : TypeId}, f p = q →
      askedWorkloads.kind? a = some (.anonymous p property) →
        (∀ x < allWorkloads.types.size, allWorkloads.kind? x = some (.anonymous q property) → x = b) →
          f a = b := by
    rintro property a p _ b rfl ha honly
    have hkind := h.kind? ha
    exact honly _ (Model.kind?_lt hkind) hkind
  have htwo : f 2 = 3 := hobject "setSpec" hzero (by decide +kernel) (by decide +kernel)
  have hthree : f 3 = 4 := hobject "spec" hone (by decide +kernel) (by decide +kernel)
  simp only [List.map_cons, List.map_nil, hzero, hone, htwo, hthree]

/-- Compiling the types that are asked for succeeds if compiling all does, and restricts what comes of
that to what they lead to. -/
theorem compileTypes_restricts (hkeys : ∀ d ∈ doc.schemas, Bare d.1)
    (htidy : Tidy (doc.settings annotations) []) (hok : doc.compile annotations = .ok m)
    (hfound : ∀ r ∈ requested, ∃ key, doc.keyFor r = .ok key) :
    ∃ m' f, doc.compileTypes annotations requested = .ok m' ∧
      m.Restricts m' (fun x => ∃ r ∈ requested, ∃ key, doc.keyFor r = .ok key ∧ IsUnder m key x) f := by
  have hs : Separate (doc.settings annotations) [] := separate_of_bare hkeys
  obtain ⟨seeds₁, i₁, himports₁, hfinish⟩ := imports_of_ok hok
  obtain ⟨bodies₁, k₁, hempties₁, hlimit, rfl⟩ := empties_of_finish hfinish
  have h₁ := himports₁.imported hs hempties₁
  have hparse : ∀ key ∈ Table.keys doc.schemas, (parse? key).isSome := by
    intro key hkey
    obtain ⟨d, hd, rfl⟩ := List.mem_map.mp hkey
    obtain ⟨e, -, he⟩ := h₁.meaning hkey
    rw [(hkeys d hd).identifier] at he
    exact he.parses
  obtain ⟨names, hnames⟩ : ∃ names, doc.shortNames = .ok names := ShortNames.ofKeys_succeeds hparse
  obtain ⟨keys, hall⟩ := exists_keys hfound
  simp only [keyFor_eq hnames] at hall ⊢
  have hsubset : keys ⊆ Table.keys doc.schemas := by
    intro key hkey
    obtain ⟨r, -, hr⟩ := forall₂_mem_right hall hkey
    exact ShortNames.mem_of_resolve hnames hr
  obtain ⟨seeds, i, m', f, himports, hfinish', hrestricts⟩ :=
    h₁.exists_restricts hs htidy hkeys hlimit hsubset
  refine ⟨m', f, ?_, ?_⟩
  · rw [compileTypes, hnames]
    exact (himports.importTypes_eq hall).trans hfinish'
  · have hasked : (fun x => ∃ r ∈ requested, ∃ key, names.resolve r = .ok key ∧
        IsUnder k₁.model.finalize key x) = fun x => ∃ key ∈ keys, IsUnder k₁.model.finalize key x := by
      funext x
      apply propext
      constructor
      · rintro ⟨r, hr, key, hkey, hx⟩
        obtain ⟨key', hmem', hkey'⟩ := forall₂_mem_left hall hr
        obtain rfl := Except.ok.inj (hkey.symm.trans hkey')
        exact ⟨key, hmem', hx⟩
      · rintro ⟨key, hkey, hx⟩
        obtain ⟨r, hr, hresolve⟩ := forall₂_mem_right hall hkey
        exact ⟨r, hr, key, hresolve, hx⟩
    rw [hasked]
    exact hrestricts

/-- The deployment is left out. One of the two equal objects stands for the other in both models. -/
theorem compileTypes_restricts_workloads : ∃ m m' f, workloads.compile [] = .ok m ∧
    workloads.compileTypes [] ["stateful", "statefulset"] = .ok m' ∧
      m.Restricts m' (fun x => ∃ r ∈ ["stateful", "statefulset"], ∃ key, workloads.keyFor r = .ok key ∧
        IsUnder m key x) f ∧
      ["Deployment", "Stateful", "StatefulSet"].map (m.named? apps) = [some 0, some 1, some 2] ∧
      ["Deployment", "Stateful", "StatefulSet"].map (m'.named? apps) = [none, some 0, some 1] ∧
      [0, 1, 2, 3].map f = [1, 2, 3, 4] ∧ m.resolve 4 = 3 ∧ m'.resolve 3 = 2 := by
  have hfound : ∀ r ∈ ["stateful", "statefulset"], ∃ key, workloads.keyFor r = .ok key := by
    simp only [List.forall_mem_cons, List.not_mem_nil, false_implies, implies_true, and_true]
    exact ⟨⟨(stateful text).key, by decide⟩, (statefulSet text).key, by decide⟩
  obtain ⟨m', f, hm', hrestricts⟩ := compileTypes_restricts bare_workloads tidy_workloads
    compile_workloads hfound
  obtain rfl := Except.ok.inj (compileTypes_workloads.symm.trans hm')
  refine ⟨_, _, f, compile_workloads, hm', hrestricts, ?_, ?_, map_workloads hrestricts, ?_, ?_⟩
  · decide +kernel
  · decide +kernel
  · decide +kernel
  · decide +kernel

end OpenApiDocument

end SchemaCompiler
