import SchemaCompiler.Proofs.Import.Numbering
import SchemaCompiler.Proofs.Subset

/-! The order in which types are asked for. It decides the numbers of the types, and of what finalizing
makes of them no more than numbers decide. -/

namespace SchemaCompiler

open Importer
open QualifiedName (parse? identifier)

namespace OpenApiDocument

variable {doc : OpenApiDocument} {annotations : Annotations} {c : ImportSettings} {names : ShortNames}
  {requested requested' : List String} {i : Importer} {m : Model}

/-- Types that were asked for can be asked for again in any order. -/
theorem importTypes_resembles (hs : Separate c []) (htidy : Tidy c [])
    (hsame : ∀ r, r ∈ requested ↔ r ∈ requested') (h : importTypes c names {} requested = .ok m) :
    ∃ m' f, importTypes c names {} requested' = .ok m' ∧ Model.Resembles f m m' := by
  obtain ⟨keys, seeds, i, hkeys, himports, hfinish⟩ := exists_imports_of_importTypes h
  obtain ⟨bodies, k, hempties, hlimit, rfl⟩ := empties_of_finish hfinish
  have hfound : ∀ r ∈ requested', ∃ key, names.resolve r = .ok key := by
    intro r hr
    obtain ⟨key, -, hkey⟩ := forall₂_mem_left hkeys ((hsame r).mpr hr)
    exact ⟨key, hkey⟩
  obtain ⟨keys', hkeys'⟩ := exists_keys hfound
  have hsubset : ∀ {requested requested' keys keys'},
      List.Forall₂ (fun r key => names.resolve r = .ok key) requested keys →
        List.Forall₂ (fun r key => names.resolve r = .ok key) requested' keys' →
          (∀ r ∈ requested', r ∈ requested) → keys' ⊆ keys := by
    intro requested requested' keys keys' hkeys hkeys' hsubset key hkey
    obtain ⟨r, hr, hresolve⟩ := forall₂_mem_right hkeys' hkey
    obtain ⟨key', hmem, hresolve'⟩ := forall₂_mem_left hkeys (hsubset r hr)
    rwa [Except.ok.inj (hresolve.symm.trans hresolve')]
  have hback := hsubset hkeys hkeys' fun r => (hsame r).mpr
  have hforth := hsubset hkeys' hkeys fun r => (hsame r).mp
  have h₁ := himports.imported hs hempties
  obtain ⟨seeds', i', bodies', k', himports', hempties', hlength⟩ := h₁.exists_imports hs htidy hback
  have h₂ := himports'.imported hs hempties'
  obtain ⟨f, hr⟩ := h₂.exists_renumbers hs htidy h₁ hforth hback (himports'.unfinalized hempties')
    (himports.unfinalized hempties)
  refine ⟨_, f, ?_, hr.resembles_finalize (himports.assembled hempties hs htidy)
    (himports'.assembled hempties' hs htidy)⟩
  exact (himports'.importTypes_eq hkeys').trans (hempties'.finish_eq (Nat.le_trans hlength hlimit))

/-- Types that are asked for in another order cannot be compiled either, or are compiled to the same,
under other numbers, as far as numbers do not decide. -/
theorem compileTypes_perm (hs : Separate (doc.settings annotations) [])
    (htidy : Tidy (doc.settings annotations) []) (hperm : requested.Perm requested') :
    (∃ e e', doc.compileTypes annotations requested = .error e ∧
        doc.compileTypes annotations requested' = .error e') ∨
      ∃ m m' f, doc.compileTypes annotations requested = .ok m ∧
        doc.compileTypes annotations requested' = .ok m' ∧ Model.Resembles f m m' := by
  cases hnames : doc.shortNames with
  | error e =>
    have herror : ∀ requested, doc.compileTypes annotations requested = .error e := by
      intro requested
      rw [compileTypes, hnames]
      rfl
    exact .inl ⟨e, e, herror _, herror _⟩
  | ok names =>
    have hcompile : ∀ requested, doc.compileTypes annotations requested =
        importTypes (doc.settings annotations) names {} requested := by
      intro requested
      rw [compileTypes, hnames]
      rfl
    rw [hcompile, hcompile]
    cases h : importTypes (doc.settings annotations) names {} requested with
    | ok m =>
      obtain ⟨m', f, h', hresembles⟩ := importTypes_resembles hs htidy (fun _ => hperm.mem_iff) h
      exact .inr ⟨m, m', f, rfl, h', hresembles⟩
    | error e =>
      cases h' : importTypes (doc.settings annotations) names {} requested' with
      | ok m' =>
        obtain ⟨m, f, hok, -⟩ := importTypes_resembles hs htidy (fun _ => hperm.symm.mem_iff) h'
        rw [h] at hok
        cases hok
      | error e' => exact .inl ⟨e, e', rfl, rfl⟩

theorem compileTypes_workloads_swapped : workloads.compileTypes [] ["statefulset", "stateful"] =
    .ok (Owned.compiled (statefulSet text) (stateful text) (.primitive .string) (.primitive .string)) :=
  Owned.compileTypes_asked (by decide) (by decide)
    ⟨readable_statefulSet _, readable_stateful _, by decide⟩ get?_statefulSet get?_stateful
    (fun _ _ _ => importProperty_text) fun _ _ _ => importProperty_text

theorem compileTypes_perm_workloads :
    ["stateful", "statefulset"].Perm ["statefulset", "stateful"] ∧
      ∃ m m' f, workloads.compileTypes [] ["stateful", "statefulset"] = .ok m ∧
        workloads.compileTypes [] ["statefulset", "stateful"] = .ok m' ∧ Model.Resembles f m m' ∧
          m.named? apps "Stateful" = some 0 ∧ m'.named? apps "Stateful" = some 1 := by
  have hperm : ["stateful", "statefulset"].Perm ["statefulset", "stateful"] := .swap _ _ _
  have hs : Separate (workloads.settings []) [] := separate_of_bare bare_workloads
  refine ⟨hperm, ?_⟩
  rcases compileTypes_perm hs tidy_workloads hperm with
    ⟨e, -, he, -⟩ | ⟨m, m', f, hm, hm', hresembles⟩
  · cases compileTypes_workloads.symm.trans he
  · obtain rfl := Except.ok.inj (compileTypes_workloads.symm.trans hm)
    obtain rfl := Except.ok.inj (compileTypes_workloads_swapped.symm.trans hm')
    refine ⟨_, _, f, hm, hm', hresembles, ?_, ?_⟩
    · decide +kernel
    · decide +kernel

end OpenApiDocument

namespace Model

variable {m : Model} {key : GroupKey} {g : Group} {short : String} {members ids : List TypeId}

/-- The objects that a named type holds under a property. -/
def objectsAt (m : Model) (key : GroupKey) (name property : String) : List TypeEntry :=
  match m.named? key name with
  | some root => m.types.toList.filter fun t => t.kind == .anonymous root property
  | none => []

/-- Finalizing a model that has one bucket. -/
theorem objectsAt_finalize_single {name property : String} (root : TypeId) (taken : List String)
    (short : String) (members ids : List TypeId)
    (hkeys : m.keys = [key]) (hroot : m.named? key name = some root)
    (hnamed : (m.group? key).map (Table.keys ∘ Group.named) = some taken)
    (hanonymous : (m.group? key).map Group.anonymous = some [(short, members)])
    (hids : setOf (members.map (m.mergeEquals [members]).resolve) = ids)
    (horder : (ids.map ((m.mergeEquals [members]).classOf members)).Pairwise
      fun a b => a.order b != .gt) :
    m.finalize.objectsAt key name property = ((m.mergeEquals [members]).assignNames
      (classNames short taken (ids.map ((m.mergeEquals [members]).classOf members)))).types.toList.filter
        fun t => t.kind == .anonymous root property := by
  obtain ⟨g, hg, hbucket⟩ := Option.map_eq_some_iff.mp hanonymous
  rw [hg, Option.map_some, Option.some.injEq, Function.comp] at hnamed
  have hvalues : Table.values g.anonymous = [members] := by
    rw [hbucket]
    rfl
  have hclasses : (m.mergeEquals [members]).classesOf members =
      ids.map ((m.mergeEquals [members]).classOf members) := by
    rw [classesOf, hids]
    exact List.mergeSort_of_pairwise horder
  have hroot' : m.finalize.named? key name = some root := by
    rw [finalize, hkeys, List.foldl_cons, List.foldl_nil, finalizeGroup_eq hg, named?,
      group?_setFinalized, if_pos rfl, ← hroot, named?, hg]
    rfl
  have htypes : m.finalize.types = ((m.mergeEquals [members]).assignNames (classNames short taken
      (ids.map ((m.mergeEquals [members]).classOf members)))).types := by
    rw [finalize, hkeys, List.foldl_cons, List.foldl_nil, types_finalizeGroup hg, reconcile_eq,
      namings, hvalues, hbucket, hnamed, groupNames, groupNames, List.append_nil, hclasses]
  rw [objectsAt, hroot', htypes]

end Model

namespace OpenApiDocument

/-! Where numbers do decide. Two types have objects with one full name, and the order in which they are
asked for decides which of the objects comes first. -/

/-- The objects are equal. -/
def equalOwners : OpenApiDocument := ownedDocument (stateful text) (statefulSet text)

def pathTo (name : String) : String := "#/definitions/io.k8s.api.apps.v1." ++ name

/-- The type with the object is its owner, so that the objects differ in numbers only. -/
def differentOwners : OpenApiDocument :=
  ownedDocument (stateful (.toReference (pathTo "Stateful")))
    (statefulSet (.toReference (pathTo "StatefulSet")))

/-- One of two equal objects stands for the other. -/
theorem exists_equalOwners : ∃ m m',
    equalOwners.compileTypes [] ["stateful", "statefulset"] = .ok m ∧
      equalOwners.compileTypes [] ["statefulset", "stateful"] = .ok m' ∧
        (m.objectsAt apps "Stateful" "setSpec").map TypeEntry.mergedInto = [none] ∧
          (m'.objectsAt apps "Stateful" "setSpec").map TypeEntry.mergedInto = [some 2] := by
  have hordered : Table.Ordered equalOwners.schemas := by
    show equalOwners.definitions.Pairwise _
    decide
  have hstateful := hordered.get?_of_mem (.head _)
  have hstatefulSet := hordered.get?_of_mem (.tail _ (.head _))
  have hkey : equalOwners.keyFor "stateful" = .ok (stateful text).key := by
    decide
  have hkeySet : equalOwners.keyFor "statefulset" = .ok (statefulSet text).key := by
    decide
  have hfirst : equalOwners.compileTypes [] ["stateful", "statefulset"] = .ok (Owned.compiled
      (stateful text) (statefulSet text) (.primitive .string) (.primitive .string)) :=
    Owned.compileTypes_asked hkey hkeySet ⟨readable_stateful _, readable_statefulSet _,
      by decide⟩ hstateful hstatefulSet (fun _ _ _ => importProperty_text)
      fun _ _ _ => importProperty_text
  have hsecond : equalOwners.compileTypes [] ["statefulset", "stateful"] = .ok (Owned.compiled
      (statefulSet text) (stateful text) (.primitive .string) (.primitive .string)) :=
    Owned.compileTypes_asked hkeySet hkey ⟨readable_statefulSet _, readable_stateful _,
      by decide⟩ hstatefulSet hstateful (fun _ _ _ => importProperty_text)
      fun _ _ _ => importProperty_text
  refine ⟨_, _, hfirst, hsecond, ?_, ?_⟩
  · decide +kernel
  · decide +kernel

/-- One of two different objects takes the short name. -/
theorem exists_differentOwners : ∃ m m',
    differentOwners.compileTypes [] ["stateful", "statefulset"] = .ok m ∧
      differentOwners.compileTypes [] ["statefulset", "stateful"] = .ok m' ∧
        (m.objectsAt apps "Stateful" "setSpec").map TypeEntry.name = ["StatefulSetSpec"] ∧
          (m'.objectsAt apps "Stateful" "setSpec").map TypeEntry.name = ["StatefulSetSpec2"] := by
  have hordered : Table.Ordered differentOwners.schemas := by
    show differentOwners.definitions.Pairwise _
    decide
  have hstateful := hordered.get?_of_mem (.head _)
  have hstatefulSet := hordered.get?_of_mem (.tail _ (.head _))
  have hkey : differentOwners.keyFor "stateful" =
      .ok (stateful (.toReference (pathTo "Stateful"))).key := by
    decide
  have hkeySet : differentOwners.keyFor "statefulset" =
      .ok (statefulSet (.toReference (pathTo "StatefulSet"))).key := by
    decide
  have hnamed : ∀ {path id} {i j : Importer},
      Table.get? (identifier path) j.resolved = some (.type id) → i.resolved = j.resolved →
        ∀ parent, importProperty (differentOwners.settings []) i parent "owner" none
          (.toReference path) = (.ok (.type id), i) := by
    intro path id i j hfound hi parent
    rw [← hi] at hfound
    exact importProperty_reference (toReference_shape path) (importRef_known hfound)
  have hfirst : differentOwners.compileTypes [] ["stateful", "statefulset"] = .ok (Owned.compiled
      (stateful (.toReference (pathTo "Stateful"))) (statefulSet (.toReference (pathTo "StatefulSet")))
        (.type 0) (.type 1)) :=
    Owned.compileTypes_asked hkey hkeySet ⟨readable_stateful _, readable_statefulSet _,
      by decide⟩ hstateful hstatefulSet (fun i => hnamed (by decide))
      fun i => hnamed (by decide)
  have hsecond : differentOwners.compileTypes [] ["statefulset", "stateful"] = .ok (Owned.compiled
      (statefulSet (.toReference (pathTo "StatefulSet"))) (stateful (.toReference (pathTo "Stateful")))
        (.type 0) (.type 1)) :=
    Owned.compileTypes_asked hkeySet hkey ⟨readable_statefulSet _, readable_stateful _,
      by decide⟩ hstatefulSet hstateful (fun i => hnamed (by decide))
      fun i => hnamed (by decide)
  refine ⟨_, _, hfirst, hsecond, ?_, ?_⟩
  · refine (congrArg (List.map TypeEntry.name) (Model.objectsAt_finalize_single 0
      ["Stateful", "StatefulSet"] "StatefulSetSpec" [2, 3] [2, 3] ?_ ?_ ?_ ?_ ?_ ?_)).trans ?_
    all_goals decide +kernel
  · refine (congrArg (List.map TypeEntry.name) (Model.objectsAt_finalize_single 1
      ["Stateful", "StatefulSet"] "StatefulSetSpec" [2, 3] [2, 3] ?_ ?_ ?_ ?_ ?_ ?_)).trans ?_
    all_goals decide +kernel

namespace ReadAlike

def deployment : QualifiedName := ⟨"Deployment", "apps", some "v1"⟩

def other : QualifiedName := ⟨"Other", "apps", some "v1"⟩

def key : String := "io.k8s.api.apps.v1.Deployment"

def otherKey : String := "io.k8s.api.apps.v1.Other"

def sizedKey : String := "#/definitions/" ++ key

def bare : Schema where
  type := some "object"

def synonym : Schema := .toReference ("#/definitions/" ++ sizedKey)

/-- Two definitions are read as one name, and a synonym leads to the second. -/
def document : OpenApiDocument where
  definitions := [(sizedKey, sizedSchema), (key, bare), (otherKey, synonym)]

/-- The import of the first definition and then the synonym. -/
def first : Importer :=
  let i : Importer := (Importer.define {} key deployment bare).enqueue 0 bare
  let i := (i.define otherKey other synonym).remember sizedKey (.type 0)
  { i with model := i.model.setKind 1 (.synonym (.type 0)) }

/-- The import of the synonym and then the first definition. -/
def second : Importer :=
  let i : Importer := Importer.define {} otherKey other synonym
  let i := (i.define sizedKey deployment sizedSchema).enqueue 1 sizedSchema
  { i with model := i.model.setKind 0 (.synonym (.type 1)) }.remember key (.type 1)

/-- The import with the queue read. -/
def sized : Importer :=
  { second with
    pending := []
    model := second.model.setProperties 1 [
      { name := "size", type := .primitive .integer, required := false }] }

theorem exists_readAlike : ∃ m m',
    document.compileTypes [] [key, "other"] = .ok m ∧ document.compileTypes [] ["other", key] = .ok m' ∧
      (m.named? apps "Deployment").map m.propertiesOf = some [] ∧
        (m'.named? apps "Deployment").map m'.propertiesOf ≠ some [] := by
  have hordered : Table.Ordered document.schemas := by
    show document.definitions.Pairwise _
    decide
  have hsized := hordered.get?_of_mem (.head _)
  have hbare := hordered.get?_of_mem (.tail _ (.head _))
  have hsynonym := hordered.get?_of_mem (.tail _ (.tail _ (.head _)))
  obtain ⟨hkey, hsizedKey, hotherKey⟩ : identifier key = key ∧
      identifier ("#/definitions/" ++ sizedKey) = sizedKey ∧ identifier otherKey = otherKey := by
    decide
  obtain ⟨hread, hreadSized, hreadOther⟩ : parse? key = some deployment ∧
      parse? sizedKey = some deployment ∧ parse? otherKey = some other := by
    decide
  obtain ⟨hdeployment, hother⟩ : wellKnown? deployment = none ∧ wellKnown? other = none := by
    decide
  have hfirst : Imports (document.settings []) {} [key, otherKey] [.type 0, .type 1] first := by
    refine .cons (importRef_record hkey rfl hread hdeployment hbare rfl rfl)
      (.cons (importRef_synonym hotherKey (by decide) hreadOther hother hsynonym rfl rfl
        (by decide) ?_) (.nil _))
    exact importWith_path (toReference_shape _) (followRef_registered hsizedKey
      (by decide) hreadSized hdeployment hsized rfl (by decide) _)
  have hsecond : Imports (document.settings []) {} [otherKey, key] [.type 0, .type 1] second := by
    refine .cons (importRef_synonym hotherKey rfl hreadOther hother hsynonym rfl rfl rfl ?_)
      (.cons (followRef_registered hkey (by decide) hread hdeployment hbare rfl
        (by decide) _) (.nil _))
    exact importWith_path (toReference_shape _) (followRef_record hsizedKey
      (by decide) hreadSized hdeployment hsized rfl (by decide) _)
  have hempties : Empties (document.settings []) second [⟨1, sizedSchema⟩] sized :=
    .read rfl (importBody_single rfl rfl (by decide) rfl (importProperty_plain integer_shape rfl))
      (.done rfl)
  have hresolve : document.keyFor key = .ok key := by decide +kernel
  have hresolveOther : document.keyFor "other" = .ok otherKey := by decide +kernel
  refine ⟨_, _, (compileTypes_eq_finish (.cons hresolve (.cons hresolveOther .nil)) hfirst).trans
    ((Empties.read rfl (importBody_nil rfl) (.done rfl)).finish_eq (by decide)),
    (compileTypes_eq_finish (.cons hresolveOther (.cons hresolve .nil)) hsecond).trans
      (hempties.finish_eq (by decide)), ?_, ?_⟩
  · decide +kernel
  · decide +kernel

end ReadAlike

/-- The order in which types are asked for can decide which of two objects takes the short name, which
of two equal objects stands for the other, and which of two definitions that are read as one name
counts. -/
theorem compileTypes_order_matters :
    (∃ m m', differentOwners.compileTypes [] ["stateful", "statefulset"] = .ok m ∧
      differentOwners.compileTypes [] ["statefulset", "stateful"] = .ok m' ∧
        (m.objectsAt apps "Stateful" "setSpec").map TypeEntry.name = ["StatefulSetSpec"] ∧
          (m'.objectsAt apps "Stateful" "setSpec").map TypeEntry.name = ["StatefulSetSpec2"]) ∧
    (∃ m m', equalOwners.compileTypes [] ["stateful", "statefulset"] = .ok m ∧
      equalOwners.compileTypes [] ["statefulset", "stateful"] = .ok m' ∧
        (m.objectsAt apps "Stateful" "setSpec").map TypeEntry.mergedInto = [none] ∧
          (m'.objectsAt apps "Stateful" "setSpec").map TypeEntry.mergedInto = [some 2]) ∧
    ∃ m m', ReadAlike.document.compileTypes [] [ReadAlike.key, "other"] = .ok m ∧
      ReadAlike.document.compileTypes [] ["other", ReadAlike.key] = .ok m' ∧
        (m.named? apps "Deployment").map m.propertiesOf = some [] ∧
          (m'.named? apps "Deployment").map m'.propertiesOf ≠ some [] :=
  ⟨exists_differentOwners, exists_equalOwners, ReadAlike.exists_readAlike⟩

end OpenApiDocument

end SchemaCompiler
