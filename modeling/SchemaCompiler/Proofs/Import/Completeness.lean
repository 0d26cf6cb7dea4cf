import SchemaCompiler.Proofs.Import.Origin

/-! What a run of imports leaves behind. Every type that was asked for or met is registered once, and
what its body says is all there. -/

namespace SchemaCompiler

open QualifiedName (parse?)

namespace Property

variable {a b : Property} {ps : List Property}

/-- Required properties come before the others, and those that are alike in this by their names. -/
def Before (a b : Property) : Prop :=
  a.required = true ∧ b.required = false ∨ a.required = b.required ∧ a.name < b.name

theorem order_le_iff : (order a b != .gt) = true ↔
    a.required = true ∧ b.required = false ∨
      a.required = b.required ∧ (compare a.name b.name).isLE = true := by
  rw [order, bne_iff_ne, Ordering.isLE_iff_ne_gt]
  cases a.required <;> cases b.required <;> simp [compare]

instance : Std.TransCmp order :=
  have : Std.TransCmp fun a b : Property => compareOn Property.required b a := Std.TransCmp.opposite
  inferInstanceAs (Std.TransCmp (compareLex (fun a b : Property => compareOn Property.required b a)
    (compareOn Property.name)))

theorem sort_pairwise (hnames : (ps.map Property.name).Nodup) : (sort ps).Pairwise Before := by
  have hsorted : (sort ps).Pairwise fun a b => (order a b != .gt) = true := pairwise_sorted order ps
  have hdistinct : (sort ps).Pairwise fun a b => a.name ≠ b.name :=
    List.pairwise_map.mp (((List.mergeSort_perm ps _).map Property.name).nodup_iff.mpr hnames)
  refine hsorted.imp₂ (fun a b hle hne => ?_) hdistinct
  rcases order_le_iff.mp hle with h | ⟨heq, hle⟩
  · exact .inl h
  · refine .inr ⟨heq, ?_⟩
    cases hc : compare a.name b.name with
    | lt => exact compareOfLessAndEq_eq_lt.mp hc
    | eq => exact absurd (Std.LawfulEqOrd.eq_of_compare hc) hne
    | gt => simp [hc] at hle

end Property

namespace Importer

open Model (namedEntry)

variable {c : ImportSettings} {roots roots' : List Root} {read bodies : List Pending}
  {i j k : Importer} {m m' : Model} {seeds : List TypeExpr} {id : TypeId} {p : Pending}

/-! More roots. -/

theorem Unshared.of_subset (h : Unshared c roots') (hsub : roots ⊆ roots') : Unshared c roots :=
  ⟨h.distinct, fun d hd q hq r hr => h.apart d hd q hq r (hsub hr), fun r hr => h.named r (hsub hr)⟩

theorem Sourced.widen {s : Schema} (h : Sourced c roots s) (hsub : roots ⊆ roots') :
    Sourced c roots' s := by
  cases h with
  | definition hd hs => exact .definition hd hs
  | replacement hr hs => exact .replacement hr hs
  | root hr hs => exact .root (hsub hr) hs

theorem Owned.widen (h : Owned c roots m p) (hsub : roots ⊆ roots') : Owned c roots' m p := by
  cases h with
  | definition h hr => exact .definition h hr
  | root hr h hs => exact .root (hsub hr) h hs
  | object hl ha => exact .object hl ha

theorem Full.widen (h : Full c roots read [] i) (hsub : roots ⊆ roots') :
    Full c roots' read [] i := by
  have hcoherent := h.coherent
  have hknown : Coherent c roots' i := by
    refine ⟨hcoherent.ready, hcoherent.shelved, hcoherent.remembered, fun hid => ?_⟩
    refine (hcoherent.known hid).imp_left ?_
    rintro ⟨r, hr, hroot⟩
    exact ⟨r, hsub hr, hroot⟩
  refine ⟨hknown, h.lt, h.nodup, fun p hp => ?_, h.settled, h.filled, h.unread, h.bodied⟩
  obtain ⟨hsource, howned⟩ := h.owned p hp
  exact ⟨hsource.widen hsub, howned.widen hsub⟩

/-- The import with a root just registered. -/
def enroll (i : Importer) (r : Root) : Importer :=
  { i with model := (i.model.registerNamed r.group r.name r.kind r.schema.description).2 }

theorem registerRoot_known {r : Root} (hid : i.model.find? r.group (r.group.qualify r.name) = some id) :
    i.registerRoot r.group r.name r.kind r.schema = (id, i) := by
  rw [registerRoot, hid]

theorem registerRoot_new {r : Root} (hnew : i.model.find? r.group (r.group.qualify r.name) = none) :
    i.registerRoot r.group r.name r.kind r.schema =
      (i.model.types.size, (i.enroll r).enqueue i.model.types.size r.schema) := by
  rw [registerRoot, enroll, hnew, Model.registerNamed_new hnew]

theorem size_enroll {r : Root} (hnew : i.model.find? r.group (r.group.qualify r.name) = none) :
    (i.enroll r).model.types.size = i.model.types.size + 1 := by
  rw [show (i.enroll r).model.types = i.model.types.push _ from
    Model.types_registerNamed_new hnew r.kind r.schema.description, Array.size_push]

section Enroll

variable {r : Root} (hs : Unshared c roots) (hr : r ∈ roots)
  (hnew : i.model.find? r.group (r.group.qualify r.name) = none)

include hs hr hnew


theorem Coherent.enroll (h : Coherent c roots i) : Coherent c roots (i.enroll r) ∧
    RootAt (i.enroll r).model r i.model.types.size := by
  have hwell := h.ready.wellFormed
  have hextends := Model.extends_registerNamed hwell r.group r.name r.kind r.schema.description
  have hroot : RootAt (i.enroll r).model r i.model.types.size := by
    refine ⟨?_, ?_⟩
    · change (Model.registerNamed _ _ _ _ _).2.named? _ _ = _
      rw [Model.named?_registerNamed_new hnew, if_pos ⟨rfl, rfl⟩]
    · change (Model.registerNamed _ _ _ _ _).2.label? _ = _
      rw [Model.label?_push (Model.types_registerNamed_new hnew _ _), if_pos rfl]
  refine ⟨⟨(h.ready.registerNamed _ _ _ _).ready, ?_, fun hk => (h.remembered hk).mono hextends, ?_⟩,
    hroot⟩
  · exact h.shelved.registerNamed hwell _ _ (hs.named r hr) _
  · intro group name id hid
    change (Model.registerNamed _ _ _ _ _).2.named? group name = some id at hid
    rw [Model.named?_registerNamed_new hnew] at hid
    split at hid
    · next hname =>
      obtain rfl := Option.some.inj hid
      exact .inl ⟨r, hr, hroot, hname.1.symm, hname.2.symm⟩
    · exact h.known_mono (j := i.enroll r) hid hextends fun he => he

theorem Coherent.adds_enroll (h : Coherent c roots i) : Adds c roots i (i.enroll r) :=
  h.adds_registerNamed (h.enroll hs hr hnew).1 hnew (hs.named r hr) rfl rfl fun he => he

/-- A root that is new is registered, and its body is put into the queue. -/
theorem Coherent.adds_root (h : Coherent c roots i) :
    Adds c roots i ((i.enroll r).enqueue i.model.types.size r.schema) := by
  have hlt : i.model.types.size < (i.enroll r).model.types.size := by
    rw [size_enroll hnew]
    exact Nat.lt_succ_self _
  have hfree : i.model.types.size ∉ (i.enroll r).pending.map Pending.id := by
    intro hmem
    obtain ⟨p, hp, hid⟩ := List.mem_map.mp hmem
    exact Nat.ne_of_lt (h.ready.pending_lt p hp) hid
  exact (h.adds_enroll hs hr hnew).enqueue (Nat.le_refl _) hlt hfree (.root hr .refl)
    (.root hr (h.enroll hs hr hnew).2 rfl)

theorem Full.registerRoot (h : Full c roots read [] i) (hseeds : Rooted seeds i)
    (hj : j = (i.enroll r).enqueue i.model.types.size r.schema) :
    Full c roots read [] j ∧ Rooted (seeds ++ [.type i.model.types.size]) j ∧ i.model.Extends j.model ∧
      i.pending ⊆ j.pending ∧ RootAt j.model r i.model.types.size ∧
        ⟨i.model.types.size, r.schema⟩ ∈ j.pending := by
  subst hj
  have hroot := (h.coherent.enroll hs hr hnew).2
  have hsize := size_enroll hnew
  have hadds := h.coherent.adds_root hs hr hnew
  have hgrows : Grows c roots (read ++ []) i ((i.enroll r).enqueue i.model.types.size r.schema) :=
    ⟨hadds, fun hid _ => .inl hid⟩
  refine ⟨h.grow hgrows, fun id hid => ?_, hadds.extends, List.subset_append_left _ _, hroot,
    List.mem_append_right _ List.mem_cons_self⟩
  rcases Nat.lt_or_ge id i.model.types.size with hlt | hge
  · refine (hseeds.old hadds.same hlt).imp_left ?_
    rintro ⟨e, he, hmentioned⟩
    exact ⟨e, List.mem_append_left _ he, hmentioned⟩
  · refine .inl ⟨_, List.mem_append_right _ List.mem_cons_self, ?_, fun {x y} hk => ?_⟩
    · change id < (i.enroll r).model.types.size at hid
      rw [show id = i.model.types.size by omega]
      exact List.mem_cons_self
    · change id < (i.enroll r).model.types.size at hid
      rw [show id = i.model.types.size by omega] at hk
      have hkind := Model.kind_of_label? hroot.label hk
      have hnamed := TypeEntry.label_anonymous_iff.mp hkind
      exact absurd hnamed (hs.named r hr x y)

end Enroll

/-! Runs. -/

/-- What an import is asked for. -/
inductive Call where
  | reference (path : String)
  | root (r : Root)

def rootsOf : List Call → List Root
  | [] => []
  | .reference _ :: calls => rootsOf calls
  | .root r :: calls => r :: rootsOf calls

/-- The calls lead from one state to the other, and none of them fails. -/
inductive Calls (c : ImportSettings) : Importer → List Call → Importer → Prop where
  | nil (i : Importer) : Calls c i [] i
  | reference {i j k : Importer} {path : String} {e : TypeExpr} {calls : List Call}
      (hok : i.importRef c path = (.ok e, j)) (h : Calls c j calls k) :
      Calls c i (.reference path :: calls) k
  | root {i j k : Importer} {r : Root} {id : TypeId} {calls : List Call}
      (hok : i.registerRoot r.group r.name r.kind r.schema = (id, j)) (h : Calls c j calls k) :
      Calls c i (.root r :: calls) k

theorem Calls.of_found {path : String} {e : TypeExpr} {calls : List Call}
    (hok : (i.importRef c path).1 = .ok e) (h : Calls c (i.importRef c path).2 calls k) :
    Calls c i (.reference path :: calls) k :=
  .reference (Prod.ext hok rfl) h

theorem drain_of_ok (hok : (i.drain c).1 = .ok ()) : i.drain c = (.ok (), (i.drain c).2) :=
  Prod.ext hok rfl

/-- Of several roots with the same name, the first. -/
def firstNamed (roots : List Root) (group : GroupKey) (name : String) : Option Root :=
  roots.find? fun r => r.group == group && r.name == name

theorem firstNamed_eq_none {group : GroupKey} {name : String} :
    firstNamed roots group name = none ↔ ∀ r ∈ roots, ¬(r.group = group ∧ r.name = name) := by
  simp [firstNamed]

theorem firstNamed_append {group : GroupKey} {name : String} {first : Root}
    (h : firstNamed roots group name = some first) (r : Root) :
    firstNamed (roots ++ [r]) group name = some first := by
  rw [firstNamed] at h
  rw [firstNamed, List.find?_append, h]
  rfl

/-- Each root is a type with the body that was given first under its name. -/
def Registered (roots : List Root) (m : Model) (bodies : List Pending) : Prop :=
  ∀ r ∈ roots, ∃ first id, firstNamed roots r.group r.name = some first ∧ RootAt m first id ∧
    first.group = r.group ∧ first.name = r.name ∧ ⟨id, first.schema⟩ ∈ bodies

theorem Registered.mono {bodies' : List Pending} (h : Registered roots m bodies) (hm : m.Extends m')
    (hb : bodies ⊆ bodies') : Registered roots m' bodies' := by
  intro r hr
  obtain ⟨first, id, hfirst, hroot, hgroup, hname, hbody⟩ := h r hr
  exact ⟨first, id, hfirst, hroot.mono hm, hgroup, hname, hb hbody⟩

theorem Registered.known {r : Root} (h : Registered roots m bodies) {r' : Root} (hr' : r' ∈ roots)
    (hgroup : r'.group = r.group) (hname : r'.name = r.name) :
    Registered (roots ++ [r]) m bodies := by
  intro x hx
  rcases List.mem_append.mp hx with hx | hx
  · obtain ⟨first, id, hfirst, hrest⟩ := h x hx
    exact ⟨first, id, firstNamed_append hfirst r, hrest⟩
  · rw [List.mem_singleton.mp hx, ← hgroup, ← hname]
    obtain ⟨first, id, hfirst, hrest⟩ := h r' hr'
    exact ⟨first, id, firstNamed_append hfirst r, hrest⟩

theorem Registered.new {r : Root} (h : Registered roots m bodies)
    (hnew : ∀ x ∈ roots, ¬(x.group = r.group ∧ x.name = r.name)) (hroot : RootAt m r id)
    (hbody : ⟨id, r.schema⟩ ∈ bodies) : Registered (roots ++ [r]) m bodies := by
  intro x hx
  rcases List.mem_append.mp hx with hx | hx
  · obtain ⟨first, id, hfirst, hrest⟩ := h x hx
    exact ⟨first, id, firstNamed_append hfirst r, hrest⟩
  · rw [List.mem_singleton.mp hx]
    refine ⟨r, id, ?_, hroot, rfl, rfl, hbody⟩
    have hnone := firstNamed_eq_none.mpr hnew
    rw [firstNamed] at hnone
    simp [firstNamed, List.find?_append, hnone]

theorem Coherent.root_of_named (h : Coherent c roots i) {r : Root}
    (hs : Unshared c (roots ++ [r])) (hid : i.model.named? r.group r.name = some id) :
    ∃ r' ∈ roots, r'.group = r.group ∧ r'.name = r.name := by
  rcases h.known hid with ⟨r', hr', -, hname⟩ | ⟨key, q, definition, hdefined, -⟩
  · exact ⟨r', hr', hname⟩
  · obtain ⟨hgroup, hname⟩ := hdefined.group_eq h.ready.wellFormed hid
    exact absurd ⟨hgroup.symm, hname.symm⟩ (hs.apart _ (Table.mem_of_get? hdefined.defined) q
      hdefined.name r (List.mem_append_right _ List.mem_cons_self))

/-- What has come of the calls before the queue is read. -/
structure Asked (c : ImportSettings) (roots : List Root) (seeds : List TypeExpr) (i : Importer) :
    Prop where
  full : Full c roots [] [] i
  rooted : Rooted seeds i
  registered : Registered roots i.model i.pending

theorem asked_empty (c : ImportSettings) : Asked c [] [] {} :=
  ⟨full_empty c [], rooted_empty, by simp [Registered]⟩

theorem Asked.importRef (h : Asked c roots seeds i) (hs : Unshared c roots) {path : String}
    {e : TypeExpr} (hok : i.importRef c path = (.ok e, j)) : Asked c roots (seeds ++ [e]) j ∧
      i.model.Extends j.model ∧ Meaning c j.model (QualifiedName.identifier path) e := by
  have hfound := h.full.coherent.found_followRef hs ([] ++ []) hok
  have hextends := hfound.grows.extends
  have hsubset := hfound.grows.subset []
  exact ⟨⟨h.full.grow hfound.grows, h.rooted.found hfound, h.registered.mono hextends hsubset⟩,
    hextends, hfound.meaning⟩

theorem Asked.registerRoot (h : Asked c roots seeds i) {r : Root} (hs : Unshared c (roots ++ [r]))
    (hok : i.registerRoot r.group r.name r.kind r.schema = (id, j)) :
    ∃ seeds, Asked c (roots ++ [r]) seeds j ∧ i.model.Extends j.model := by
  have hwiden := h.full.widen (List.subset_append_left roots [r])
  have hwell := h.full.coherent.ready.wellFormed
  cases hf : i.model.find? r.group (r.group.qualify r.name) with
  | some id' =>
    rw [registerRoot_known hf] at hok
    obtain ⟨rfl, rfl⟩ := Prod.mk.inj hok
    rw [hwell.indexed] at hf
    obtain ⟨r', hr', hgroup, hname⟩ := h.full.coherent.root_of_named hs hf
    exact ⟨seeds, ⟨hwiden, h.rooted, h.registered.known hr' hgroup hname⟩, .refl _⟩
  | none =>
    rw [registerRoot_new hf] at hok
    obtain ⟨rfl, hj⟩ := Prod.mk.inj hok
    have hr : r ∈ roots ++ [r] := List.mem_append_right _ List.mem_cons_self
    obtain ⟨hfull, hrooted, hextends, hsubset, hroot, hbody⟩ :=
      hwiden.registerRoot hs hr hf h.rooted hj.symm
    refine ⟨_, ⟨hfull, hrooted, (h.registered.mono hextends hsubset).new (fun x hx hname => ?_)
      hroot hbody⟩, hextends⟩
    obtain ⟨first, id, -, hfirst, hgroup', hname', -⟩ := h.registered x hx
    rw [hwell.indexed, ← hname.1, ← hname.2, ← hgroup', ← hname', hfirst.named] at hf
    cases hf

theorem Calls.asked {calls : List Call} (h : Calls c i calls j) (hs : Unshared c (roots ++ rootsOf calls))
    (hi : Asked c roots seeds i) : (∃ seeds, Asked c (roots ++ rootsOf calls) seeds j) ∧
      i.model.Extends j.model ∧
      ∀ path, .reference path ∈ calls →
        ∃ e, Meaning c j.model (QualifiedName.identifier path) e := by
  induction h generalizing roots seeds with
  | nil i => exact ⟨⟨seeds, by simpa [rootsOf] using hi⟩, .refl _, by simp⟩
  | @reference i l j path e calls hok h ih =>
    rw [rootsOf] at hs ⊢
    obtain ⟨hl, hextends, hmeaning⟩ := hi.importRef (hs.of_subset (List.subset_append_left _ _)) hok
    obtain ⟨hj, hextendsj, hmeanings⟩ := ih hs hl
    refine ⟨hj, hextends.trans hextendsj, fun path' hpath => ?_⟩
    rcases List.mem_cons.mp hpath with heq | hpath
    · obtain rfl := Call.reference.inj heq
      exact ⟨e, hmeaning.mono hextendsj⟩
    · exact hmeanings path' hpath
  | @root i l j r id calls hok h ih =>
    have hroots : roots ++ rootsOf (.root r :: calls) = roots ++ [r] ++ rootsOf calls := by
      rw [rootsOf, List.append_assoc, List.singleton_append]
    rw [hroots] at hs ⊢
    obtain ⟨seeds, hl, hextends⟩ :=
      hi.registerRoot (hs.of_subset (List.subset_append_left _ _)) hok
    obtain ⟨hj, hextendsj, hmeanings⟩ := ih hs hl
    refine ⟨hj, hextends.trans hextendsj, fun path hpath => ?_⟩
    rcases List.mem_cons.mp hpath with heq | hpath
    · cases heq
    · exact hmeanings path hpath

/-- What the type `id` was registered for. If it has a body, that is one of `bodies`. -/
inductive Accounted (c : ImportSettings) (roots : List Root) (m : Model) (bodies : List Pending)
    (id : TypeId) : Prop where
  | root {r : Root} (hr : firstNamed roots r.group r.name = some r) (h : RootAt m r id)
      (hb : ⟨id, r.schema⟩ ∈ bodies)
  | definition {key : String} {q : QualifiedName} {definition : Schema}
      (h : Defined c m key q definition id) (hs : Settles c m bodies definition id)
  | object {l : TypeEntry} {body : Schema} (hl : m.label? id = some l) (ha : l.isAnonymous = true)
      (hb : ⟨id, body⟩ ∈ bodies)

/-- The type of the body `p` has one property for each of the fields that are kept, in order. -/
structure Described (c : ImportSettings) (m : Model) (bodies : List Pending) (p : Pending)
    (t : TypeEntry) : Prop where
  entry : m.types[p.id]? = some t
  once : (t.properties.map Property.name).Nodup
  names : ∀ name, name ∈ t.properties.map Property.name ↔
    name ∈ p.schema.properties.map Prod.fst ∧ (contextOf c t p).keeps name = true
  fields : ∀ f ∈ p.schema.properties, ∀ x ∈ t.properties, x.name = f.1 →
    FieldOf c m bodies (contextOf c t p) f x
  sorted : t.properties.Pairwise Property.Before

theorem Filled.described (h : Filled c m bodies p)
    (htidy : (p.schema.properties.map Prod.fst).Nodup) : ∃ t, Described c m bodies p t := by
  obtain ⟨t, ps, ht, hps, hfields⟩ := h
  have hnames := names_of_fields hfields
  have hkept : (ps.map Property.name).Nodup := by
    rw [hnames]
    exact htidy.sublist (List.filter_sublist.map Prod.fst)
  have hperm : (t.properties.map Property.name).Perm (ps.map Property.name) := by
    rw [hps]
    exact (List.mergeSort_perm ps _).map Property.name
  refine ⟨t, ht, hperm.nodup_iff.mpr hkept, fun name => ?_, fun f hf x hx hname => ?_, ?_⟩
  · rw [hperm.mem_iff, hnames, mem_kept_iff]
  · rw [hps] at hx
    obtain ⟨f', hf', hfield⟩ := forall₂_mem_right hfields (List.mem_mergeSort.mp hx)
    have hsame : f' = f := List.inj_on_of_nodup_map htidy (List.mem_filter.mp hf').1 hf
      (hfield.name.symm.trans hname)
    exact hsame ▸ hfield
  · rw [hps]
    exact Property.sort_pairwise hkept

/-- What an import has come to when its queue has been read. -/
structure Complete (c : ImportSettings) (calls : List Call) (bodies : List Pending) (k : Importer) :
    Prop where
  pending : k.pending = []
  /-- Every type was asked for, met as a definition or declared as an object. -/
  types : ∀ id, id < k.model.types.size → Accounted c (rootsOf calls) k.model bodies id
  references : ∀ path, .reference path ∈ calls →
    ∃ e, Meaning c k.model (QualifiedName.identifier path) e
  roots : Registered (rootsOf calls) k.model bodies
  named_once : ∀ {id id' : TypeId} {l l' : TypeEntry}, k.model.label? id = some l →
    k.model.label? id' = some l' → l.isAnonymous = false → l'.isAnonymous = false →
      l.group = l'.group → l.name = l'.name → id = id'
  object_once : ∀ {id id' parent : TypeId} {property : String},
    k.model.kind? id = some (.anonymous parent property) →
      k.model.kind? id' = some (.anonymous parent property) → id = id'
  body_once : (bodies.map Pending.id).Nodup
  described : ∀ p ∈ bodies, ∃ t, Described c k.model bodies p t

theorem Full.accounted (h : Full c roots read [] i)
    (hreg : Registered roots i.model (read ++ [] ++ i.pending)) (hid : id < i.model.types.size) :
    Accounted c roots i.model (read ++ [] ++ i.pending) id := by
  have ht := Array.getElem?_eq_getElem hid
  have hl : i.model.label? id = some i.model.types[id].label := by rw [Model.label?, ht]; rfl
  cases ha : i.model.types[id].isAnonymous with
  | true =>
    obtain ⟨body, hb⟩ := h.bodied ht ha
    exact .object hl ((TypeEntry.label_isAnonymous _).trans ha) hb
  | false =>
    have hnamed := h.coherent.shelved.named hl ((TypeEntry.label_isAnonymous _).trans ha)
    rcases h.coherent.known hnamed with ⟨r, hr, hroot, -⟩ | ⟨key, q, definition, hdefined, hresolved⟩
    · obtain ⟨first, id', hfirst, hrootfirst, hgroup, hname, hb⟩ := hreg r hr
      have hid' : id' = id := by
        have hnamed' := hrootfirst.named
        rw [hgroup, hname, hroot.named] at hnamed'
        exact (Option.some.inj hnamed').symm
      rw [hid'] at hrootfirst hb
      rw [← hgroup, ← hname] at hfirst
      exact .root hfirst hrootfirst hb
    · exact .definition hdefined (h.settled hresolved hdefined.defined)

/-- An import none of whose calls fails and whose queue is read to its end is complete. -/
theorem import_complete {calls : List Call} (hs : Separate c (rootsOf calls))
    (htidy : Tidy c (rootsOf calls)) (hcalls : Calls c {} calls i) (hdrain : i.drain c = (.ok (), k)) :
    ∃ bodies, Empties c i bodies k ∧ Complete c calls bodies k := by
  obtain ⟨⟨seeds, hasked⟩, -, hreferences⟩ := hcalls.asked hs.unshared (asked_empty c)
  obtain ⟨bodies, hempties, -⟩ := empties_of_run hdrain
  obtain ⟨hpending, hfull, hrooted, hextends, hsubset⟩ :=
    hasked.full.empties hs.unshared hasked.rooted hempties
  have hbodies : [] ++ bodies ++ [] ++ k.pending = bodies := by simp [hpending]
  have hreg := hasked.registered.mono hextends hsubset
  refine ⟨bodies, hempties, hpending, fun id hid => ?_, fun path hpath => ?_, hreg, ?_,
    hfull.object_once hs htidy hrooted, ?_, fun p hp => ?_⟩
  · rw [← hbodies] at hreg ⊢
    exact hfull.accounted hreg hid
  · obtain ⟨e, he⟩ := hreferences path hpath
    exact ⟨e, he.mono hextends⟩
  · intro id id' l l' hl hl' ha ha' hgroup hname
    have hnamed := hfull.coherent.shelved.named hl ha
    have hnamed' := hfull.coherent.shelved.named hl' ha'
    rw [hgroup, hname, hnamed'] at hnamed
    exact (Option.some.inj hnamed).symm
  · have hnodup := hfull.nodup
    rwa [hbodies] at hnodup
  · rw [← hbodies]
    have hp' : p ∈ [] ++ bodies := hp
    have hsource := (hfull.owned p (List.mem_append_left _ (List.mem_append_left _ hp'))).1
    exact (hfull.filled p hp').described (htidy _ hsource)

theorem importField_kept {b : BodyContext} {name : String} {declared : Schema} {e : TypeExpr}
    (hkeep : b.keeps name = true) (hc : isCanonical c b name = false)
    (hproperty : importProperty c i b.id name (b.patch name).typeName (b.effective name declared) =
      (.ok e, j)) : importField c b i name declared =
        (.ok (some (patchedField b name declared (b.patch name) e)), j) := by
  rw [isCanonical] at hc
  rw [BodyContext.effective] at hproperty
  rw [importField_eq, if_pos hkeep, keptField, hc, if_neg (by simp), hproperty]
  rfl

section Properties

variable {parent : TypeId} {property : String} {typeName : Option String} {s : Schema} {e : TypeExpr}

theorem importProperty_plain {shape : Shape} (hshape : s.HasShape shape) (he : shape.plain? = some e) :
    importProperty c i parent property typeName s = (.ok e, i) := by
  obtain ⟨hmap, harray, hcore⟩ := Shape.core_of_plain? he
  rw [importProperty, importWith, layered_leaf hshape hmap harray, hcore]
  rfl

theorem importWith_path {follow : Importer → String → Except Error TypeExpr × Importer}
    {path : String} (hshape : s.HasShape (.reference path)) (hpath : follow i path = (.ok e, j)) :
    importWith c follow i parent property typeName s = (.ok e, j) := by
  rw [importWith, layered_leaf hshape (by simp) (by simp)]
  simp only [Shape.core, hpath]
  rfl

theorem importProperty_reference {path : String} (hshape : s.HasShape (.reference path))
    (hpath : i.importRef c path = (.ok e, j)) :
    importProperty c i parent property typeName s = (.ok e, j) :=
  importWith_path hshape hpath

theorem importProperty_object (hs : s.IsObject)
    (hnew : c.inference.bind (Signature.infer · property s) = none) :
    importProperty c i parent property typeName s =
      (.ok (.type i.model.types.size), i.registerObject parent property typeName s) := by
  rw [importProperty, importWith, Schema.layered_object hs]
  simp only [Option.getD_none, importObject_new hnew]
  rfl

theorem importProperty_inferred (hs : s.IsObject) {q : QualifiedName}
    (hinfer : c.inference.bind (Signature.infer · property s) = some q) :
    importProperty c i parent property typeName s = (.ok (.ref q), i) := by
  rw [importProperty, importWith, Schema.layered_object hs]
  simp only [Option.getD_none, importObject, hinfer]
  rfl

/-- A schema of lists is imported by way of their elements. -/
theorem importWith_items {follow : Importer → String → Except Error TypeExpr × Importer} {item : Schema}
    (hs : s.HasShape (.array (some item)))
    (hitem : importWith c follow i parent property typeName item = (.ok e, j)) :
    importWith c follow i parent property typeName s = (.ok (.list e), j) := by
  rw [importWith] at hitem ⊢
  cases hl : item.layered (i.model.fullNameOf parent ++ "." ++ property) none with
  | error err =>
    rw [hl] at hitem
    cases (Prod.mk.inj hitem).1
  | ok l =>
    obtain ⟨layers, core⟩ := l
    have hlayered : s.layered (i.model.fullNameOf parent ++ "." ++ property) none =
        .ok ⟨.list :: layers, core⟩ := by
      rw [Schema.layered_eq, hs]
      simp only [hl, Except.map]
    rw [hl] at hitem
    rw [hlayered]
    cases core with
    | expr e' =>
      obtain ⟨he, rfl⟩ := Prod.mk.inj hitem
      rw [← Except.ok.inj he]
      rfl
    | object body =>
      obtain ⟨he, hj⟩ := Prod.mk.inj hitem
      rw [← Except.ok.inj he, ← hj]
      rfl
    | reference path =>
      simp only at hitem ⊢
      obtain ⟨he, hj⟩ := Prod.mk.inj hitem
      cases hr : (follow i path).1 with
      | error err =>
        rw [hr] at he
        cases he
      | ok e' =>
        rw [hr] at he
        rw [← Except.ok.inj he, ← hj]
        rfl

theorem importProperty_items {item : Schema} (hs : s.HasShape (.array (some item)))
    (hitem : importProperty c i parent property typeName item = (.ok e, j)) :
    importProperty c i parent property typeName s = (.ok (.list e), j) :=
  importWith_items hs hitem

end Properties

theorem importBody_nil (hp : p.schema.properties = []) :
    importBody c i p = (.ok (), { i with model := i.model.setProperties p.id [] }) := by
  rw [importBody, hp, importFields]

theorem importBody_one {b : BodyContext} {name : String} {declared : Schema} {e : TypeExpr}
    (hb : bodyContext c i.model p = b) (hp : p.schema.properties = [(name, declared)])
    (hkeep : b.keeps name = true) (hc : isCanonical c b name = false)
    (hproperty : importProperty c i b.id name (b.patch name).typeName (b.effective name declared) =
      (.ok e, j)) : importBody c i p = (.ok (), { j with
        model := j.model.setProperties p.id [patchedField b name declared (b.patch name) e] }) := by
  rw [importBody, hb, hp, importFields, importField_kept hkeep hc hproperty]
  rfl

theorem forType_nil (keys : List String) : Annotations.forType [] keys = none :=
  List.findSome?_eq_none_iff.mpr fun _ _ => rfl

theorem bodyContext_bare (hannotations : c.annotations = []) : bodyContext c m p =
    { id := p.id, resource := isResource m p.id, overrides := [], required := p.schema.required } := by
  rw [bodyContext, hannotations, forType_nil]
  rfl

theorem importField_bare {b : BodyContext} {name : String} {declared : Schema} {e : TypeExpr}
    (hoverrides : b.overrides = []) (hc : c.canonicalMetadata = false)
    (hname : impliedProperties.contains name = false)
    (hproperty : importProperty c i b.id name none declared = (.ok e, j)) :
    importField c b i name declared = (.ok (some {
      name, type := e, required := b.required.contains name
      description := declared.description }), j) := by
  have hpatch : b.patch name = {} := by
    rw [BodyContext.patch, hoverrides]
    rfl
  have hkeep : b.keeps name = true := by
    rw [BodyContext.keeps, hname, hoverrides, Bool.and_false]
    rfl
  have hcanonical : isCanonical c b name = false := by
    rw [isCanonical, hc]
    rfl
  have heffective : importProperty c i b.id name (b.patch name).typeName
      (b.effective name declared) = (.ok e, j) := by
    rw [BodyContext.effective, hpatch]
    exact hproperty
  rw [importField_kept hkeep hcanonical heffective]
  simp only [patchedField, hpatch, Option.getD_none, Option.or_self]

theorem importFields_bare {b : BodyContext} {fields : List (String × Schema)}
    {type : String × Schema → TypeExpr} (hoverrides : b.overrides = [])
    (hc : c.canonicalMetadata = false) (hnames : ∀ f ∈ fields, impliedProperties.contains f.1 = false)
    (hproperties : ∀ f ∈ fields, importProperty c i b.id f.1 none f.2 = (.ok (type f), i)) :
    importFields c b i fields = (.ok (fields.map fun f => {
      name := f.1, type := type f, required := b.required.contains f.1
      description := f.2.description }), i) := by
  induction fields with
  | nil => rfl
  | cons f fields ih =>
    obtain ⟨hname, hnames⟩ := List.forall_mem_cons.mp hnames
    obtain ⟨hproperty, hproperties⟩ := List.forall_mem_cons.mp hproperties
    rw [importFields, importField_bare hoverrides hc hname hproperty]
    simp only [ih hnames hproperties]
    rfl

/-- Reading a body with one property, where nothing but its schema counts. -/
theorem importBody_single {name : String} {declared : Schema} {e : TypeExpr}
    (hannotations : c.annotations = []) (hc : c.canonicalMetadata = false)
    (hname : impliedProperties.contains name = false) (hp : p.schema.properties = [(name, declared)])
    (hproperty : importProperty c i p.id name none declared = (.ok e, j)) :
    importBody c i p = (.ok (), { j with
      model := j.model.setProperties p.id [{
        name, type := e, required := p.schema.required.contains name
        description := declared.description }] }) := by
  have hfield := importField_bare (b := bodyContext c i.model p)
    (by rw [bodyContext_bare hannotations]) hc hname hproperty
  rw [importBody, hp, importFields, hfield]
  rfl

theorem importBody_bare {type : String × Schema → TypeExpr} (hannotations : c.annotations = [])
    (hc : c.canonicalMetadata = false)
    (hnames : ∀ f ∈ p.schema.properties, impliedProperties.contains f.1 = false)
    (hproperties : ∀ f ∈ p.schema.properties, importProperty c i p.id f.1 none f.2 = (.ok (type f), i)) :
    importBody c i p = (.ok (), { i with
      model := i.model.setProperties p.id (p.schema.properties.map fun f => {
        name := f.1, type := type f, required := p.schema.required.contains f.1
        description := f.2.description }) }) := by
  have hfields := importFields_bare (b := bodyContext c i.model p)
    (by rw [bodyContext_bare hannotations]) hc hnames hproperties
  rw [importBody, hfields]
  rfl

/-- A resource that says what its metadata is. -/
def widgetResource : Root where
  group := ⟨"apps", none⟩
  name := "Widget"
  kind := .apiResource ⟨"apps/v1", "Widget", true, none⟩
  schema := {
    properties := [("metadata", { type := some "string" }), ("size", { type := some "integer" })]
    required := ["size"] }

def widgetSettings : ImportSettings where
  canonicalMetadata := true

def widgetImport : Importer :=
  (Importer.registerRoot {} widgetResource.group widgetResource.name widgetResource.kind
    widgetResource.schema).2

def widgetProperties : List Property :=
  [{ name := "metadata", type := .ref objectMeta, required := false },
    { name := "size", type := .primitive .integer, required := true }]

/-- The import of the widget with its queue read. -/
def widgetRead : Importer :=
  { widgetImport with
    pending := [], model := widgetImport.model.setProperties 0 widgetProperties }

theorem integer_shape : Schema.HasShape { type := some "integer" } .integer :=
  fun _ => by simp [Schema.shape, Schema.typedShape]

theorem empties_widget :
    Empties widgetSettings widgetImport [⟨0, widgetResource.schema⟩] widgetRead := by
  have hsize : importField widgetSettings (bodyContext widgetSettings widgetImport.model
      ⟨0, widgetResource.schema⟩) { widgetImport with pending := [] } "size"
        { type := some "integer" } =
      (.ok (some { name := "size", type := .primitive .integer, required := true }),
        { widgetImport with pending := [] }) :=
    importField_kept rfl rfl (importProperty_plain integer_shape rfl)
  have hbody : importBody widgetSettings { widgetImport with pending := [] }
      ⟨0, widgetResource.schema⟩ = (.ok (), widgetRead) := by
    have hmetadata : importField widgetSettings (bodyContext widgetSettings widgetImport.model
        ⟨0, widgetResource.schema⟩) { widgetImport with pending := [] } "metadata"
          { type := some "string" } =
        (.ok (some { name := "metadata", type := .ref objectMeta, required := false }),
          { widgetImport with pending := [] }) := rfl
    have hproperties : widgetResource.schema.properties =
        [("metadata", { type := some "string" }), ("size", { type := some "integer" })] := rfl
    rw [importBody, hproperties, importFields, hmetadata]
    simp only [importFields, hsize]
    rfl
  exact .read (i := widgetImport) rfl hbody (.done rfl)

theorem drain_widget : widgetImport.drain widgetSettings = (.ok (), widgetRead) :=
  empties_widget.run (by decide)

/-- What a type must have comes first. -/
theorem properties_widget : (widgetRead.model.types[0]?).map TypeEntry.properties = some [
    { name := "size", type := .primitive .integer, required := true },
    { name := "metadata", type := .ref objectMeta, required := false }] := by
  have horder : Property.order { name := "metadata", type := .ref objectMeta, required := false }
      { name := "size", type := .primitive .integer, required := true } = .gt := rfl
  have hread : (widgetRead.model.types[0]?).map TypeEntry.properties =
      some (Property.sort widgetProperties) := rfl
  rw [hread, widgetProperties, Property.sort]
  simp [List.mergeSort, List.MergeSort.Internal.splitInTwo, horder]

theorem import_complete_widget :
    Separate widgetSettings (rootsOf [.root widgetResource]) ∧
      Tidy widgetSettings (rootsOf [.root widgetResource]) ∧
      Calls widgetSettings {} [.root widgetResource] widgetImport ∧
      widgetImport.drain widgetSettings = (.ok (), widgetRead) ∧
      Empties widgetSettings widgetImport [⟨0, widgetResource.schema⟩] widgetRead ∧
      Complete widgetSettings [.root widgetResource] [⟨0, widgetResource.schema⟩] widgetRead ∧
      widgetRead.model.types.size = 1 ∧ widgetRead.model.named? ⟨"apps", none⟩ "Widget" = some 0 ∧
      (widgetRead.model.types[0]?).map TypeEntry.properties = some [
        { name := "size", type := .primitive .integer, required := true },
        { name := "metadata", type := .ref objectMeta, required := false }] := by
  have hs : Separate widgetSettings (rootsOf [.root widgetResource]) := by
    refine ⟨by simp [widgetSettings], by simp [widgetSettings], ?_⟩
    simp [rootsOf, widgetResource]
  have htidy : Tidy widgetSettings (rootsOf [.root widgetResource]) := by
    intro s hsource
    cases hsource with
    | definition hd => cases hd
    | replacement hr => cases hr
    | @root r hr hinside =>
      obtain rfl := List.mem_singleton.mp hr
      rcases hinside.cases_flat rfl (by simp [widgetResource, Schema.isLeaf]) with rfl | hleaf
      · decide
      · exact Schema.isLeaf_names hleaf
  have hcalls : Calls widgetSettings {} [.root widgetResource] widgetImport :=
    .root rfl (.nil _)
  obtain ⟨bodies, hread, hcomplete⟩ := import_complete hs htidy hcalls drain_widget
  obtain ⟨rfl, -⟩ := hread.unique empties_widget
  exact ⟨hs, htidy, hcalls, drain_widget, empties_widget, hcomplete, by decide, by decide,
    properties_widget⟩

theorem toReference_shape (path : String) : (Schema.toReference path).HasShape (.reference path) :=
  fun _ => by simp [Schema.toReference, Schema.shape]

theorem text_shape : Schema.HasShape { type := some "string" } (.string .plain) :=
  fun _ => by simp [Schema.shape, Schema.typedShape, Schema.stringFormat, Schema.plainFormats, Except.map]

theorem text_denotes {parent : TypeId} {property : String} {typeName : Option String} {e : TypeExpr}
    (h : Denotes c m bodies parent property typeName { type := some "string" } e) :
    e = .primitive .string :=
  (h.of_plain text_shape rfl).symm

def sizedSchema : Schema := { properties := [("size", { type := some "integer" })] }

/-- One definition of a deployment says nothing, and another is read as the same name. -/
def definedTwice : ImportSettings where
  definitions := [("io.k8s.api.apps.v1.Deployment", { type := some "object" }),
    ("#/definitions/io.k8s.api.apps.v1.Deployment", sizedSchema)]

def definedOnce : ImportSettings where
  definitions := [("io.k8s.api.apps.v1.Deployment", sizedSchema)]

/-- A deployment that says nothing. -/
def deploymentRoot : Root where
  group := ⟨"apps", some "v1"⟩
  name := "Deployment"
  kind := .resource
  schema := { type := some "object" }

def firstImport : Importer :=
  (Importer.importRef {} definedTwice "io.k8s.api.apps.v1.Deployment").2

def secondImport : Importer :=
  (firstImport.importRef definedTwice "#/definitions/#/definitions/io.k8s.api.apps.v1.Deployment").2

def rootImport : Importer :=
  (Importer.registerRoot {} deploymentRoot.group deploymentRoot.name deploymentRoot.kind
    deploymentRoot.schema).2

def definedImport : Importer :=
  (rootImport.importRef definedOnce "io.k8s.api.apps.v1.Deployment").2

/-- The metadata of a resource is not what its schema denotes. Of a definition that shares its name with
another, or with a root, there may be nothing but a type without its properties. -/
theorem not_complete_metadata_or_shared :
    (∃ k t p, Calls widgetSettings {} [.root widgetResource] widgetImport ∧
      widgetImport.drain widgetSettings = (.ok (), k) ∧ k.model.types[0]? = some t ∧
        p ∈ t.properties ∧ p.name = "metadata" ∧
          ("metadata", { type := some "string" }) ∈ widgetResource.schema.properties ∧
            ∀ bodies typeName, ¬Denotes widgetSettings k.model bodies 0 "metadata" typeName
              { type := some "string" } p.type) ∧
    (∃ k, Calls definedTwice {} [.reference "io.k8s.api.apps.v1.Deployment",
        .reference "#/definitions/#/definitions/io.k8s.api.apps.v1.Deployment"] secondImport ∧
      secondImport.drain definedTwice = (.ok (), k) ∧
        k.model.types.toList.all fun t => t.properties.isEmpty) ∧
    ∃ k, Calls definedOnce {} [.root deploymentRoot, .reference "io.k8s.api.apps.v1.Deployment"]
        definedImport ∧
      definedImport.drain definedOnce = (.ok (), k) ∧
        k.model.types.toList.all fun t => t.properties.isEmpty := by
  refine ⟨?_, ?_, ?_⟩
  · refine ⟨_, _, { name := "metadata", type := .ref objectMeta, required := false },
      .root rfl (.nil _), drain_widget, rfl, ?_, rfl, List.mem_cons_self, fun bodies typeName h => ?_⟩
    · exact List.mem_mergeSort.mpr List.mem_cons_self
    · cases text_denotes h
  · have hrun : (Importer.importRef {} definedTwice "io.k8s.api.apps.v1.Deployment").1 = .ok (.type 0) ∧
        (firstImport.importRef definedTwice
          "#/definitions/#/definitions/io.k8s.api.apps.v1.Deployment").1 = .ok (.type 0) ∧
        (secondImport.drain definedTwice).1 = .ok () ∧
        (secondImport.drain definedTwice).2.model.types.toList.all fun t => t.properties.isEmpty := by
      decide +kernel
    obtain ⟨hfirst, hsecond, hdrain, hnone⟩ := hrun
    exact ⟨_, .of_found hfirst (.of_found hsecond (.nil _)), drain_of_ok hdrain, hnone⟩
  · have hrun : (rootImport.importRef definedOnce "io.k8s.api.apps.v1.Deployment").1 = .ok (.type 0) ∧
        (definedImport.drain definedOnce).1 = .ok () ∧
        (definedImport.drain definedOnce).2.model.types.toList.all fun t => t.properties.isEmpty := by
      decide +kernel
    obtain ⟨hfound, hdrain, hnone⟩ := hrun
    have hroot : Importer.registerRoot {} deploymentRoot.group deploymentRoot.name deploymentRoot.kind
        deploymentRoot.schema = (0, rootImport) := rfl
    exact ⟨_, .root hroot (.of_found hfound (.nil _)), drain_of_ok hdrain, hnone⟩

end Importer

end SchemaCompiler
