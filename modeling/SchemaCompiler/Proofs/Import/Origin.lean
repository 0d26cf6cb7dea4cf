import SchemaCompiler.Proofs.Import.Filling

/-! Where a type is declared. A mention of a type goes back to the definition of a synonym or to a field
of a body, and from there it is known whether it is the object declared there. -/

namespace SchemaCompiler

namespace Importer

variable {c : ImportSettings} {roots : List Root} {read : List Pending} {i : Importer} {a id : TypeId}
  {property : String} {e : TypeExpr} {m : Model} {bodies : List Pending} {seeds : List TypeExpr}

/-- The expression `e` stands under `property` of the type `a` because of a definition or a field. -/
inductive Origin (c : ImportSettings) (m : Model) (bodies : List Pending) (a : TypeId) :
    String → TypeExpr → Prop where
  | synonym {key : String} {q : QualifiedName} {definition : Schema} {e : TypeExpr}
      (h : Defined c m key q definition a) (hr : definition.isRecord = false)
      (hu : definition.isUnconstrained = false)
      (he : Denotes c m bodies a "item" none definition e) : Origin c m bodies a "item" e
  | field {p : Pending} {t : TypeEntry} {f : String × Schema} {e : TypeExpr} (hp : p ∈ bodies)
      (hid : p.id = a) (ht : m.types[a]? = some t) (hf : f ∈ p.schema.properties)
      (hkeep : (contextOf c t p).keeps f.1 = true) (hc : isCanonical c (contextOf c t p) f.1 = false)
      (he : Denotes c m bodies a f.1 ((contextOf c t p).patch f.1).typeName
        ((contextOf c t p).effective f.1 f.2) e) : Origin c m bodies a f.1 e

theorem forall₂_mem_right {α β : Type} {R : α → β → Prop} {as : List α} {bs : List β}
    (h : List.Forall₂ R as bs) {b : β} (hb : b ∈ bs) : ∃ a ∈ as, R a b := by
  induction h with
  | nil => cases hb
  | @cons a' b' as' bs' hab _ ih =>
    rcases List.mem_cons.mp hb with rfl | hb
    · exact ⟨a', List.mem_cons_self, hab⟩
    · obtain ⟨a, ha, hR⟩ := ih hb
      exact ⟨a, List.mem_cons_of_mem _ ha, hR⟩

theorem forall₂_mem_left {α β : Type} {R : α → β → Prop} {as : List α} {bs : List β}
    (h : List.Forall₂ R as bs) {a : α} (ha : a ∈ as) : ∃ b ∈ bs, R a b := by
  obtain ⟨b, hb, hR⟩ := forall₂_mem_right h.flip ha
  exact ⟨b, hb, hR⟩

theorem Coherent.resolved_of_defined (h : Coherent c roots i) (hs : Unshared c roots) {key : String}
    {q : QualifiedName} {definition : Schema} (hd : Defined c i.model key q definition id) :
    Table.get? key i.resolved = some (.type id) := by
  rcases h.known hd.named with ⟨r, hr, -, hroot⟩ | ⟨key', q', definition', hd', hresolved⟩
  · exact absurd hroot (hs.apart _ (Table.mem_of_get? hd.defined) q hd.name r hr)
  · rwa [hd.key_eq hs h.ready.wellFormed hd']

theorem RootAt.not_synonym {r : Root} (h : RootAt m r id)
    (hr : r.kind = .resource ∨ ∃ info, r.kind = .apiResource info) (target : TypeExpr) :
    m.kind? id ≠ some (.synonym target) := by
  intro hk
  obtain ⟨t, ht, hlabel⟩ := Model.label?_eq_some_iff.mp h.label
  rw [Model.kind?, ht] at hk
  have hsynonym := TypeEntry.label_synonym_iff.mpr ⟨target, Option.some.inj hk⟩
  rw [hlabel] at hsynonym
  rcases hr with hr | ⟨info, hr⟩ <;> simp [TypeEntry.label, Model.namedEntry, hr] at hsynonym

theorem Coherent.synonym (h : Coherent c roots i) (hs : Separate c roots) {target : TypeExpr}
    (hk : i.model.kind? a = some (.synonym target)) : ∃ key q definition,
      Defined c i.model key q definition a ∧ definition.isRecord = false := by
  obtain ⟨t, ht, htk⟩ := Option.map_eq_some_iff.mp hk
  have hlabel : i.model.label? a = some t.label := by rw [Model.label?, ht]; rfl
  have hnamed := h.shelved.named hlabel (by rw [TypeEntry.label_isAnonymous]; simp [TypeEntry.isAnonymous, htk])
  rcases h.known hnamed with ⟨r, hr, hroot, -⟩ | ⟨key, q, definition, hd, -⟩
  · exact absurd hk (hroot.not_synonym (hs.records r hr) target)
  · refine ⟨key, q, definition, hd, Bool.eq_false_iff.mpr fun hrecord => ?_⟩
    obtain ⟨kind, hkind, hrest⟩ := hd.kind
    rw [if_pos hrecord] at hrest
    obtain rfl := Option.some.inj (hk.symm.trans hkind)
    exact (definitionKind_named q definition).2 target hrest.symm

theorem Full.read_of_property (h : Full c roots read [] i) {t : TypeEntry} {p : Property}
    (ht : i.model.types[a]? = some t) (hp : p ∈ t.properties) : ∃ b ∈ read, b.id = a := by
  by_contra hn
  have hnone := h.unread ht fun hmem => hn (List.mem_map.mp hmem)
  rw [hnone] at hp
  cases hp

theorem Full.origin (h : Full c roots read [] i) (hs : Separate c roots)
    (he : i.model.Holds a property e) (hid : .type id ∈ e.leaves) :
    Origin c i.model (read ++ [] ++ i.pending) a property e := by
  cases he with
  | synonym hk =>
    obtain ⟨key, q, definition, hd, hrecord⟩ := h.coherent.synonym hs hk
    have hresolved := h.coherent.resolved_of_defined hs.unshared hd
    cases h.settled hresolved hd.defined with
    | record hr => cases hrecord.symm.trans hr
    | unconstrained hr hu hk' =>
      obtain rfl := TypeKind.synonym.inj (Option.some.inj (hk.symm.trans hk'))
      simp [TypeExpr.leaves] at hid
    | synonym hr hu hk' ht =>
      obtain rfl := TypeKind.synonym.inj (Option.some.inj (hk.symm.trans hk'))
      exact .synonym hd hr hu ht
  | @property t p ht hp =>
    obtain ⟨b, hb, rfl⟩ := h.read_of_property ht hp
    obtain ⟨t', ps, ht', hps, hfields⟩ := h.filled b hb
    obtain rfl := Option.some.inj (ht.symm.trans ht')
    rw [hps] at hp
    obtain ⟨f, hf, hfield⟩ := forall₂_mem_right hfields (List.mem_mergeSort.mp hp)
    obtain ⟨hf, hkeep⟩ := List.mem_filter.mp hf
    have htype := hfield.type
    rw [hfield.name]
    split at htype
    · rw [htype] at hid
      simp [TypeExpr.leaves] at hid
    · next hc =>
      exact .field (List.mem_append_left _ (List.mem_append_left _ hb)) rfl ht hf hkeep
        (Bool.eq_false_iff.mpr hc) htype

theorem Origin.denotes (h : Origin c m bodies a property e) :
    ∃ typeName s, Denotes c m bodies a property typeName s e := by
  cases h with
  | synonym _ _ _ he => exact ⟨_, _, he⟩
  | field _ _ _ _ _ _ he => exact ⟨_, _, he⟩

/-- No schema that an import can meet lists a property twice. -/
def Tidy (c : ImportSettings) (roots : List Root) : Prop :=
  ∀ s, Sourced c roots s → (s.properties.map Prod.fst).Nodup

theorem names_of_fields {b : BodyContext} {fields : List (String × Schema)} {ps : List Property}
    (h : List.Forall₂ (FieldOf c m bodies b) fields ps) :
    ps.map Property.name = fields.map Prod.fst := by
  induction h with
  | nil => rfl
  | cons hf _ ih => rw [List.map_cons, List.map_cons, hf.name, ih]

theorem mem_kept_iff {b : BodyContext} {fields : List (String × Schema)} {name : String} :
    name ∈ (fields.filter fun f => b.keeps f.1).map Prod.fst ↔
      name ∈ fields.map Prod.fst ∧ b.keeps name = true := by
  have hkept : (fields.filter fun f => b.keeps f.1).map Prod.fst =
      (fields.map Prod.fst).filter b.keeps := by
    rw [List.filter_map]
    rfl
  rw [hkept, List.mem_filter]

theorem Filled.names_nodup {p : Pending} (h : Filled c m bodies p)
    (htidy : (p.schema.properties.map Prod.fst).Nodup) :
    ∃ t, m.types[p.id]? = some t ∧ (t.properties.map Property.name).Nodup := by
  obtain ⟨t, ps, ht, hps, hfields⟩ := h
  have hnames : ps.map Property.name =
      (p.schema.properties.filter fun f => (contextOf c t p).keeps f.1).map Prod.fst :=
    names_of_fields hfields
  have hkept : (ps.map Property.name).Nodup := by
    rw [hnames]
    exact htidy.sublist (List.filter_sublist.map Prod.fst)
  refine ⟨t, ht, ?_⟩
  rw [hps]
  exact ((List.mergeSort_perm ps _).map Property.name).nodup_iff.mpr hkept

theorem Owned.not_synonym {p : Pending} (h : Owned c roots m p)
    (hs : Separate c roots) (target : TypeExpr) : m.kind? p.id ≠ some (.synonym target) := by
  intro hk
  cases h with
  | definition h hr =>
    obtain ⟨kind, hkind, hrest⟩ := h.kind
    rw [if_pos hr] at hrest
    obtain rfl := Option.some.inj (hk.symm.trans hkind)
    exact (definitionKind_named _ _).2 target hrest.symm
  | root hr h _ => exact h.not_synonym (hs.records _ hr) target hk
  | object hl ha =>
    obtain ⟨t, ht, rfl⟩ := Model.label?_eq_some_iff.mp hl
    rw [Model.kind?, ht] at hk
    rw [TypeEntry.label_isAnonymous, TypeEntry.isAnonymous_iff] at ha
    obtain ⟨parent, property, ha⟩ := ha
    cases ha.symm.trans (Option.some.inj hk)

/-- At most one expression stands under a property of a type. -/
theorem Full.holds_unique (h : Full c roots read [] i) (hs : Separate c roots) (htidy : Tidy c roots)
    {e' : TypeExpr} (he : i.model.Holds a property e) (he' : i.model.Holds a property e') : e = e' := by
  have hbody : ∀ {t : TypeEntry} {p : Property} {target : TypeExpr}, i.model.types[a]? = some t →
      p ∈ t.properties → i.model.kind? a ≠ some (.synonym target) := by
    intro t p target ht hp
    obtain ⟨b, hb, rfl⟩ := h.read_of_property ht hp
    exact (h.owned b (List.mem_append_left _ (List.mem_append_left _ hb))).2.not_synonym hs target
  cases he with
  | synonym hk =>
    generalize hname : "item" = name at he'
    cases he' with
    | synonym hk' => exact TypeKind.synonym.inj (Option.some.inj (hk.symm.trans hk'))
    | property ht hp => exact absurd hk (hbody ht hp)
  | @property t p ht hp =>
    generalize hname : p.name = name at he'
    cases he' with
    | synonym hk => exact absurd hk (hbody ht hp)
    | @property t' p' ht' hp' =>
      obtain rfl := Option.some.inj (ht.symm.trans ht')
      obtain ⟨b, hb, rfl⟩ := h.read_of_property ht hp
      have hsource := (h.owned b (List.mem_append_left _ (List.mem_append_left _ hb))).1
      obtain ⟨t', ht', hnodup⟩ := (h.filled b hb).names_nodup (htidy _ hsource)
      obtain rfl := Option.some.inj (ht.symm.trans ht')
      rw [List.inj_on_of_nodup_map hnodup hp hp' hname]

theorem Rooted.declared (h : Rooted seeds i)
    (hk : i.model.kind? id = some (.anonymous a property)) :
    a < id ∧ ∃ e, i.model.Holds a property e ∧ .type id ∈ e.leaves := by
  obtain ⟨t, ht, -⟩ := Option.map_eq_some_iff.mp hk
  rcases h id (Array.getElem?_eq_some_iff.mp ht).1 with ⟨e, -, hmentioned⟩ | ⟨hlt, he, hmentioned⟩
  · exact (hmentioned.declared hk).elim
  · obtain ⟨rfl, rfl⟩ := hmentioned.declared hk
    exact ⟨hlt, _, he, hmentioned.mem⟩

/-- No two objects are declared under one property of a type. -/
theorem Full.object_once (h : Full c roots read [] i) (hs : Separate c roots) (htidy : Tidy c roots)
    (hr : Rooted seeds i) {id' : TypeId} (hk : i.model.kind? id = some (.anonymous a property))
    (hk' : i.model.kind? id' = some (.anonymous a property)) : id = id' := by
  obtain ⟨-, e, he, hid⟩ := hr.declared hk
  obtain ⟨-, e', he', hid'⟩ := hr.declared hk'
  obtain rfl := h.holds_unique hs htidy he he'
  obtain ⟨typeName, s, hdenotes⟩ := (h.origin hs he hid).denotes
  exact hdenotes.mem_leaves_unique hid hid'

end Importer

end SchemaCompiler
