import SchemaCompiler.Proofs.Import.Coherence

/-! What an import adds. Every type that is new is mentioned where it was declared, every body that is
new in the queue belongs to a new record or object, and every definition that was met on the way has
come to its target. -/

namespace SchemaCompiler

open QualifiedName (parse?)

namespace Model

variable {m m' : Model} {a id : TypeId} {property : String} {e : TypeExpr}

/-- `e` is the target of the synonym `a`, or the type of one of its properties. -/
inductive Holds (m : Model) (a : TypeId) : String → TypeExpr → Prop where
  | synonym {e : TypeExpr} (h : m.kind? a = some (.synonym e)) : Holds m a "item" e
  | property {t : TypeEntry} {p : Property} (ht : m.types[a]? = some t) (hp : p ∈ t.properties) :
      Holds m a p.name p.type

/-- `e` mentions the type `id`, which was declared where `P` says if it is an object. -/
structure Mentioned (m : Model) (P : TypeId → String → Prop) (e : TypeExpr) (id : TypeId) : Prop where
  mem : .type id ∈ e.leaves
  declared : ∀ {parent property}, m.kind? id = some (.anonymous parent property) → P parent property

/-- An earlier type mentions `id`. -/
inductive Held (m : Model) (id : TypeId) : Prop where
  | mk {a : TypeId} {property : String} {e : TypeExpr} (hlt : a < id) (he : m.Holds a property e)
      (hid : m.Mentioned (fun x y => x = a ∧ y = property) e id)

theorem Mentioned.mono {P Q : TypeId → String → Prop} (h : m.Mentioned P e id)
    (hPQ : ∀ x y, P x y → Q x y) (hk : m'.kind? id = m.kind? id) : m'.Mentioned Q e id :=
  ⟨h.mem, fun hd => hPQ _ _ (h.declared (hk ▸ hd))⟩

theorem Holds.congr (h : m.Holds a property e) (hm : m'.types[a]? = m.types[a]?) :
    m'.Holds a property e := by
  cases h with
  | synonym h => exact .synonym (by rw [kind?, hm]; exact h)
  | property ht hp => exact .property (hm.trans ht) hp

theorem Held.congr (h : m.Held id) (hm : ∀ a, a ≤ id → m'.types[a]? = m.types[a]?) : m'.Held id := by
  obtain ⟨hlt, he, hid⟩ := h
  exact ⟨hlt, he.congr (hm _ (Nat.le_of_lt hlt)),
    hid.mono (fun _ _ h => h) (by rw [kind?, hm id (Nat.le_refl _), kind?])⟩

theorem kind?_setKind_self (kind : TypeKind) (ha : a < m.types.size) :
    (m.setKind a kind).kind? a = some kind := by
  rw [Model.kind?, getElem?_setKind, if_pos rfl, Array.getElem?_eq_getElem ha]
  rfl

/-- A synonym without a target mentions nothing, so that its target can be set. -/
theorem Held.setKind (h : m.Held id) (ha : m.kind? a = some (.synonym (.primitive .any)))
    (e : TypeExpr) : (m.setKind a (.synonym e)).Held id := by
  obtain ⟨hlt, he, hmem, hdeclared⟩ := h
  rename_i a' prop e'
  have hholds : (m.setKind a (.synonym e)).Holds a' prop e' := by
    by_cases hne : a' = a
    · subst hne
      cases he with
      | synonym hk =>
        obtain rfl := TypeKind.synonym.inj (Option.some.inj (hk.symm.trans ha))
        simp [TypeExpr.leaves] at hmem
      | @property t p ht hp =>
        have ht' : (m.setKind a' (.synonym e)).types[a']? = some { t with kind := .synonym e } := by
          rw [getElem?_setKind, if_pos rfl, ht]
          rfl
        exact .property ht' hp
    · exact he.congr (by rw [getElem?_setKind, if_neg hne])
  refine ⟨hlt, hholds, hmem, fun {x y} hk => ?_⟩
  by_cases hne : id = a
  · subst hne
    obtain ⟨t, ht, -⟩ := Option.map_eq_some_iff.mp ha
    rw [kind?_setKind_self _ (Array.getElem?_eq_some_iff.mp ht).1] at hk
    cases hk
  · exact hdeclared ((kind?_setKind_of_ne _ hne).symm.trans hk)

/-- A type without properties mentions nothing under them, so that they can be set. -/
theorem Held.setProperties (h : m.Held id) {t : TypeEntry} (ht : m.types[a]? = some t)
    (hnone : t.properties = []) (ps : List Property) : (m.setProperties a ps).Held id := by
  obtain ⟨hlt, he, hmem, hdeclared⟩ := h
  rename_i a' prop e'
  have hholds : (m.setProperties a ps).Holds a' prop e' := by
    cases he with
    | synonym hk => exact .synonym ((kind?_setProperties m a ps a').trans hk)
    | @property t' p ht' hp =>
      have hne : a' ≠ a := by
        rintro rfl
        obtain rfl := Option.some.inj (ht.symm.trans ht')
        rw [hnone] at hp
        cases hp
      exact .property (by rw [getElem?_setProperties, if_neg hne, ht']) hp
  exact ⟨hlt, hholds, hmem, fun hk => hdeclared ((kind?_setProperties m a ps id).symm.trans hk)⟩

end Model

theorem leaves_wrap (layers : List Layer) (e : TypeExpr) : (wrap layers e).leaves = e.leaves := by
  induction layers with
  | nil => rfl
  | cons layer layers ih => cases layer <;> exact ih

namespace Importer

open Model (Mentioned Held)

/-- `s` stands in a definition, in the schema that an annotation gives to a property, or in a root. -/
inductive Sourced (c : ImportSettings) (roots : List Root) (s : Schema) : Prop where
  | definition {d : String × Schema} (hd : d ∈ c.definitions) (hs : s.Inside d.2)
  | replacement {r : Replacement} (hr : r ∈ replacements c.annotations) (hs : s.Inside r.schema)
  | root {r : Root} (hr : r ∈ roots) (hs : s.Inside r.schema)

/-- What a body belongs to: a definition of a record, a root, or an object. -/
inductive Owned (c : ImportSettings) (roots : List Root) (m : Model) (p : Pending) : Prop where
  | definition {key : String} {q : QualifiedName} (h : Defined c m key q p.schema p.id)
      (hr : p.schema.isRecord = true)
  | root {r : Root} (hr : r ∈ roots) (h : RootAt m r p.id) (hs : p.schema = r.schema)
  | object {l : TypeEntry} (hl : m.label? p.id = some l) (ha : l.isAnonymous = true)

/-- What has come of a definition: the body of a record is known, and so is the target of a synonym. -/
inductive Settles (c : ImportSettings) (m : Model) (bodies : List Pending) (definition : Schema)
    (id : TypeId) : Prop where
  | record (hr : definition.isRecord = true) (hb : ⟨id, definition⟩ ∈ bodies)
  | unconstrained (hr : definition.isRecord = false) (hu : definition.isUnconstrained = true)
      (hk : m.kind? id = some (.synonym (.primitive .any)))
  | synonym (hr : definition.isRecord = false) (hu : definition.isUnconstrained = false)
      {target : TypeExpr} (hk : m.kind? id = some (.synonym target))
      (ht : Denotes c m bodies id "item" none definition target)

variable {c : ImportSettings} {roots : List Root} {done : List Pending} {i j k : Importer}
  {key : String} {q : QualifiedName} {definition : Schema} {id : TypeId} {m m' : Model}
  {bodies bodies' : List Pending}

theorem Sourced.of_inside {s t : Schema} (h : Sourced c roots s) (ht : t.Inside s) :
    Sourced c roots t := by
  cases h with
  | definition hd hs => exact .definition hd (ht.trans hs)
  | replacement hr hs => exact .replacement hr (ht.trans hs)
  | root hr hs => exact .root hr (ht.trans hs)

theorem Owned.mono {p : Pending} (h : Owned c roots m p) (hm : m.Extends m') : Owned c roots m' p := by
  cases h with
  | definition h hr => exact .definition (h.mono hm) hr
  | root hr h hs => exact .root hr (h.mono hm) hs
  | object hl ha => exact .object (hm.label hl) ha

theorem Settles.mono (h : Settles c m bodies definition id) (hm : m.Extends m')
    (hb : bodies ⊆ bodies') (hk : m'.kind? id = m.kind? id) : Settles c m' bodies' definition id := by
  cases h with
  | record hr h => exact .record hr (hb h)
  | unconstrained hr hu h => exact .unconstrained hr hu (hk.trans h)
  | synonym hr hu h ht => exact .synonym hr hu (hk.trans h) (ht.mono hm hb)

/-- `j` has what `i` has, and what it has beyond that was put there by importing. -/
structure Adds (c : ImportSettings) (roots : List Root) (i j : Importer) : Prop where
  coherent : Coherent c roots j
  size_le : i.model.types.size ≤ j.model.types.size
  same : ∀ {id : TypeId}, id < i.model.types.size → j.model.types[id]? = i.model.types[id]?
  named : ∀ {key name id}, i.model.named? key name = some id → j.model.named? key name = some id
  pending : ∃ more, j.pending = i.pending ++ more ∧
    ∀ p ∈ more, i.model.types.size ≤ p.id ∧ Sourced c roots p.schema ∧ Owned c roots j.model p
  resolved : ∀ {key e}, Table.get? key i.resolved = some e → Table.get? key j.resolved = some e
  fresh : ∀ {id t}, i.model.types.size ≤ id → j.model.types[id]? = some t → t.properties = [] ∧
    (t.isAnonymous = true → ∃ body, ⟨id, body⟩ ∈ j.pending)

theorem extends_of_same (hsame : ∀ {id : TypeId}, id < m.types.size → m'.types[id]? = m.types[id]?)
    (hnamed : ∀ {key name id}, m.named? key name = some id → m'.named? key name = some id) :
    m.Extends m' := by
  refine ⟨fun {id l} hid => ?_, hnamed⟩
  rw [Model.label?, hsame (Model.label?_lt hid)]
  exact hid

theorem Adds.extends (h : Adds c roots i j) : i.model.Extends j.model :=
  extends_of_same h.same h.named

theorem Adds.subset (h : Adds c roots i j) (done : List Pending) :
    done ++ i.pending ⊆ done ++ j.pending := by
  obtain ⟨more, hmore, -⟩ := h.pending
  rw [hmore, ← List.append_assoc]
  exact List.subset_append_left _ _

theorem Adds.refl (h : Coherent c roots i) : Adds c roots i i where
  coherent := h
  size_le := Nat.le_refl _
  same := fun _ => rfl
  named := fun h => h
  pending := ⟨[], by simp, by simp⟩
  resolved := fun h => h
  fresh := fun hle ht => absurd (Array.getElem?_eq_some_iff.mp ht).1 (Nat.not_lt.mpr hle)

theorem Adds.trans (h : Adds c roots i j) (h' : Adds c roots j k) : Adds c roots i k where
  coherent := h'.coherent
  size_le := Nat.le_trans h.size_le h'.size_le
  same := fun hid => (h'.same (Nat.lt_of_lt_of_le hid h.size_le)).trans (h.same hid)
  named := fun hid => h'.named (h.named hid)
  pending := by
    obtain ⟨more, hmore, hnew⟩ := h.pending
    obtain ⟨more', hmore', hnew'⟩ := h'.pending
    refine ⟨more ++ more', by rw [hmore', hmore, List.append_assoc], fun p hp => ?_⟩
    rcases List.mem_append.mp hp with hp | hp
    · obtain ⟨hle, hsource, howned⟩ := hnew p hp
      exact ⟨hle, hsource, howned.mono h'.extends⟩
    · obtain ⟨hle, hp⟩ := hnew' p hp
      exact ⟨Nat.le_trans h.size_le hle, hp⟩
  resolved := fun he => h'.resolved (h.resolved he)
  fresh := by
    intro id t hle ht
    rcases Nat.lt_or_ge id j.model.types.size with hlt | hge
    · rw [h'.same hlt] at ht
      obtain ⟨hp, hbody⟩ := h.fresh hle ht
      obtain ⟨more, hmore, -⟩ := h'.pending
      refine ⟨hp, fun ha => ?_⟩
      obtain ⟨body, hb⟩ := hbody ha
      exact ⟨body, hmore ▸ List.mem_append_left _ hb⟩
    · exact h'.fresh hge ht

/-- Each definition that was met between `i` and `j` is settled. -/
structure Grows (c : ImportSettings) (roots : List Root) (done : List Pending) (i j : Importer) : Prop
    extends Adds c roots i j where
  settled : ∀ {key id definition}, Table.get? key j.resolved = some (.type id) →
    Table.get? key c.definitions = some definition → Table.get? key i.resolved = some (.type id) ∨
      Settles c j.model (done ++ j.pending) definition id

theorem Grows.refl (h : Coherent c roots i) : Grows c roots done i i :=
  ⟨.refl h, fun h _ => .inl h⟩

theorem Coherent.resolved_lt (h : Coherent c roots i)
    (hid : Table.get? key i.resolved = some (.type id)) : id < i.model.types.size := by
  cases h.remembered hid with
  | defined hdefined => exact Model.label?_lt hdefined.label

theorem Grows.trans (h : Grows c roots done i j) (h' : Grows c roots done j k) :
    Grows c roots done i k := by
  refine ⟨h.toAdds.trans h'.toAdds, fun {key id definition} hid hd => ?_⟩
  rcases h'.settled hid hd with hj | hsettles
  · rcases h.settled hj hd with hi | hsettles
    · exact .inl hi
    · refine .inr (hsettles.mono h'.extends (h'.subset done) ?_)
      rw [Model.kind?, h'.same (h.coherent.resolved_lt hj), Model.kind?]
  · exact .inr hsettles

/-- Every type that is new is mentioned by another or by `e`. -/
def Covers (P : TypeId → String → Prop) (i : Importer) (e : TypeExpr) (j : Importer) : Prop :=
  ∀ id, i.model.types.size ≤ id → id < j.model.types.size → Held j.model id ∨ Mentioned j.model P e id

theorem covers_refl (P : TypeId → String → Prop) (i : Importer) (e : TypeExpr) : Covers P i e i :=
  fun _ hle hlt => absurd hlt (Nat.not_lt.mpr hle)

theorem Covers.mono {P Q : TypeId → String → Prop} {e e' : TypeExpr} (h : Covers P i e j)
    (hPQ : ∀ x y, P x y → Q x y) (he : e'.leaves = e.leaves) : Covers Q i e' j := by
  intro id hle hlt
  refine (h id hle hlt).imp_right fun hid => ?_
  exact ⟨he ▸ hid.mem, fun hd => hPQ _ _ (hid.declared hd)⟩

/-- A reference to `key` was found to be `e`. -/
structure Found (c : ImportSettings) (roots : List Root) (done : List Pending) (i : Importer)
    (key : String) (e : TypeExpr) (j : Importer) : Prop where
  grows : Grows c roots done i j
  meaning : Meaning c j.model key e
  covers : Covers (fun _ _ => False) i e j

/-- A schema was found to be of the type `e`. -/
structure Typed (c : ImportSettings) (roots : List Root) (done : List Pending) (i : Importer)
    (parent : TypeId) (property : String) (typeName : Option String) (schema : Schema)
    (e : TypeExpr) (j : Importer) : Prop where
  grows : Grows c roots done i j
  denotes : Denotes c j.model (done ++ j.pending) parent property typeName schema e
  covers : Covers (fun x y => x = parent ∧ y = property) i e j

variable {follow : Importer → String → Except Error TypeExpr × Importer} {parent : TypeId}
  {property : String} {typeName : Option String} {schema body : Schema} {e : TypeExpr}

theorem Coherent.adds_remember (h : Coherent c roots i) (hnew : Table.get? key i.resolved = none)
    (he : Meaning c i.model key e) : Adds c roots i (i.remember key e) where
  coherent := h.remember hnew he
  size_le := Nat.le_refl _
  same := fun _ => rfl
  named := fun hid => hid
  pending := ⟨[], by simp [Importer.remember], by simp⟩
  resolved := get?_remember_of_some hnew
  fresh := fun hle ht => absurd (Array.getElem?_eq_some_iff.mp ht).1 (Nat.not_lt.mpr hle)

theorem Coherent.found_remember (h : Coherent c roots i) (hnew : Table.get? key i.resolved = none)
    (he : Meaning c i.model key e) (htype : ∀ id, e ≠ .type id) :
    Found c roots done i key e (i.remember key e) := by
  refine ⟨⟨h.adds_remember hnew he, fun {k id definition} hid hd => ?_⟩, he, covers_refl _ _ _⟩
  rw [get?_remember] at hid
  split at hid
  · exact absurd (Option.some.inj hid) (htype id)
  · exact .inl hid

theorem size_registerObject (hp : parent < i.model.types.size) (property : String)
    (typeName : Option String) (body : Schema) :
    (i.registerObject parent property typeName body).model.types.size = i.model.types.size + 1 := by
  change (Model.registerAnonymous _ _ _ _ _).2.types.size = _
  rw [Model.types_registerAnonymous_new (Array.getElem?_eq_getElem hp), Array.size_push]

theorem label?_registerObject {above : TypeEntry} (habove : i.model.types[parent]? = some above) :
    Model.label? (i.registerObject parent property typeName body).model i.model.types.size =
      some (Model.objectEntry above parent property typeName body.description) := by
  change (Model.registerAnonymous _ _ _ _ _).2.label? _ = _
  rw [Model.label?_push (Model.types_registerAnonymous_new habove property typeName body.description),
    if_pos rfl]
  rfl

theorem Coherent.grows_registerObject (h : Coherent c roots i) (done : List Pending)
    (hp : parent < i.model.types.size) (property : String) (typeName : Option String)
    (hsource : Sourced c roots body) :
    Grows c roots done i (i.registerObject parent property typeName body) ∧
      Model.label? (i.registerObject parent property typeName body).model i.model.types.size =
        some (Model.objectEntry i.model.types[parent] parent property typeName body.description) := by
  have habove := Array.getElem?_eq_getElem hp
  have htypes := Model.types_registerAnonymous_new habove property typeName body.description
  have hlabel : Model.label? (i.registerObject parent property typeName body).model
      i.model.types.size =
        some (Model.objectEntry i.model.types[parent] parent property typeName body.description) :=
    label?_registerObject habove
  have hcoherent := h.registerObject habove property typeName body
  refine ⟨⟨⟨hcoherent, ?_, fun hid => Model.getElem?_registerAnonymous _ _ _ _ _ hid, fun hid => ?_,
    ⟨[⟨_, body⟩], rfl, fun p hp => ?_⟩, fun he => he, fun {id t} hle ht => ?_⟩,
    fun hid _ => .inl hid⟩, hlabel⟩
  · rw [size_registerObject hp]
    exact Nat.le_succ _
  · change (Model.registerAnonymous _ _ _ _ _).2.named? _ _ = _
    rwa [Model.named?_registerAnonymous]
  · obtain rfl := List.mem_singleton.mp hp
    exact ⟨Nat.le_refl _, hsource, .object hlabel rfl⟩
  · change (Model.registerAnonymous _ _ _ _ _).2.types[id]? = _ at ht
    rw [htypes, Array.getElem?_push] at ht
    split at ht
    · next heq =>
      obtain rfl := Option.some.inj ht
      exact ⟨rfl, fun _ => ⟨body, List.mem_append_right _ (heq ▸ List.mem_cons_self)⟩⟩
    · exact absurd (Array.getElem?_eq_some_iff.mp ht).1 (Nat.not_lt.mpr hle)

/-- An object of its own, at some depth of lists and maps, is all that is new. -/
theorem Coherent.typed_registerObject (h : Coherent c roots i) {layers : List Layer}
    (hp : parent < i.model.types.size) (hsource : Sourced c roots schema)
    (hlayered : schema.layered (i.model.fullNameOf parent ++ "." ++ property) none =
      .ok ⟨layers, .object body⟩)
    (hinfer : c.inference.bind (Signature.infer · property body) = none) :
    Typed c roots done i parent property typeName schema (wrap layers (.type i.model.types.size))
      (i.registerObject parent property typeName body) := by
  have hbody := (Schema.layered_object_inside hlayered).1
  obtain ⟨hgrows, hlabel⟩ := h.grows_registerObject done hp property typeName
    (hsource.of_inside hbody)
  have habove : i.model.label? parent = some i.model.types[parent].label := by
    rw [Model.label?, Array.getElem?_eq_getElem hp]
    rfl
  refine ⟨hgrows, denotes_of_layered hlayered (.inr ⟨hinfer, _, rfl, ⟨_, hgrows.extends.label habove,
    ?_⟩, ?_⟩), fun id hle hlt => ?_⟩
  · rw [hlabel, Model.objectEntry_label]
  · exact List.mem_append_right _ (List.mem_append_right _ List.mem_cons_self)
  · rw [size_registerObject hp] at hlt
    obtain rfl : id = i.model.types.size := by omega
    refine .inr ⟨?_, fun {x y} hk => ?_⟩
    · rw [leaves_wrap]
      exact List.mem_cons_self
    · have hkind := Model.kind_of_label? hlabel hk
      cases hkind
      exact ⟨rfl, rfl⟩

theorem Coherent.typed_importWith (h : Coherent c roots i)
    (hfollow : ∀ path e j, follow i path = (.ok e, j) →
      Found c roots done i (QualifiedName.identifier path) e j)
    (hp : parent < i.model.types.size) (hsource : Sourced c roots schema)
    (hok : importWith c follow i parent property typeName schema = (.ok e, j)) :
    Typed c roots done i parent property typeName schema e j := by
  rw [importWith] at hok
  split at hok
  · cases (Prod.mk.inj hok).1
  · next layers core hlayered =>
    cases core with
    | expr e' =>
      obtain ⟨he, rfl⟩ := Prod.mk.inj hok
      obtain rfl := Except.ok.inj he
      exact ⟨.refl h, denotes_of_layered hlayered rfl, covers_refl _ _ _⟩
    | reference path =>
      simp only at hok
      cases hr : follow i path with
      | mk r l =>
        rw [hr] at hok
        obtain ⟨he, rfl⟩ := Prod.mk.inj hok
        cases r with
        | error err => cases he
        | ok e' =>
          obtain rfl := Except.ok.inj he
          have hfound := hfollow path e' l hr
          exact ⟨hfound.grows, denotes_of_layered hlayered hfound.meaning,
            hfound.covers.mono (fun _ _ => False.elim) (leaves_wrap _ _)⟩
    | object body =>
      simp only at hok
      cases hinfer : c.inference.bind (Signature.infer · property body) with
      | some q =>
        rw [importObject, hinfer] at hok
        obtain ⟨he, rfl⟩ := Prod.mk.inj hok
        obtain rfl := Except.ok.inj he
        exact ⟨.refl h, denotes_of_layered hlayered (.inl ⟨q, hinfer, rfl⟩), covers_refl _ _ _⟩
      | none =>
        rw [importObject_new hinfer] at hok
        obtain ⟨he, rfl⟩ := Prod.mk.inj hok
        obtain rfl := Except.ok.inj he
        exact h.typed_registerObject hp hsource hlayered hinfer

/-! Definitions. -/

theorem Coherent.types_define (h : Coherent c roots i) (hs : Unshared c roots)
    (hq : parse? key = some q) (hd : Table.get? key c.definitions = some definition)
    (hnew : Table.get? key i.resolved = none) : (i.define key q definition).model.types =
      i.model.types.push
        (Model.namedEntry (GroupKey.of q) q.name (definedKind q definition) definition.description) :=
  Model.types_registerNamed_new (h.unregistered hs hq hd hnew) _ _

theorem Coherent.adds_registerNamed {group : GroupKey} {name : String} {kind : TypeKind}
    {description : Option String} (hi : Coherent c roots i) (hj : Coherent c roots j)
    (hnew : i.model.find? group (group.qualify name) = none)
    (hkind : ∀ parent property, kind ≠ .anonymous parent property)
    (hmodel : j.model = (i.model.registerNamed group name kind description).2)
    (hpending : j.pending = i.pending)
    (hresolved : ∀ {k e}, Table.get? k i.resolved = some e → Table.get? k j.resolved = some e) :
    Adds c roots i j := by
  have htypes : j.model.types = i.model.types.push (Model.namedEntry group name kind description) := by
    rw [hmodel, Model.types_registerNamed_new hnew]
  refine ⟨hj, ?_, fun {id} hid => ?_, fun hid => ?_, ⟨[], ?_, by simp⟩, hresolved,
    fun {id t} hle ht => ?_⟩
  · rw [htypes, Array.size_push]
    exact Nat.le_succ _
  · rw [htypes, Array.getElem?_push, if_neg (Nat.ne_of_lt hid)]
  · rw [hmodel]
    exact hi.ready.wellFormed.named?_change hid (.registerNamed group name kind description)
  · rw [hpending, List.append_nil]
  · rw [htypes, Array.getElem?_push] at ht
    split at ht
    · obtain rfl := Option.some.inj ht
      refine ⟨rfl, fun ha => ?_⟩
      obtain ⟨parent, property, hk⟩ := TypeEntry.isAnonymous_iff.mp ha
      exact absurd hk (hkind parent property)
    · exact absurd (Array.getElem?_eq_some_iff.mp ht).1 (Nat.not_lt.mpr hle)

theorem Coherent.adds_define (h : Coherent c roots i) (hs : Unshared c roots)
    (hq : parse? key = some q) (hw : wellKnown? q = none)
    (hd : Table.get? key c.definitions = some definition)
    (hnew : Table.get? key i.resolved = none) : Adds c roots i (i.define key q definition) :=
  h.adds_registerNamed (h.define hs hq hw hd hnew).1 (h.unregistered hs hq hd hnew)
    (definitionEntry_named q definition) rfl rfl (get?_remember_of_some hnew)

theorem Adds.enqueue (h : Adds c roots i j) (hle : i.model.types.size ≤ id)
    (hlt : id < j.model.types.size) (hfree : id ∉ j.pending.map Pending.id)
    (hsource : Sourced c roots body) (howned : Owned c roots j.model ⟨id, body⟩) :
    Adds c roots i (j.enqueue id body) := by
  have hj := h.coherent.ready
  have hready : (j.enqueue id body).Ready := by
    refine ⟨hj.wellFormed, fun p hp => ?_, ?_⟩
    · rcases List.mem_append.mp hp with hp | hp
      · exact hj.pending_lt p hp
      · rw [List.mem_singleton.mp hp]
        exact hlt
    · simp only [Importer.enqueue, List.map_append, List.map_cons, List.map_nil]
      exact List.nodup_append.mpr ⟨hj.pending_nodup, List.nodup_singleton _,
        fun a ha b hb hab => hfree (List.mem_singleton.mp hb ▸ hab ▸ ha)⟩
  obtain ⟨more, hmore, hnew⟩ := h.pending
  refine ⟨h.coherent.enqueue hready, h.size_le, h.same, h.named,
    ⟨more ++ [⟨id, body⟩], ?_, fun p hp => ?_⟩, h.resolved, fun {id' t} hid ht => ?_⟩
  · simp only [Importer.enqueue, hmore, List.append_assoc]
  · rcases List.mem_append.mp hp with hp | hp
    · exact hnew p hp
    · obtain rfl := List.mem_singleton.mp hp
      exact ⟨hle, hsource, howned⟩
  · obtain ⟨hp, hbody⟩ := h.fresh hid ht
    refine ⟨hp, fun ha => ?_⟩
    obtain ⟨body, hb⟩ := hbody ha
    exact ⟨body, List.mem_append_left _ hb⟩

theorem Adds.setKind (h : Adds c roots i j) (hle : i.model.types.size ≤ id) {e e' : TypeExpr}
    (hk : j.model.kind? id = some (.synonym e)) :
    Adds c roots i { j with model := j.model.setKind id (.synonym e') } := by
  obtain ⟨t, ht, htk⟩ := Option.map_eq_some_iff.mp hk
  have hlabels := Model.sameLabels_setKind ht htk e'
  have hentry : ∀ x : TypeId, (j.model.setKind id (.synonym e')).types[x]? =
      if x = id then some { t with kind := .synonym e' } else j.model.types[x]? := by
    intro x
    rw [Model.getElem?_setKind]
    split
    · next hx => rw [hx, ht]; rfl
    · rfl
  obtain ⟨more, hmore, hnew⟩ := h.pending
  refine ⟨h.coherent.relabel (h.coherent.ready.wellFormed.setKind id _) hlabels,
    Nat.le_trans h.size_le (Nat.le_of_eq hlabels.size_eq.symm), fun {x} hx => ?_, h.named,
    ⟨more, hmore, fun p hp => ?_⟩, h.resolved, fun {x t'} hx ht' => ?_⟩
  · rw [hentry, if_neg (Nat.ne_of_lt (Nat.lt_of_lt_of_le hx hle)), h.same hx]
  · obtain ⟨hp, hsource, howned⟩ := hnew p hp
    exact ⟨hp, hsource, howned.mono hlabels.extends⟩
  · rw [hentry] at ht'
    split at ht'
    · obtain rfl := Option.some.inj ht'
      refine ⟨(h.fresh hle ht).1, fun ha => ?_⟩
      simp [TypeEntry.isAnonymous] at ha
    · exact h.fresh hx ht'

theorem Defined.mentioned (h : Defined c m key q definition id) (P : TypeId → String → Prop) :
    m.Mentioned P (.type id) id := by
  refine ⟨List.mem_cons_self, fun hk => ?_⟩
  exact absurd (Model.kind_of_label? h.label hk) (definitionEntry_named q definition _ _)

theorem get?_define (hd : Table.get? key c.definitions = some definition) {k : String}
    {definition' : Schema} (hid : Table.get? k (i.define key q definition).resolved = some (.type id))
    (hd' : Table.get? k c.definitions = some definition') :
    Table.get? k i.resolved = some (.type id) ∨ id = i.model.types.size ∧ definition' = definition := by
  rw [define, get?_remember] at hid
  split at hid
  · next hk =>
    subst hk
    exact .inr ⟨(TypeExpr.type.inj (Option.some.inj hid)).symm, Option.some.inj (hd'.symm.trans hd)⟩
  · exact .inl hid

section Definition

variable {target : TypeExpr} {l : Importer} (h : Coherent c roots i) (hs : Unshared c roots)
  (hq : parse? key = some q) (hw : wellKnown? q = none)
  (hd : Table.get? key c.definitions = some definition) (hnew : Table.get? key i.resolved = none)

include h hs hq hd hnew

theorem Coherent.size_define :
    (i.define key q definition).model.types.size = i.model.types.size + 1 := by
  rw [h.types_define hs hq hd hnew, Array.size_push]

theorem Coherent.lt_define :
    i.model.types.size < (i.define key q definition).model.types.size := by
  rw [h.size_define hs hq hd hnew]
  exact Nat.lt_succ_self _

theorem Coherent.kind_define : (i.define key q definition).model.kind? i.model.types.size =
    some (definedKind q definition) := by
  rw [Model.kind?, h.types_define hs hq hd hnew, Array.getElem?_push, if_pos rfl]
  rfl

include hw

theorem Coherent.found_record (hrecord : definition.isRecord = true) :
    Found c roots done i key (.type i.model.types.size)
      ((i.define key q definition).enqueue i.model.types.size definition) := by
  have hdefined := (h.define hs hq hw hd hnew).2
  have hsize := h.size_define hs hq hd hnew
  have hfree : i.model.types.size ∉ (i.define key q definition).pending.map Pending.id := by
    intro hmem
    obtain ⟨p, hp, hid⟩ := List.mem_map.mp hmem
    exact Nat.ne_of_lt (h.ready.pending_lt p hp) hid
  have hadds := (h.adds_define hs hq hw hd hnew).enqueue (Nat.le_refl _)
    (h.lt_define hs hq hd hnew) hfree (.definition (Table.mem_of_get? hd) .refl)
    (.definition hdefined hrecord)
  refine ⟨⟨hadds, fun hid hd' => ?_⟩, .defined hdefined, fun id hle hlt => .inr ?_⟩
  · refine (get?_define hd hid hd').imp_right ?_
    rintro ⟨rfl, rfl⟩
    exact .record hrecord (List.mem_append_right _ (List.mem_append_right _ List.mem_cons_self))
  · change id < (i.define key q definition).model.types.size at hlt
    obtain rfl : id = i.model.types.size := by omega
    exact hdefined.mentioned _

theorem Coherent.found_unconstrained (hrecord : definition.isRecord = false)
    (hopen : definition.isUnconstrained = true) :
    Found c roots done i key (.type i.model.types.size) (i.define key q definition) := by
  have hdefined := (h.define hs hq hw hd hnew).2
  have hsize := h.size_define hs hq hd hnew
  have hkind := h.kind_define hs hq hd hnew
  rw [definedKind, hrecord] at hkind
  refine ⟨⟨h.adds_define hs hq hw hd hnew, fun hid hd' => ?_⟩, .defined hdefined,
    fun id hle hlt => .inr ?_⟩
  · refine (get?_define hd hid hd').imp_right ?_
    rintro ⟨rfl, rfl⟩
    exact .unconstrained hrecord hopen hkind
  · obtain rfl : id = i.model.types.size := by omega
    exact hdefined.mentioned _

theorem Coherent.found_target (hrecord : definition.isRecord = false)
    (hopen : definition.isUnconstrained = false)
    (hl : Typed c roots done (i.define key q definition) i.model.types.size "item" none definition
      target l) : Found c roots done i key (.type i.model.types.size)
        { l with model := l.model.setKind i.model.types.size (.synonym target) } := by
  have hsize := h.size_define hs hq hd hnew
  have hkind : l.model.kind? i.model.types.size = some (.synonym (.primitive .any)) := by
    have hkind := h.kind_define hs hq hd hnew
    rw [definedKind, hrecord] at hkind
    rw [Model.kind?, hl.grows.same (h.lt_define hs hq hd hnew), ← Model.kind?, hkind]
    rfl
  have hself := Model.kind?_setKind_self (.synonym target)
    (Nat.lt_of_lt_of_le (h.lt_define hs hq hd hnew) hl.grows.size_le)
  have hlabels : Model.SameUpTo TypeEntry.label l.model
      (l.model.setKind i.model.types.size (.synonym target)) := by
    obtain ⟨t, ht, hk⟩ := Option.map_eq_some_iff.mp hkind
    exact Model.sameLabels_setKind ht hk target
  have hdefinedl := (h.define hs hq hw hd hnew).2.mono hl.grows.extends
  have hdefined := hdefinedl.mono hlabels.extends
  have hsettles : Settles c (l.model.setKind i.model.types.size (.synonym target))
      (done ++ l.pending) definition i.model.types.size :=
    .synonym hrecord hopen hself (hl.denotes.mono hlabels.extends fun _ hb => hb)
  have hadds := (h.adds_define hs hq hw hd hnew).trans hl.grows.toAdds
  refine ⟨⟨hadds.setKind (Nat.le_refl _) hkind, fun {k id d} hid hd' => ?_⟩, .defined hdefined,
    fun id hle hlt => ?_⟩
  · rcases hl.grows.settled hid hd' with hid | hold
    · refine (get?_define hd hid hd').imp_right ?_
      rintro ⟨rfl, rfl⟩
      exact hsettles
    · -- the definition itself may have been met again on the way to its target
      by_cases hne : id = i.model.types.size
      · subst hne
        cases hl.grows.coherent.remembered hid with
        | defined hdefinedk =>
          obtain rfl := hdefinedk.key_eq hs hl.grows.coherent.ready.wellFormed hdefinedl
          obtain rfl := Option.some.inj (hd'.symm.trans hd)
          exact .inr hsettles
      · exact .inr (hold.mono hlabels.extends (fun _ hb => hb) (Model.kind?_setKind_of_ne _ hne))
  · change id < (l.model.setKind i.model.types.size (.synonym target)).types.size at hlt
    rw [hlabels.size_eq] at hlt
    by_cases hne : id = i.model.types.size
    · subst hne
      exact .inr (hdefined.mentioned _)
    · have hlt' : i.model.types.size < id := by omega
      refine .inl ?_
      rcases hl.covers id (hsize ▸ hlt') hlt with hheld | hmentioned
      · exact hheld.setKind hkind target
      · exact ⟨hlt', .synonym hself,
          hmentioned.mono (fun _ _ h => h) (Model.kind?_setKind_of_ne _ hne)⟩

theorem Coherent.found_importDefinition
    (hfollow : ∀ i, Coherent c roots i → ∀ path e j, follow i path = (.ok e, j) →
      Found c roots done i (QualifiedName.identifier path) e j)
    (hok : importDefinition c follow i key q definition = (.ok e, j)) :
    Found c roots done i key e j := by
  rw [importDefinition_eq (h.unregistered hs hq hd hnew)] at hok
  split at hok
  · next hrecord =>
    obtain ⟨he, rfl⟩ := Prod.mk.inj hok
    obtain rfl := Except.ok.inj he
    exact h.found_record hs hq hw hd hnew hrecord
  · next hrecord =>
    have hrecord : definition.isRecord = false := by simpa using hrecord
    split at hok
    · next hopen =>
      obtain ⟨he, rfl⟩ := Prod.mk.inj hok
      obtain rfl := Except.ok.inj he
      exact h.found_unconstrained hs hq hw hd hnew hrecord hopen
    · next hopen =>
      split at hok
      · next target l himport =>
        obtain ⟨he, rfl⟩ := Prod.mk.inj hok
        obtain rfl := Except.ok.inj he
        have hcoherent := (h.define hs hq hw hd hnew).1
        have htyped := hcoherent.typed_importWith (hfollow _ hcoherent) (h.lt_define hs hq hd hnew)
          (.definition (Table.mem_of_get? hd) .refl) himport
        exact h.found_target hs hq hw hd hnew hrecord (by simpa using hopen) htyped
      · cases (Prod.mk.inj hok).1

end Definition

theorem Coherent.found_followRef (h : Coherent c roots i) (hs : Unshared c roots)
    (done : List Pending) {depth : Nat} {reference : String} (hok : followRef c depth i reference = (.ok e, j)) :
    Found c roots done i (QualifiedName.identifier reference) e j := by
  induction depth generalizing i reference e j with
  | zero => cases (Prod.mk.inj hok).1
  | succ depth ih =>
    rw [followRef, importReference] at hok
    split at hok
    · next e' he =>
      obtain ⟨he', rfl⟩ := Prod.mk.inj hok
      obtain rfl := Except.ok.inj he'
      exact ⟨.refl h, h.remembered he, covers_refl _ _ _⟩
    · next hnew =>
      split at hok
      · cases (Prod.mk.inj hok).1
      · next q hq =>
        split at hok
        · next w hw =>
          obtain ⟨he, rfl⟩ := Prod.mk.inj hok
          obtain rfl := Except.ok.inj he
          exact h.found_remember hnew (.wellKnown hq hw) (by simp)
        · next hw hd =>
          obtain ⟨he, rfl⟩ := Prod.mk.inj hok
          obtain rfl := Except.ok.inj he
          exact h.found_remember hnew (.undefined hq hw hd) (by simp)
        · next definition hw hd =>
          exact h.found_importDefinition hs hq hw hd hnew (fun i hi path e j => ih hi) hok

/-! Fields. -/

/-- Whether a resource has the well-known metadata under this name. -/
def isCanonical (c : ImportSettings) (b : BodyContext) (name : String) : Bool :=
  c.canonicalMetadata && b.resource && name == "metadata"

/-- The schema in effect for a property. -/
def BodyContext.effective (b : BodyContext) (name : String) (declared : Schema) : Schema :=
  (b.patch name).schema.getD declared

/-- `p` is what comes of a declared property. -/
structure FieldOf (c : ImportSettings) (m : Model) (bodies : List Pending) (b : BodyContext)
    (declared : String × Schema) (p : Property) : Prop where
  name : p.name = declared.1
  required : p.required = b.required.contains declared.1
  given : p.given = (b.patch declared.1).fieldName
  description : p.description =
    declared.2.description.or (b.effective declared.1 declared.2).description
  type : if isCanonical c b declared.1 then p.type = .ref objectMeta
    else Denotes c m bodies b.id declared.1 (b.patch declared.1).typeName
      (b.effective declared.1 declared.2) p.type

/-- But for its type, a field comes of the declaration and of what is given for the body. -/
theorem FieldOf.eq_with_type {c' : ImportSettings} {b b' : BodyContext} {declared : String × Schema}
    {p p' : Property} (h : FieldOf c m bodies b declared p) (h' : FieldOf c' m' bodies' b' declared p')
    (hrequired : b.required = b'.required) (hoverrides : b.overrides = b'.overrides) :
    p = { p' with type := p.type } := by
  have hpatch : b.patch declared.1 = b'.patch declared.1 := by
    rw [BodyContext.patch, hoverrides, BodyContext.patch]
  have heffective : b.effective declared.1 declared.2 = b'.effective declared.1 declared.2 := by
    rw [BodyContext.effective, hpatch, BodyContext.effective]
  obtain ⟨name, type, required, description, given⟩ := p
  obtain rfl : name = p'.name := h.name.trans h'.name.symm
  obtain rfl : required = p'.required :=
    h.required.trans (hrequired ▸ h'.required.symm)
  obtain rfl : given = p'.given := h.given.trans (hpatch ▸ h'.given.symm)
  obtain rfl : description = p'.description := h.description.trans (heffective ▸ h'.description.symm)
  rfl

theorem FieldOf.mono {b : BodyContext} {declared : String × Schema} {p : Property}
    (h : FieldOf c m bodies b declared p) (hm : m.Extends m') (hb : bodies ⊆ bodies') :
    FieldOf c m' bodies' b declared p := by
  refine ⟨h.name, h.required, h.given, h.description, ?_⟩
  have ht := h.type
  split at ht
  · next hc => rwa [if_pos hc]
  · next hc =>
    rw [if_neg hc]
    exact ht.mono hm hb

variable {b : BodyContext}

theorem Coherent.importField_ok (h : Coherent c roots i) (hs : Unshared c roots)
    (done : List Pending) (hb : b.id < i.model.types.size) {name : String} {declared : Schema}
    (hsource : Sourced c roots (b.effective name declared)) (hkeep : b.keeps name = true)
    {o : Option Property} (hok : importField c b i name declared = (.ok o, j)) :
    ∃ p, o = some p ∧ Grows c roots done i j ∧
      FieldOf c j.model (done ++ j.pending) b (name, declared) p ∧
      Covers (fun x y => x = b.id ∧ y = p.name) i p.type j := by
  rw [importField_eq, if_pos hkeep, keptField] at hok
  split at hok
  · next hc =>
    obtain ⟨ho, rfl⟩ := Prod.mk.inj hok
    refine ⟨_, (Except.ok.inj ho).symm, .refl h, ⟨rfl, rfl, rfl, rfl, ?_⟩, covers_refl _ _ _⟩
    rw [isCanonical, if_pos hc]
    rfl
  · next hc =>
    simp only at hok
    cases hr : importProperty c i b.id name (b.patch name).typeName (b.effective name declared) with
    | mk r l =>
      rw [BodyContext.effective] at hr
      rw [hr] at hok
      obtain ⟨ho, rfl⟩ := Prod.mk.inj hok
      cases r with
      | error err => cases ho
      | ok e =>
        have htyped := h.typed_importWith
          (fun path e j hfollow => h.found_followRef hs done hfollow) hb hsource hr
        refine ⟨_, (Except.ok.inj ho).symm, htyped.grows, ⟨rfl, rfl, rfl, rfl, ?_⟩, htyped.covers⟩
        rw [isCanonical, if_neg hc]
        exact htyped.denotes

/-- What comes of a list of fields. -/
structure Fielded (c : ImportSettings) (roots : List Root) (done : List Pending) (b : BodyContext)
    (i : Importer) (fields : List (String × Schema)) (ps : List Property) (j : Importer) : Prop where
  grows : Grows c roots done i j
  fields : List.Forall₂ (FieldOf c j.model (done ++ j.pending) b)
    (fields.filter fun f => b.keeps f.1) ps
  covers : ∀ id, i.model.types.size ≤ id → id < j.model.types.size → j.model.Held id ∨
    ∃ p ∈ ps, j.model.Mentioned (fun x y => x = b.id ∧ y = p.name) p.type id

theorem Coherent.fielded_importFields (h : Coherent c roots i) (hs : Unshared c roots)
    (done : List Pending) (hb : b.id < i.model.types.size) {fields : List (String × Schema)}
    (hsource : ∀ f ∈ fields, Sourced c roots (b.effective f.1 f.2)) {ps : List Property}
    (hok : importFields c b i fields = (.ok ps, j)) : Fielded c roots done b i fields ps j := by
  induction fields generalizing i ps j with
  | nil =>
    obtain ⟨hps, rfl⟩ := Prod.mk.inj hok
    obtain rfl := Except.ok.inj hps
    exact ⟨.refl h, .nil, fun id hle hlt => absurd hlt (Nat.not_lt.mpr hle)⟩
  | cons field fields ih =>
    obtain ⟨name, declared⟩ := field
    rw [importFields] at hok
    split at hok
    · cases (Prod.mk.inj hok).1
    · next o k hk =>
      split at hok
      · cases (Prod.mk.inj hok).1
      · next rest l hl =>
        obtain ⟨hps, rfl⟩ := Prod.mk.inj hok
        obtain rfl := Except.ok.inj hps
        by_cases hkeep : b.keeps name = true
        · obtain ⟨p, rfl, hgrows, hfield, hcovers⟩ := h.importField_ok hs done hb
            (hsource _ List.mem_cons_self) hkeep hk
          have hrest := ih hgrows.coherent (Nat.lt_of_lt_of_le hb hgrows.size_le)
            (fun f hf => hsource f (List.mem_cons_of_mem _ hf)) hl
          refine ⟨hgrows.trans hrest.grows, ?_, fun id hle hlt => ?_⟩
          · rw [List.filter_cons, if_pos hkeep]
            exact .cons (hfield.mono hrest.grows.extends (hrest.grows.subset done)) hrest.fields
          · rcases Nat.lt_or_ge id k.model.types.size with hltk | hge
            · have hsame : ∀ a, a ≤ id → l.model.types[a]? = k.model.types[a]? := fun a ha =>
                hrest.grows.same (Nat.lt_of_le_of_lt ha hltk)
              refine (hcovers id hle hltk).imp (fun hheld => hheld.congr hsame) fun hmentioned =>
                ⟨p, List.mem_cons_self, hmentioned.mono (fun _ _ h => h) ?_⟩
              rw [Model.kind?, hsame id (Nat.le_refl _), Model.kind?]
            · refine (hrest.covers id hge hlt).imp_right ?_
              rintro ⟨p', hp', hmentioned⟩
              exact ⟨p', List.mem_cons_of_mem _ hp', hmentioned⟩
        · rw [importField_eq, if_neg hkeep] at hk
          obtain ⟨ho, rfl⟩ := Prod.mk.inj hk
          obtain rfl := Except.ok.inj ho
          have hrest := ih h hb (fun f hf => hsource f (List.mem_cons_of_mem _ hf)) hl
          refine ⟨hrest.grows, ?_, hrest.covers⟩
          rw [List.filter_cons, if_neg hkeep]
          exact hrest.fields

end Importer

end SchemaCompiler
