import SchemaCompiler.Proofs.Import.Origin
import SchemaCompiler.Proofs.Model.Equals

/-! Two imports of the same definitions, one of which has read its queue and has met what the other was
asked for. Each type of the other has its counterpart in that one, which has the same names and the same
body. -/

namespace SchemaCompiler

open QualifiedName (parse?)

/-- What is known about a type from the start, but for the number of the type above. -/
def TypeKind.face : TypeKind → TypeKind
  | .synonym _ => .synonym (.primitive .any)
  | .anonymous _ property => .anonymous 0 property
  | kind => kind

def TypeEntry.face (t : TypeEntry) : TypeEntry := { t with properties := [], kind := t.kind.face }

theorem TypeEntry.label_face (t : TypeEntry) : t.label.face = t.face := by
  cases hk : t.kind <;> simp [label, face, TypeKind.face, hk]

theorem TypeEntry.face_eq_iff {t t' : TypeEntry} : t.face = t'.face ↔
    t.name = t'.name ∧ t.fullName = t'.fullName ∧ t.qualified = t'.qualified ∧ t.group = t'.group ∧
      t.description = t'.description ∧ t.kind.face = t'.kind.face ∧ t.mergedInto = t'.mergedInto := by
  simp [face]

theorem TypeEntry.face_isAnonymous (t : TypeEntry) : t.face.isAnonymous = t.isAnonymous := by
  cases hk : t.kind <;> simp [face, isAnonymous, TypeKind.face, hk]

theorem TypeEntry.face_apiResource? (t : TypeEntry) : t.face.apiResource? = t.apiResource? := by
  cases hk : t.kind <;> simp [face, apiResource?, TypeKind.face, hk]

namespace Model

/-- The types `x` and `y` of two models have the same name, or are declared under the same property of
types of which this holds. -/
inductive Counterpart (m₁ m₂ : Model) : TypeId → TypeId → Prop where
  | named {group : GroupKey} {name : String} {x y : TypeId} (hx : m₁.named? group name = some x)
      (hy : m₂.named? group name = some y) : Counterpart m₁ m₂ x y
  | object {a b x y : TypeId} {property : String} (h : Counterpart m₁ m₂ a b)
      (hx : m₁.kind? x = some (.anonymous a property))
      (hy : m₂.kind? y = some (.anonymous b property)) : Counterpart m₁ m₂ x y

/-- Names and places stand for one type each. -/
structure Distinct (m : Model) : Prop where
  wellFormed : m.WellFormed
  shelved : m.Shelved
  object_once : ∀ {x y a : TypeId} {property : String}, m.kind? x = some (.anonymous a property) →
    m.kind? y = some (.anonymous a property) → x = y

variable {m₁ m₂ m : Model} {x y x' y' a : TypeId}

/-- What is known about the type `x` from the start is what is known about `t`. -/
def Looks (m : Model) (x : TypeId) (t : TypeEntry) : Prop :=
  ∃ l, m.label? x = some l ∧ l.face = t.face

theorem looks_of_face {t t' : TypeEntry} (ht : m₁.types[x]? = some t') (h : t'.face = t.face) :
    m₁.Looks x t :=
  ⟨t'.label, by rw [label?, ht]; rfl, (TypeEntry.label_face t').trans h⟩

theorem Looks.mono {t : TypeEntry} (h : m₁.Looks x t) (hm : m₁.Extends m₂) : m₂.Looks x t := by
  obtain ⟨l, hl, hface⟩ := h
  exact ⟨l, hm.label hl, hface⟩

theorem Looks.face_eq {t t' : TypeEntry} (h : m₁.Looks x t) (ht : m₁.types[x]? = some t') :
    t'.face = t.face := by
  obtain ⟨l, hl, hface⟩ := h
  rw [label?, ht] at hl
  rw [← hface, ← Option.some.inj hl, TypeEntry.label_face]

theorem Looks.exists_entry {t : TypeEntry} (h : m₁.Looks x t) :
    ∃ t', m₁.types[x]? = some t' ∧ t'.face = t.face := by
  have hlooks := h
  obtain ⟨l, hl, -⟩ := h
  obtain ⟨t', ht', -⟩ := label?_eq_some_iff.mp hl
  exact ⟨t', ht', hlooks.face_eq ht'⟩

theorem Counterpart.symm (h : Counterpart m₁ m₂ x y) : Counterpart m₂ m₁ y x := by
  induction h with
  | named hx hy => exact .named hy hx
  | object _ hx hy ih => exact .object ih hy hx

theorem Shelved.filed_of_anonymous (h : m.Shelved) {property : String}
    (hk : m.kind? x = some (.anonymous a property)) : ∃ key, m.Filed key x := by
  obtain ⟨t, ht, hkind⟩ := Option.map_eq_some_iff.mp hk
  have hl : m.label? x = some t.label := by rw [label?, ht]; rfl
  have ha : t.label.isAnonymous = true := by
    rw [TypeEntry.label_isAnonymous, TypeEntry.isAnonymous_iff]
    exact ⟨a, property, hkind⟩
  exact ⟨_, _, h.filed hl ha⟩

theorem Distinct.named_not_anonymous (h : m.Distinct) {group : GroupKey} {name property : String}
    (hx : m.named? group name = some x) : m.kind? x ≠ some (.anonymous a property) := by
  intro hk
  obtain ⟨key, short, hs⟩ := h.shelved.filed_of_anonymous hk
  exact h.wellFormed.apart hx hs

theorem Counterpart.named_left (h : Counterpart m₁ m₂ x y) (hm : m₂.Distinct) {group : GroupKey}
    {name : String} (hy : m₂.named? group name = some y) : m₁.named? group name = some x := by
  cases h with
  | named hx hy' =>
    obtain ⟨t, ht, hgroup, hname, -⟩ := hm.wellFormed.named hy
    obtain ⟨t', ht', hgroup', hname', -⟩ := hm.wellFormed.named hy'
    obtain rfl := Option.some.inj (ht.symm.trans ht')
    rwa [← hgroup, ← hname, hgroup', hname']
  | object _ _ hy' => exact absurd hy' (hm.named_not_anonymous hy)

theorem Counterpart.unique_left (h : Counterpart m₁ m₂ x y) (h₁ : m₁.Distinct) (h₂ : m₂.Distinct)
    (h' : Counterpart m₁ m₂ x' y) : x = x' := by
  induction h generalizing x' with
  | named hx hy => exact Option.some.inj (hx.symm.trans (h'.named_left h₂ hy))
  | @object a b x y property _ hx hy ih =>
    cases h' with
    | named hx' hy' => exact absurd hy (h₂.named_not_anonymous hy')
    | object hab hx' hy' =>
      have hkind := Option.some.inj (hy.symm.trans hy')
      obtain ⟨rfl, rfl⟩ := TypeKind.anonymous.inj hkind
      rw [← ih hab] at hx'
      exact h₁.object_once hx hx'

theorem Counterpart.unique_right (h : Counterpart m₁ m₂ x y) (h₁ : m₁.Distinct) (h₂ : m₂.Distinct)
    (h' : Counterpart m₁ m₂ x y') : y = y' :=
  h.symm.unique_left h₂ h₁ h'.symm

end Model

namespace TypeExpr

theorem agree_of_no_types (R : TypeId → TypeId → Prop) {e : TypeExpr}
    (h : ∀ x : TypeId, .type x ∉ e.leaves) : e.Agree R e :=
  Agree.mono_leaves e e (fun x _ hx => absurd hx (h x)) ((agree_eq_iff e e).mpr rfl)

mutual

theorem Agree.exists_left {R : TypeId → TypeId → Prop} {y : TypeId} : ∀ a b : TypeExpr,
    Agree R a b → .type y ∈ b.leaves → ∃ x, .type x ∈ a.leaves ∧ R x y
  | primitive _, b, h, hy => by cases b <;> simp [Agree, leaves] at h hy
  | wellKnown _, b, h, hy => by cases b <;> simp [Agree, leaves] at h hy
  | type x, b, h, hy => by
    cases b with
    | type j =>
      obtain rfl : y = j := by simpa [leaves] using hy
      exact ⟨x, by simp [leaves], h⟩
    | _ => simp [Agree] at h
  | ref _, b, h, hy => by cases b <;> simp [Agree, leaves] at h hy
  | bareList, b, h, hy => by cases b <;> simp [Agree, leaves] at h hy
  | list a, b, h, hy => by
    cases b with
    | list b => exact Agree.exists_left a b h hy
    | _ => simp [Agree] at h
  | bareMap, b, h, hy => by cases b <;> simp [Agree, leaves] at h hy
  | map a, b, h, hy => by
    cases b with
    | map b => exact Agree.exists_left a b h hy
    | _ => simp [Agree] at h
  | union as, b, h, hy => by
    cases b with
    | union bs => exact AgreeAll.exists_left as bs h hy
    | _ => simp [Agree] at h

theorem AgreeAll.exists_left {R : TypeId → TypeId → Prop} {y : TypeId} : ∀ as bs : List TypeExpr,
    AgreeAll R as bs → .type y ∈ allLeaves bs → ∃ x, .type x ∈ allLeaves as ∧ R x y
  | [], bs, h, hy => by cases bs <;> simp [AgreeAll, allLeaves] at h hy
  | a :: as, bs, h, hy => by
    cases bs with
    | nil => simp [allLeaves] at hy
    | cons b bs =>
      rcases List.mem_append.mp hy with hy | hy
      · obtain ⟨x, hx, hR⟩ := Agree.exists_left a b h.1 hy
        exact ⟨x, List.mem_append_left _ hx, hR⟩
      · obtain ⟨x, hx, hR⟩ := AgreeAll.exists_left as bs h.2 hy
        exact ⟨x, List.mem_append_right _ hx, hR⟩

end

end TypeExpr

namespace Importer

open Model (Counterpart Distinct)

section Denotes

variable {c : ImportSettings} {m₁ m₂ : Model} {bodies₁ bodies₂ : List Pending} {a b : TypeId}
  {property key : String} {typeName : Option String} {s : Schema} {e₁ e₂ : TypeExpr}
  {R : TypeId → TypeId → Prop}

theorem Meaning.agree (h₁ : Meaning c m₁ key e₁) (h₂ : Meaning c m₂ key e₂)
    (hdefined : ∀ {q definition x y}, Defined c m₁ key q definition x →
      Defined c m₂ key q definition y → R x y) : e₁.Agree R e₂ := by
  cases h₁ with
  | wellKnown hq hw =>
    cases h₂ with
    | wellKnown hq' hw' =>
      obtain rfl := Option.some.inj (hq.symm.trans hq')
      exact Option.some.inj (hw.symm.trans hw')
    | defined h =>
      obtain rfl := Option.some.inj (hq.symm.trans h.name)
      cases hw.symm.trans h.ordinary
    | undefined hq' hw' hd =>
      obtain rfl := Option.some.inj (hq.symm.trans hq')
      cases hw.symm.trans hw'
  | defined h =>
    cases h₂ with
    | wellKnown hq hw =>
      obtain rfl := Option.some.inj (hq.symm.trans h.name)
      cases hw.symm.trans h.ordinary
    | defined h' =>
      obtain rfl := Option.some.inj (h.name.symm.trans h'.name)
      obtain rfl := Option.some.inj (h.defined.symm.trans h'.defined)
      exact hdefined h h'
    | undefined hq hw hd => cases hd.symm.trans h.defined
  | undefined hq hw hd =>
    cases h₂ with
    | wellKnown hq' hw' =>
      obtain rfl := Option.some.inj (hq.symm.trans hq')
      cases hw.symm.trans hw'
    | defined h => cases hd.symm.trans h.defined
    | undefined hq' hw' hd' => exact Option.some.inj (hq.symm.trans hq')

/-- Of a schema that is declared in two places comes the same, up to the types it mentions. -/
theorem Denotes.agree (h₁ : Denotes c m₁ bodies₁ a property typeName s e₁)
    (h₂ : Denotes c m₂ bodies₂ b property typeName s e₂)
    (hdefined : ∀ {key q definition x y}, Defined c m₁ key q definition x →
      Defined c m₂ key q definition y → R x y)
    (hobject : ∀ {body x y}, ObjectAt m₁ bodies₁ a property typeName body x →
      ObjectAt m₂ bodies₂ b property typeName body y → R x y) : e₁.Agree R e₂ := by
  induction h₁ generalizing e₂ with
  | plain hs he =>
    obtain rfl := h₂.of_plain hs he
    exact TypeExpr.agree_of_no_types R fun x => Shape.plain?_leaves he x
  | reference hs he => exact he.agree (h₂.shaped hs) hdefined
  | list hs _ ih =>
    obtain ⟨e, rfl, he⟩ := h₂.shaped hs
    exact ih he
  | map hs _ ih =>
    obtain ⟨e, rfl, he⟩ := h₂.shaped hs
    exact ih he
  | inferred hs hq =>
    rcases h₂.shaped hs with ⟨q, hq', rfl⟩ | ⟨hnone, -⟩
    · exact Option.some.inj (hq.symm.trans hq')
    · cases hq.symm.trans hnone
  | object hs hq he =>
    rcases h₂.shaped hs with ⟨q, hq', rfl⟩ | ⟨-, id, rfl, he'⟩
    · cases hq.symm.trans hq'
    · exact hobject he he'

end Denotes

/-! An import that has read its queue. -/

structure Finished (c : ImportSettings) (bodies : List Pending) (k : Importer) : Prop where
  full : Full c [] bodies [] k
  pending : k.pending = []
  rooted : ∃ seeds, Rooted seeds k

section Finished

variable {c : ImportSettings} {bodies : List Pending} {k : Importer} {p : Pending} {key : String}
  {q : QualifiedName} {definition : Schema} {x a : TypeId} {property : String} {e : TypeExpr}

theorem Finished.bodies_eq (h : Finished c bodies k) : bodies ++ [] ++ k.pending = bodies := by
  simp [h.pending]

theorem Finished.filled (h : Finished c bodies k) (hp : p ∈ bodies) : Filled c k.model bodies p := by
  have hfilled := h.full.filled p hp
  rwa [h.bodies_eq] at hfilled

theorem Finished.settled (h : Finished c bodies k) (hs : Separate c [])
    (hd : Defined c k.model key q definition x) : Settles c k.model bodies definition x := by
  have hsettled := h.full.settled (h.full.coherent.resolved_of_defined hs.unshared hd) hd.defined
  rwa [h.bodies_eq] at hsettled

theorem Full.distinct {roots : List Root} {read : List Pending} {i : Importer}
    {seeds : List TypeExpr} (h : Full c roots read [] i) (hs : Separate c roots) (htidy : Tidy c roots)
    (hr : Rooted seeds i) : i.model.Distinct :=
  ⟨h.coherent.ready.wellFormed, h.coherent.shelved, h.object_once hs htidy hr⟩

theorem Full.body_of_defined {read : List Pending} {i : Importer} (h : Full c [] read [] i)
    (hs : Separate c []) (hd : Defined c i.model key q definition x) {body : Schema}
    (hb : ⟨x, body⟩ ∈ read ++ [] ++ i.pending) : body = definition ∧ definition.isRecord = true := by
  cases (h.owned _ hb).2 with
  | definition hd' hr =>
    obtain rfl := hd.key_eq hs.unshared h.coherent.ready.wellFormed hd'
    obtain rfl := Option.some.inj (hd.defined.symm.trans hd'.defined)
    exact ⟨rfl, hr⟩
  | root hr => cases hr
  | object hl ha =>
    obtain rfl := Option.some.inj (hd.label.symm.trans hl)
    obtain ⟨parent, property, hk⟩ := TypeEntry.isAnonymous_iff.mp ha
    exact absurd hk (definitionEntry_named q definition parent property)

end Finished

/-! Twins. -/

/-- The counterpart `x` of `y` has the same names, and the body of `y` if that has one. -/
structure Twin (m₁ m₂ : Model) (bodies₁ bodies₂ : List Pending) (x y : TypeId) : Prop where
  counterpart : Counterpart m₁ m₂ x y
  face : ∃ t₁ t₂, m₁.types[x]? = some t₁ ∧ m₂.types[y]? = some t₂ ∧ t₁.face = t₂.face
  body : ∀ body, ⟨y, body⟩ ∈ bodies₂ → ⟨x, body⟩ ∈ bodies₁

/-- Each of `seeds` is what a key stands for in `m₂`, and that key stands for something in `m₁`. -/
def Shared (c : ImportSettings) (m₁ m₂ : Model) (seeds : List TypeExpr) : Prop :=
  ∀ e ∈ seeds, ∃ key e₁, Meaning c m₁ key e₁ ∧ Meaning c m₂ key e

theorem Shared.mono {c : ImportSettings} {m₁ m₂ m : Model} {seeds : List TypeExpr}
    (h : Shared c m₁ m₂ seeds) (hm : m₂.Extends m) : Shared c m₁ m seeds := by
  intro e he
  obtain ⟨key, e₁, he₁, he₂⟩ := h e he
  exact ⟨key, e₁, he₁, he₂.mono hm⟩

variable {c : ImportSettings} {bodies₁ read : List Pending} {k i : Importer} {key : String}
  {q : QualifiedName} {definition : Schema} {x y a b : TypeId} {property : String} {e : TypeExpr}
  {seeds : List TypeExpr}

theorem Defined.eq_counterpart {m₁ m₂ : Model} (hx : Defined c m₁ key q definition x)
    (hy : Defined c m₂ key q definition y) (hm : m₂.WellFormed) (h : Counterpart m₁ m₂ a y) : a = x := by
  cases h with
  | named ha hb =>
    obtain ⟨hgroup, hname⟩ := hy.group_eq hm hb
    rw [← hgroup, ← hname, hx.named] at ha
    exact (Option.some.inj ha).symm
  | object _ _ hb =>
    have hkind := Model.kind_of_label? hy.label hb
    exact absurd hkind (definitionEntry_named q definition _ _)

/-- The counterpart of a definition's type is the type of that definition. -/
theorem Defined.of_counterpart {m : Model} (hy : Defined c m key q definition y) (hs : Separate c [])
    (hk : Coherent c [] k) (hm : m.WellFormed) (h : Counterpart k.model m x y) :
    Defined c k.model key q definition x := by
  cases h with
  | named hx hy' =>
    obtain ⟨rfl, rfl⟩ := hy.group_eq hm hy'
    rcases hk.known hx with ⟨r, hr, -⟩ | ⟨key', q', definition', hx', -⟩
    · cases hr
    · obtain rfl := GroupKey.of_inj.mp (hx'.group_eq hk.ready.wellFormed hx)
      obtain rfl := hs.unshared.eq_of_parse? hy.name hx'.name hy.defined hx'.defined
      obtain rfl := Option.some.inj (hy.defined.symm.trans hx'.defined)
      exact hx'
  | object _ _ hy' =>
    have hkind := Model.kind_of_label? hy.label hy'
    exact absurd hkind (definitionEntry_named q definition _ _)

theorem face_eq_of_label {m₁ m₂ : Model} {l₁ l₂ : TypeEntry} (h₁ : m₁.label? x = some l₁)
    (h₂ : m₂.label? y = some l₂) (hface : l₁.face = l₂.face) :
    ∃ t₁ t₂, m₁.types[x]? = some t₁ ∧ m₂.types[y]? = some t₂ ∧ t₁.face = t₂.face := by
  obtain ⟨t₁, ht₁, rfl⟩ := Model.label?_eq_some_iff.mp h₁
  obtain ⟨t₂, ht₂, rfl⟩ := Model.label?_eq_some_iff.mp h₂
  rw [TypeEntry.label_face, TypeEntry.label_face] at hface
  exact ⟨t₁, t₂, ht₁, ht₂, hface⟩

theorem objectEntry_face {above above' : TypeEntry} (h : above.face = above'.face)
    (typeName description : Option String) :
    (Model.objectEntry above a property typeName description).face =
      (Model.objectEntry above' b property typeName description).face := by
  obtain ⟨hname, hfull, -, hgroup, -⟩ := TypeEntry.face_eq_iff.mp h
  have hanonymous : above.isAnonymous = above'.isAnonymous := by
    rw [← above.face_isAnonymous, h, above'.face_isAnonymous]
  simp only [Model.objectEntry, TypeEntry.face, TypeKind.face, hname, hfull, hgroup, hanonymous]

theorem contextOf_face {t₁ t₂ : TypeEntry} (h : t₁.face = t₂.face) (x y : TypeId) (body : Schema) :
    contextOf c t₁ ⟨x, body⟩ = { contextOf c t₂ ⟨y, body⟩ with id := x } := by
  obtain ⟨hname, hfull, -, hgroup, -⟩ := TypeEntry.face_eq_iff.mp h
  have hresource : t₁.apiResource? = t₂.apiResource? := by
    rw [← t₁.face_apiResource?, h, t₂.face_apiResource?]
  simp only [contextOf, hname, hfull, hgroup, hresource]

/-- What comes of a field of a body that has been read, where the type of the body looks like `t`. -/
theorem Filled.field {m : Model} {t : TypeEntry} {s : Schema} (h : Filled c m bodies₁ ⟨x, s⟩)
    (ht : m.Looks x t) {f : String × Schema} (hf : f ∈ s.properties)
    (hkeep : (contextOf c t ⟨y, s⟩).keeps f.1 = true)
    (hc : isCanonical c (contextOf c t ⟨y, s⟩) f.1 = false) : ∃ e, Denotes c m bodies₁ x f.1
      ((contextOf c t ⟨y, s⟩).patch f.1).typeName ((contextOf c t ⟨y, s⟩).effective f.1 f.2) e := by
  obtain ⟨t', ps, ht', -, hfields⟩ := h
  rw [contextOf_face (ht.face_eq ht') x y s] at hfields
  obtain ⟨p, -, hp⟩ := forall₂_mem_left hfields (List.mem_filter.mpr ⟨hf, hkeep⟩)
  have htype := hp.type
  have hplain : isCanonical c { contextOf c t ⟨y, s⟩ with id := x } f.1 = false := hc
  rw [if_neg (Bool.eq_false_iff.mp hplain)] at htype
  exact ⟨p.type, htype⟩

theorem Twin.looks {m₁ m₂ : Model} {bodies₂ : List Pending} {t : TypeEntry}
    (h : Twin m₁ m₂ bodies₁ bodies₂ x y) (ht : m₂.types[y]? = some t) : m₁.Looks x t := by
  obtain ⟨t₁, t₂, ht₁, ht₂, hface⟩ := h.face
  obtain rfl := Option.some.inj (ht.symm.trans ht₂)
  exact Model.looks_of_face ht₁ hface

/-- Objects that are declared by the same schema in twins are twins. -/
theorem ObjectAt.twin {m₁ m₂ : Model} {bodies₂ : List Pending} {typeName : Option String} {body : Schema}
    (hnodup : (bodies₂.map Pending.id).Nodup) (hab : Twin m₁ m₂ bodies₁ bodies₂ a b)
    (h₁ : ObjectAt m₁ bodies₁ a property typeName body x)
    (h₂ : ObjectAt m₂ bodies₂ b property typeName body y) : Twin m₁ m₂ bodies₁ bodies₂ x y := by
  obtain ⟨t₁, t₂, ht₁, ht₂, hface⟩ := hab.face
  obtain ⟨above₁, habove₁, hx⟩ := h₁.label
  obtain ⟨above₂, habove₂, hy⟩ := h₂.label
  have hkind : ∀ {m : Model} {id parent : TypeId} {l : TypeEntry}, m.label? id = some l →
      l.kind = .anonymous parent property → m.kind? id = some (.anonymous parent property) := by
    intro m id parent l hl hkind
    obtain ⟨t, ht, rfl⟩ := Model.label?_eq_some_iff.mp hl
    rw [Model.kind?, ht]
    exact congrArg some (TypeEntry.label_anonymous_iff.mp hkind)
  have habove : above₁.face = above₂.face := by
    obtain ⟨t, ht, rfl⟩ := Model.label?_eq_some_iff.mp habove₁
    obtain ⟨t', ht', rfl⟩ := Model.label?_eq_some_iff.mp habove₂
    obtain rfl := Option.some.inj (ht.symm.trans ht₁)
    obtain rfl := Option.some.inj (ht'.symm.trans ht₂)
    rw [TypeEntry.label_face, TypeEntry.label_face, hface]
  refine ⟨.object hab.counterpart (hkind hx rfl) (hkind hy rfl),
    face_eq_of_label hx hy (objectEntry_face habove typeName body.description), fun body' hb => ?_⟩
  have hsame := List.inj_on_of_nodup_map hnodup hb h₂.body rfl
  rw [Pending.mk.injEq] at hsame
  rw [hsame.2]
  exact h₁.body

section Twins

variable (hs : Separate c []) (hk : Finished c bodies₁ k) (hi : Full c [] read [] i)

include hs hk hi

theorem Defined.twin (h₁ : Defined c k.model key q definition x)
    (h₂ : Defined c i.model key q definition y) :
    Twin k.model i.model bodies₁ (read ++ [] ++ i.pending) x y := by
  refine ⟨.named h₁.named h₂.named, face_eq_of_label h₁.label h₂.label rfl, fun body hb => ?_⟩
  obtain ⟨rfl, hrecord⟩ := hi.body_of_defined hs h₂ hb
  cases hk.settled hs h₁ with
  | record _ hb => exact hb
  | unconstrained hr => cases hr.symm.trans hrecord
  | synonym hr => cases hr.symm.trans hrecord

theorem Origin.agree (hab : Twin k.model i.model bodies₁ (read ++ [] ++ i.pending) a b)
    (h : Origin c i.model (read ++ [] ++ i.pending) b property e) :
    ∃ e₁ : TypeExpr, e₁.Agree (Twin k.model i.model bodies₁ (read ++ [] ++ i.pending)) e := by
  have hsame : ∀ {typeName s e₁}, Denotes c k.model bodies₁ a property typeName s e₁ →
      Denotes c i.model (read ++ [] ++ i.pending) b property typeName s e →
        e₁.Agree (Twin k.model i.model bodies₁ (read ++ [] ++ i.pending)) e := by
    intro typeName s e₁ h₁ h₂
    exact h₁.agree h₂ (Defined.twin hs hk hi) (ObjectAt.twin hi.nodup hab)
  cases h with
  | @synonym key q definition e hd hr hu he =>
    have hx := hd.of_counterpart hs hk.full.coherent hi.coherent.ready.wellFormed hab.counterpart
    cases hk.settled hs hx with
    | record hr' => cases hr'.symm.trans hr
    | unconstrained _ hu' => cases hu'.symm.trans hu
    | synonym _ _ _ he₁ => exact ⟨_, hsame he₁ he⟩
  | @field p t f e hp hid ht hf hkeep hc he =>
    obtain ⟨id, body⟩ := p
    obtain rfl : id = b := hid
    obtain ⟨e₁, he₁⟩ := (hk.filled (hab.body _ hp)).field (hab.looks ht) hf hkeep hc
    exact ⟨e₁, hsame he₁ he⟩

/-- Every type has a twin in an import that has met what was asked for. -/
theorem Full.exists_twin (hshared : Shared c k.model i.model seeds) (hr : Rooted seeds i) {y : TypeId}
    (hy : y < i.model.types.size) :
    ∃ x, Twin k.model i.model bodies₁ (read ++ [] ++ i.pending) x y := by
  -- a type that was not asked for comes after one that mentions it, as does the twin of that
  induction y using Nat.strong_induction_on with
  | h y ih =>
    have hmention : ∃ e₁ e : TypeExpr, .type y ∈ e.leaves ∧
        e₁.Agree (Twin k.model i.model bodies₁ (read ++ [] ++ i.pending)) e := by
      rcases hr y hy with ⟨e, he, hmentioned⟩ | ⟨hby, he, hmentioned⟩
      · obtain ⟨key, e₁, he₁, he₂⟩ := hshared e he
        exact ⟨e₁, e, hmentioned.mem, he₁.agree he₂ (Defined.twin hs hk hi)⟩
      · rename_i b property e
        obtain ⟨a, hab⟩ := ih b hby (Nat.lt_trans hby hy)
        obtain ⟨e₁, hagree⟩ := (hi.origin hs he hmentioned.mem).agree hs hk hi hab
        exact ⟨e₁, e, hmentioned.mem, hagree⟩
    obtain ⟨e₁, e, hmem, hagree⟩ := hmention
    obtain ⟨x, -, hx⟩ := TypeExpr.Agree.exists_left e₁ e hagree hmem
    exact ⟨x, hx⟩

end Twins

end Importer

end SchemaCompiler
