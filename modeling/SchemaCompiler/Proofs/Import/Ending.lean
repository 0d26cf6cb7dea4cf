import Mathlib.Data.Fintype.EquivFin
import Mathlib.Logic.Hydra
import Mathlib.Order.WellFounded
import Mathlib.Tactic.Abel
import SchemaCompiler.Proofs.Import.Depth
import SchemaCompiler.Proofs.Import.Parts

/-! When the queue of an import comes to an end. Reading a body either meets a further definition, of
which there are finitely many, or puts the objects nested in that body in its place. -/

namespace SchemaCompiler

/-- A type without its properties. -/
def TypeEntry.unfilled (t : TypeEntry) : TypeEntry := { t with properties := [] }

/-- A type with the body that its properties come from. -/
structure Place where
  type : Option TypeEntry
  body : Schema

def Model.place (m : Model) (p : Pending) : Place :=
  ⟨(m.types[p.id]?).map TypeEntry.unfilled, p.schema⟩

namespace Importer

open Model (objectEntry)

variable {c : ImportSettings} {i j k : Importer} {p : Pending}

/-- What is known about the type `t` when the import of its body begins. -/
def contextOf (c : ImportSettings) (t : TypeEntry) (p : Pending) : BodyContext :=
  { id := p.id
    resource := t.apiResource?.isSome
    overrides := (Annotations.forType c.annotations ([t.group.qualify t.fullName, t.fullName] ++
      (if t.name != t.fullName then [t.name] else []))).getD []
    required := p.schema.required }

theorem bodyContext_eq {m : Model} {t : TypeEntry} (h : m.types[p.id]? = some t) :
    bodyContext c m p = contextOf c t p := by
  simp [bodyContext, contextOf, isResource, overrideKeys, h]

/-- The object that a schema declares under a property of the type `above`, if it becomes a type. -/
structure Declares (c : ImportSettings) (above : TypeEntry) (id : TypeId) (property : String)
    (typeName : Option String) (schema : Schema) (x : Place) : Prop where
  layered : ∃ context layers, schema.layered context none = .ok ⟨layers, .object x.body⟩
  inferred : c.inference.bind (Signature.infer · property x.body) = none
  type : x.type = some (objectEntry above id property typeName x.body.description).unfilled

/-- `inner` is the object under a field that the body of `outer` keeps. -/
inductive Nested (c : ImportSettings) : Place → Place → Prop where
  | field {t : TypeEntry} {inner : Place} {body : Schema} (id : TypeId) {name : String}
      {declared : Schema} (hfield : (name, declared) ∈ body.properties)
      (hkeep : (contextOf c t ⟨id, body⟩).keeps name = true)
      (hobject : Declares c t id name ((contextOf c t ⟨id, body⟩).patch name).typeName
        (((contextOf c t ⟨id, body⟩).patch name).schema.getD declared) inner) :
      Nested c inner ⟨some t, body⟩

/-- `j` comes from `i` by importing. Unless a definition was met, what was there stays, and the bodies
that are new in the queue are for places that `P` holds of. -/
structure Brings (c : ImportSettings) (P : Place → Prop) (i j : Importer) : Prop where
  step : Step i j
  unresolved_le : unresolved c j ≤ unresolved c i
  steady : unresolved c j = unresolved c i →
    (∀ id : TypeId, id < i.model.types.size → j.model.types[id]? = i.model.types[id]?) ∧
      ∃ more, j.pending = i.pending ++ more ∧ ∀ p ∈ more, P (j.model.place p)

variable {P : Place → Prop}

theorem Brings.refl (h : i.Ready) : Brings c P i i :=
  ⟨.refl h, Nat.le_refl _, fun _ => ⟨fun _ _ => rfl, [], by simp, by simp⟩⟩

theorem place_congr {m m' : Model} (h : m.types[p.id]? = m'.types[p.id]?) : m.place p = m'.place p := by
  rw [Model.place, h, Model.place]

theorem Brings.trans (h : Brings c P i j) (h' : Brings c P j k) : Brings c P i k where
  step := h.step.trans h'.step
  unresolved_le := Nat.le_trans h'.unresolved_le h.unresolved_le
  steady := by
    intro heq
    have hle := h.unresolved_le
    have hle' := h'.unresolved_le
    obtain ⟨hsame, more, hmore, hP⟩ := h.steady (by omega)
    obtain ⟨hsame', more', hmore', hP'⟩ := h'.steady (by omega)
    refine ⟨fun id hid => ?_, more ++ more', by rw [hmore', hmore, List.append_assoc], fun p hp => ?_⟩
    · exact (hsame' id (Nat.lt_of_lt_of_le hid h.step.size_le)).trans (hsame id hid)
    · rcases List.mem_append.mp hp with hp | hp
      · have hmem : p ∈ j.pending := by
          rw [hmore]
          exact List.mem_append_right _ hp
        rw [place_congr (hsame' p.id (h.step.ready.pending_lt p hmem))]
        exact hP p hp
      · exact hP' p hp

theorem Brings.mono {Q : Place → Prop} (h : Brings c P i j) (hPQ : ∀ x, P x → Q x) :
    Brings c Q i j where
  step := h.step
  unresolved_le := h.unresolved_le
  steady := by
    intro heq
    obtain ⟨hsame, more, hmore, hP⟩ := h.steady heq
    exact ⟨hsame, more, hmore, fun p hp => hPQ _ (hP p hp)⟩

theorem Brings.of_lt (h : Step i j) (hlt : unresolved c j < unresolved c i) : Brings c P i j :=
  ⟨h, Nat.le_of_lt hlt, fun heq => absurd heq (Nat.ne_of_lt hlt)⟩

theorem brings_remember (h : i.Ready) (key : String) (e : TypeExpr) :
    Brings c P i (i.remember key e) :=
  ⟨h.remember key e, unresolved_remember_le key e, fun _ => ⟨fun _ _ => rfl, [], by simp [remember],
    by simp⟩⟩

theorem brings_importWith (h : i.Ready)
    {follow : Importer → String → Except Error TypeExpr × Importer}
    (hfollow : ∀ path, Brings c (fun _ => False) i (follow i path).2) {parent : TypeId}
    {above : TypeEntry} (hp : i.model.types[parent]? = some above) (property : String)
    (typeName : Option String) (schema : Schema) :
    Brings c (Declares c above parent property typeName schema) i
      (importWith c follow i parent property typeName schema).2 := by
  have hlt : parent < i.model.types.size := (Array.getElem?_eq_some_iff.mp hp).1
  rw [importWith]
  split
  · exact .refl h
  · next layers core hlayered =>
    cases core with
    | expr e => exact .refl h
    | reference path => exact (hfollow path).mono fun _ => False.elim
    | object body =>
      simp only
      cases hinfer : c.inference.bind (Signature.infer · property body) with
      | some q =>
        rw [importObject, hinfer]
        exact .refl h
      | none =>
        rw [importObject_new hinfer]
        have htypes := Model.types_registerAnonymous_new hp property typeName body.description
        refine ⟨h.registerObject hlt property typeName body, Nat.le_refl _, fun _ => ⟨fun id hid => ?_,
          [⟨i.model.types.size, body⟩], rfl, fun p hp => ?_⟩⟩
        · exact Model.getElem?_registerAnonymous _ _ _ _ _ hid
        · rw [List.mem_singleton.mp hp]
          refine ⟨⟨_, layers, hlayered⟩, hinfer, ?_⟩
          change ((Model.registerAnonymous _ _ _ _ _).2.types[_]?).map _ = _
          rw [htypes, Array.getElem?_push, if_pos rfl, Option.map_some]
          rfl

theorem unresolved_importWith_le {follow : Importer → String → Except Error TypeExpr × Importer}
    (hfollow : ∀ path, unresolved c (follow i path).2 ≤ unresolved c i) (parent : TypeId)
    (property : String) (typeName : Option String) (schema : Schema) :
    unresolved c (importWith c follow i parent property typeName schema).2 ≤ unresolved c i := by
  rw [importWith]
  split
  · exact Nat.le_refl _
  · next layers core _ =>
    cases core with
    | expr e => exact Nat.le_refl _
    | reference path => exact hfollow path
    | object body =>
      simp only [importObject]
      split <;> exact Nat.le_refl _

theorem unresolved_importDefinition_lt
    {follow : Importer → String → Except Error TypeExpr × Importer}
    (hfollow : ∀ j path, unresolved c (follow j path).2 ≤ unresolved c j) {key : String}
    {definition : Schema} (hdefined : Table.get? key c.definitions = some definition)
    (hnew : Table.get? key i.resolved = none) (q : QualifiedName) :
    unresolved c (importDefinition c follow i key q definition).2 < unresolved c i := by
  have hmet : ∀ {j : Importer} (e : TypeExpr), j.resolved = i.resolved →
      unresolved c (j.remember key e) < unresolved c i := by
    intro j e hj
    have hunresolved : unresolved c j = unresolved c i := by rw [unresolved, hj, unresolved]
    rw [← hunresolved]
    exact unresolved_remember_lt hdefined (by rw [hj, hnew]) e
  rw [importDefinition]
  split
  · refine hmet _ ?_
    rw [registerRoot]
    split <;> rfl
  · simp only
    have hremember := hmet (j := { i with model := (i.model.registerNamed (GroupKey.of q) q.name
      (.synonym (.primitive .any)) definition.description).2 }) (.type (i.model.registerNamed
      (GroupKey.of q) q.name (.synonym (.primitive .any)) definition.description).1) rfl
    split
    · exact hremember
    · have hle := unresolved_importWith_le (fun path => hfollow _ path) (i.model.registerNamed
        (GroupKey.of q) q.name (.synonym (.primitive .any)) definition.description).1 "item" none
        definition (i := Importer.remember { i with model := (i.model.registerNamed (GroupKey.of q)
          q.name (.synonym (.primitive .any)) definition.description).2 } key (.type
          (i.model.registerNamed (GroupKey.of q) q.name (.synonym (.primitive .any))
            definition.description).1))
      split
      · next target j he =>
        rw [he] at hle
        exact Nat.lt_of_le_of_lt hle hremember
      · next e j he =>
        rw [he] at hle
        exact Nat.lt_of_le_of_lt hle hremember

theorem brings_followRef (h : i.Ready) (depth : Nat) (reference : String) :
    Brings c (fun _ => False) i (followRef c depth i reference).2 := by
  have hle : ∀ depth j reference, unresolved c (followRef c depth j reference).2 ≤ unresolved c j := by
    intro depth
    induction depth with
    | zero => exact fun j reference => Nat.le_refl _
    | succ depth ih =>
      intro j reference
      rw [followRef, importReference]
      split
      · exact Nat.le_refl _
      · next hnew =>
        split
        · exact Nat.le_refl _
        · split
          · exact unresolved_remember_le _ _
          · exact unresolved_remember_le _ _
          · next hdefined => exact Nat.le_of_lt (unresolved_importDefinition_lt ih hdefined hnew _)
  have hstep := h.followRef (c := c) depth reference
  cases depth with
  | zero => exact .refl h
  | succ depth =>
    rw [followRef, importReference] at hstep ⊢
    split
    · exact .refl h
    · next hnew =>
      split
      · exact .refl h
      · next q hq =>
        split
        · exact brings_remember h _ _
        · exact brings_remember h _ _
        · next definition hknown hdefined =>
          simp only [hnew, hq, hknown, hdefined] at hstep
          exact .of_lt hstep (unresolved_importDefinition_lt (hle depth) hdefined hnew _)

/-! Bodies. -/

theorem Brings.trans_of {Q : Place → Prop} (h : Brings c P i j) (h' : Brings c Q j k)
    (hQP : unresolved c j = unresolved c i → ∀ x, Q x → P x) : Brings c P i k := by
  have hle := h.unresolved_le
  by_cases heq : unresolved c j = unresolved c i
  · exact h.trans (h'.mono (hQP heq))
  · refine .of_lt (h.step.trans h'.step) ?_
    have hle' := h'.unresolved_le
    omega

/-- The objects under the fields that are kept. -/
def FieldObject (c : ImportSettings) (b : BodyContext) (above : TypeEntry)
    (fields : List (String × Schema)) (x : Place) : Prop :=
  ∃ name declared, (name, declared) ∈ fields ∧ b.keeps name = true ∧
    Declares c above b.id name (b.patch name).typeName ((b.patch name).schema.getD declared) x

theorem brings_importField (h : i.Ready) {b : BodyContext} {above : TypeEntry}
    (hb : i.model.types[b.id]? = some above) (name : String) (declared : Schema) :
    Brings c (FieldObject c b above [(name, declared)]) i (importField c b i name declared).2 := by
  rw [importField_eq]
  split
  · next hkeep =>
    rw [keptField]
    split
    · exact .refl h
    · have himport := brings_importWith h
        (fun path => brings_followRef h (c.definitions.length + 1) path) hb name
        (b.patch name).typeName ((b.patch name).schema.getD declared) (c := c)
      exact himport.mono fun x hx => ⟨name, declared, List.mem_cons_self, hkeep, hx⟩
  · exact .refl h

theorem brings_importFields (h : i.Ready) {b : BodyContext} {above : TypeEntry}
    (hb : i.model.types[b.id]? = some above) (fields : List (String × Schema)) :
    Brings c (FieldObject c b above fields) i (importFields c b i fields).2 := by
  induction fields generalizing i above with
  | nil => exact .refl h
  | cons field fields ih =>
    obtain ⟨name, declared⟩ := field
    have hfirst := (brings_importField h hb name declared (c := c)).mono
      (Q := FieldObject c b above ((name, declared) :: fields)) <| by
        rintro x ⟨n, d, hmem, hx⟩
        exact ⟨n, d, List.mem_cons.mpr (.inl (List.mem_singleton.mp hmem)), hx⟩
    have hlt : b.id < i.model.types.size := (Array.getElem?_eq_some_iff.mp hb).1
    have hrest : ∀ {j : Importer}, (importField c b i name declared).2 = j →
        Brings c (FieldObject c b above ((name, declared) :: fields)) i
          (importFields c b j fields).2 := by
      rintro j rfl
      have hb' := Array.getElem?_eq_getElem (Nat.lt_of_lt_of_le hlt hfirst.step.size_le)
      refine hfirst.trans_of (ih hfirst.step.ready hb') fun heq x hx => ?_
      obtain ⟨n, d, hmem, hx⟩ := hx
      have hsame := (hfirst.steady heq).1 b.id hlt
      rw [hb, hb'] at hsame
      rw [Option.some.inj hsame] at hx
      exact ⟨n, d, List.mem_cons_of_mem _ hmem, hx⟩
    rw [importFields]
    split
    · next e j he => rwa [he] at hfirst
    · next p j he =>
      have hj := hrest (j := j) (by rw [he])
      split
      · next e k hk => rwa [hk] at hj
      · next ps k hk => rwa [hk] at hj

/-- What reading a body does to what is left of an import: a definition is met, or the objects nested
in the body come into the queue and no other place changes. -/
theorem importBody_brings (h : i.Ready) (hp : p.id < i.model.types.size)
    (hbody : importBody c i p = (.ok (), j)) : j.Ready ∧ (unresolved c j < unresolved c i ∨
      unresolved c j = unresolved c i ∧
      (∀ q : Pending, q.id < i.model.types.size → j.model.place q = i.model.place q) ∧
      ∃ more, j.pending = i.pending ++ more ∧
        ∀ q ∈ more, Nested c (j.model.place q) (i.model.place p)) := by
  obtain ⟨ps, l, hfields, rfl⟩ := importBody_ok hbody
  have habove := Array.getElem?_eq_getElem hp
  have hb := bodyContext_eq (c := c) habove
  have hbrings := brings_importFields (b := bodyContext c i.model p) (c := c) h habove
    p.schema.properties
  rw [hfields] at hbrings
  have hplace : ∀ q : Pending, (l.model.setProperties p.id ps).place q = l.model.place q := by
    intro q
    have hproj : ∀ t : TypeEntry,
        ({ t with properties := Property.sort ps } : TypeEntry).unfilled = t.unfilled := fun _ => rfl
    rw [Model.place, Model.place]
    congr 1
    exact Model.map_getElem?_amend hproj q.id
  refine ⟨hbrings.step.ready.withModel (hbrings.step.ready.wellFormed.setProperties _ _)
    (Nat.le_of_eq Model.size_amend.symm), ?_⟩
  rcases Nat.lt_or_eq_of_le hbrings.unresolved_le with hlt | heq
  · exact .inl hlt
  · obtain ⟨hsame, more, hmore, hP⟩ := hbrings.steady heq
    refine .inr ⟨heq, fun q hq => (hplace q).trans (place_congr (hsame q.id hq)), more, hmore,
      fun q hq => ?_⟩
    obtain ⟨name, declared, hmem, hkeep, hobject⟩ := hP q hq
    rw [hb] at hkeep hobject
    have hout : i.model.place p = ⟨some i.model.types[p.id].unfilled, p.schema⟩ := by
      rw [Model.place, habove]
      rfl
    change Nested c ((l.model.setProperties p.id ps).place q) _
    rw [hplace, hout]
    exact .field p.id hmem hkeep ⟨hobject.layered, hobject.inferred, hobject.type⟩

/-! Reading the queue. -/

/-- Reading bodies from the queue of `i`, for as long as there are any and none fails, ends like this. -/
inductive Finishes (c : ImportSettings) : Importer → Except Error Unit × Importer → Prop where
  | done {i : Importer} (hp : i.pending = []) : Finishes c i (.ok (), i)
  | failed {i j : Importer} {p : Pending} {rest : List Pending} {e : Error}
      (hp : i.pending = p :: rest)
      (hbody : importBody c { i with pending := rest } p = (.error e, j)) : Finishes c i (.error e, j)
  | read {i j : Importer} {p : Pending} {rest : List Pending} {out : Except Error Unit × Importer}
      (hp : i.pending = p :: rest)
      (hbody : importBody c { i with pending := rest } p = (.ok (), j)) (h : Finishes c j out) :
      Finishes c i out

theorem Finishes.run {out : Except Error Unit × Importer} (h : Finishes c i out) :
    ∃ limit, ∀ limit' ≥ limit, run c limit' i = out := by
  induction h with
  | done hp => exact ⟨0, fun limit' _ => run_nil hp limit'⟩
  | failed hp hbody =>
    refine ⟨1, fun limit' hlimit => ?_⟩
    obtain ⟨n, rfl⟩ := Nat.exists_eq_add_of_le' hlimit
    exact run_succ_error hp hbody n
  | read hp hbody _ ih =>
    obtain ⟨limit, hlimit⟩ := ih
    refine ⟨limit + 1, fun limit' hle => ?_⟩
    obtain ⟨n, rfl⟩ := Nat.exists_eq_add_of_le' hle
    rw [← Nat.add_assoc, run_succ_ok hp hbody]
    exact hlimit _ (Nat.le_add_left _ _)

/-- What is left of an import: the definitions not met, and the places in the queue. -/
def remaining (c : ImportSettings) (i : Importer) : Nat × Multiset Place :=
  (unresolved c i, (i.pending.map i.model.place : Multiset Place))

theorem remaining_importBody (h : i.Ready) {rest : List Pending} (hp : i.pending = p :: rest)
    (hbody : importBody c { i with pending := rest } p = (.ok (), j)) :
    j.Ready ∧ Prod.Lex (· < ·) (Relation.CutExpand (Nested c)) (remaining c j) (remaining c i) := by
  obtain ⟨hrest, hlt, -⟩ := h.pop hp
  obtain ⟨hready, hmet | ⟨heq, hplace, more, hmore, hnested⟩⟩ := importBody_brings hrest hlt hbody
  · exact ⟨hready, Prod.Lex.left _ _ hmet⟩
  refine ⟨hready, ?_⟩
  have hpending : (i.pending.map i.model.place : Multiset Place) =
      i.model.place p ::ₘ (rest.map i.model.place : Multiset Place) := by
    rw [hp, List.map_cons, Multiset.cons_coe]
  have hold : rest.map j.model.place = rest.map i.model.place :=
    List.map_congr_left fun q hq => hplace q (hrest.pending_lt q hq)
  have hnew : (j.pending.map j.model.place : Multiset Place) =
      (rest.map i.model.place : Multiset Place) + (more.map j.model.place : Multiset Place) := by
    rw [hmore, List.map_append, ← Multiset.coe_add]
    exact congrArg₂ _ (congrArg _ hold) rfl
  rw [remaining, remaining, hpending, hnew]
  have hfirst : unresolved c j = unresolved c i := heq
  rw [hfirst]
  refine Prod.Lex.right _ ⟨(more.map j.model.place : Multiset Place), i.model.place p, ?_, ?_⟩
  · intro x hx
    obtain ⟨q, hq, rfl⟩ := List.mem_map.mp (Multiset.mem_coe.mp hx)
    exact hnested q hq
  · rw [← Multiset.singleton_add]
    abel

theorem finishes_of_wellFounded (hwf : WellFounded (Nested c)) (h : i.Ready) :
    ∃ out, Finishes c i out := by
  have hlex := WellFounded.prod_lex (Nat.lt_wfRel.wf) (hwf.cutExpand)
  induction hm : remaining c i using hlex.induction generalizing i with
  | _ m ih =>
    cases hp : i.pending with
    | nil => exact ⟨_, .done hp⟩
    | cons p rest =>
      cases hbody : importBody c { i with pending := rest } p with
      | mk r j =>
        cases r with
        | error e => exact ⟨_, .failed hp hbody⟩
        | ok u =>
          obtain ⟨hj, hless⟩ := remaining_importBody h hp hbody
          obtain ⟨out, hout⟩ := ih (remaining c j) (hm ▸ hless) hj rfl
          exact ⟨out, .read hp hbody hout⟩

/-! When places nest for ever. The schema under a property is smaller than the body it stands in, unless
annotations put another in its place. -/

/-- A schema that annotations give to a property. -/
structure Replacement where
  property : String
  schema : Schema

def replacements (a : Annotations) : List Replacement :=
  a.flatMap fun type => type.2.filterMap fun
    | (property, .patch ⟨some schema, _, _⟩) => some ⟨property, schema⟩
    | _ => none

theorem mem_replacements {a : Annotations} {b : BodyContext} {t : TypeEntry} {name : String}
    {schema : Schema} (hb : b = contextOf c t p) (ha : c.annotations = a)
    (h : (b.patch name).schema = some schema) : ⟨name, schema⟩ ∈ replacements a := by
  rw [BodyContext.patch] at h
  split at h
  · next patch hpatch =>
    obtain ⟨replaced, fieldName, typeName⟩ := patch
    obtain rfl : replaced = some schema := h
    rw [hb, contextOf] at hpatch
    simp only at hpatch
    cases htype : Annotations.forType c.annotations ([t.group.qualify t.fullName, t.fullName] ++
      (if t.name != t.fullName then [t.name] else [])) with
    | none =>
      rw [htype] at hpatch
      cases hpatch
    | some overrides =>
      rw [htype, Option.getD_some] at hpatch
      obtain ⟨key, -, hkey⟩ := List.exists_of_findSome?_eq_some htype
      rw [ha] at hkey
      exact List.mem_flatMap.mpr ⟨_, Table.mem_of_get? hkey,
        List.mem_filterMap.mpr ⟨_, Table.mem_of_get? hpatch, rfl⟩⟩
  · cases h

/-- Somewhere in the schema of `r` there is a property that `r'` gives its schema to. -/
def LeadsTo (a : Annotations) (r r' : Replacement) : Prop :=
  r ∈ replacements a ∧ r' ∈ replacements a ∧
    ∃ s : Schema, s.Inside r.schema ∧ r'.property ∈ s.properties.map Prod.fst

theorem acc_of_replacements {x : Place}
    (h : ∀ r ∈ replacements c.annotations,
      (∃ s : Schema, s.Inside x.body ∧ r.property ∈ s.properties.map Prod.fst) →
      ∀ y : Place, y.body.Inside r.schema → Acc (Nested c) y) : Acc (Nested c) x := by
  induction hn : sizeOf x.body using Nat.strong_induction_on generalizing x with
  | _ n ih =>
    refine ⟨x, fun y hy => ?_⟩
    cases hy with
    | @field t _ body id name declared hfield hkeep hobject =>
      obtain ⟨context, layers, hlayered⟩ := hobject.layered
      have hinside := (Schema.layered_object_inside hlayered).1
      cases hpatch : ((contextOf c t ⟨id, body⟩).patch name).schema with
      | some schema =>
        rw [hpatch] at hinside
        exact h _ (mem_replacements rfl rfl hpatch)
          ⟨body, .refl, List.mem_map_of_mem (f := Prod.fst) hfield⟩ y hinside
      | none =>
        rw [hpatch] at hinside
        have hpart : Schema.Part declared body := .property hfield
        have hbody : y.body.Inside body := hinside.tail hpart
        have hle := Schema.Inside.sizeOf_le hinside
        have hlt := hpart.sizeOf_lt
        refine ih (sizeOf y.body) (by simp only at hn; simp only [Option.getD_none] at hle; omega)
          (fun r hr ⟨s, hs, hmem⟩ => h r hr ⟨s, hs.trans hbody, hmem⟩) rfl

/-- No object is nested in another for ever if no replacement leads back to itself. -/
theorem wellFounded_of_acyclic
    (h : ∀ r, ¬Relation.TransGen (LeadsTo c.annotations) r r) : WellFounded (Nested c) := by
  let R : {r // r ∈ replacements c.annotations} → {r // r ∈ replacements c.annotations} → Prop :=
    fun r' r => Relation.TransGen (LeadsTo c.annotations) r.1 r'.1
  have hfinite : Finite {r // r ∈ replacements c.annotations} :=
    List.finite_toSet (replacements c.annotations)
  have htrans : IsTrans _ R := ⟨fun r r' r'' h h' => h'.trans h⟩
  have hirrefl : Std.Irrefl R := ⟨fun r => h r.1⟩
  have hwf : WellFounded R := Finite.wellFounded_of_trans_of_irrefl R
  have hreplaced : ∀ r : {r // r ∈ replacements c.annotations}, ∀ y : Place,
      y.body.Inside r.1.schema → Acc (Nested c) y := by
    intro r
    induction r using hwf.induction with
    | _ r ih =>
      intro y hy
      refine acc_of_replacements fun r' hr' ⟨s, hs, hmem⟩ => ?_
      exact ih ⟨r', hr'⟩ (.single ⟨r.2, hr', s, hs.trans hy, hmem⟩)
  exact ⟨fun x => acc_of_replacements fun r hr _ => hreplaced ⟨r, hr⟩⟩

/-- An object with a list of filters. -/
def filterBody : Schema := { type := some "object", properties := [("filters", { type := some "array" })] }

def widgetRoot : Importer :=
  (Importer.registerRoot {} ⟨"apps", some "v1"⟩ "Widget" .resource filterBody).2

/-- The filters of a widget are taken from a definition. -/
def definedFilters : ImportSettings where
  annotations := [("Widget", [("filters", .patch {
    schema := some (.toReference "io.k8s.api.core.v1.Filters") })])]

/-- However the queue came to be and however deep its definitions lead, reading it ends, with an empty
queue or an error, unless objects nest for ever. They do not if no replacement leads back to itself. -/
theorem reading_ends (hi : Reachable c i) :
    (∀ depth, c.definitions.length < depth → ∀ reference,
      followRef c depth i reference = i.importRef c reference) ∧
    (WellFounded (Nested c) →
      ∃ out, Finishes c i out ∧ ∃ limit, ∀ limit' ≥ limit, run c limit' i = out) ∧
    ((∀ r, ¬Relation.TransGen (LeadsTo c.annotations) r r) → WellFounded (Nested c)) := by
  refine ⟨fun depth h => followRef_eq_importRef h i, fun hwf => ?_, wellFounded_of_acyclic⟩
  obtain ⟨out, hout⟩ := finishes_of_wellFounded hwf hi.ready
  exact ⟨out, hout, hout.run⟩

theorem reading_ends_defined : Reachable definedFilters widgetRoot ∧
    ∃ out, Finishes definedFilters widgetRoot out ∧
      ∃ limit, ∀ limit' ≥ limit, run definedFilters limit' widgetRoot = out := by
  have hroot : Reachable definedFilters widgetRoot := .registerRoot .start _ _ _ _
  obtain ⟨-, hends, hacyclic⟩ := reading_ends hroot
  refine ⟨hroot, hends (hacyclic fun r hr => ?_)⟩
  -- a reference has no properties for a replacement to apply to
  have hfirst : ∃ r', LeadsTo definedFilters.annotations r r' := by
    rcases Relation.TransGen.head'_iff.mp hr with ⟨r', h, -⟩
    exact ⟨r', h⟩
  obtain ⟨r', hr, -, s, hs, hmem⟩ := hfirst
  have hr : r = ⟨"filters", .toReference "io.k8s.api.core.v1.Filters"⟩ := List.mem_singleton.mp hr
  subst hr
  rcases Relation.ReflTransGen.cases_tail hs with hs | ⟨t, -, ht⟩
  · rw [← hs] at hmem
    cases hmem
  · cases ht with
    | property h => cases h
    | item h => cases h
    | value h => cases h
    | wrapped h => cases h

/-- The filters are objects with filters, and their name adds nothing to that of the type above. -/
def filtersPatch : PropertyOverride :=
  .patch { schema := some { type := some "array", items := some filterBody }, typeName := some "" }

def widgetFilters : ImportSettings where
  annotations := [("Widget", [("filters", filtersPatch)])]

theorem layered_filters (context : String) : Schema.layered context none
    { type := some "array", items := some filterBody } = .ok ⟨[.list], .object filterBody⟩ := by
  have hbody : filterBody.shape context = .ok (.object filterBody.properties) := by
    simp [filterBody, Schema.shape, Schema.typedShape]
  have hlist : Schema.shape context { type := some "array", items := some filterBody } =
      .ok (.array (some filterBody)) := by
    simp [Schema.shape, Schema.typedShape, Schema.itemSchema, Schema.isUnconstrained, filterBody]
  rw [Schema.layered_eq, hlist]
  simp only
  rw [Schema.layered_eq, hbody]
  rfl

/-- The queue is one list of filters. -/
def Filtering (i : Importer) : Prop :=
  ∃ id t, i.pending = [⟨id, filterBody⟩] ∧ i.model.types[id]? = some t ∧ t.fullName = "Widget" ∧
    t.group = ⟨"apps", some "v1"⟩ ∧ t.apiResource? = none

theorem Filtering.importBody (h : Filtering i) :
    ∃ p j, i.pending = [p] ∧ importBody widgetFilters { i with pending := [] } p = (.ok (), j) ∧
      Filtering j := by
  obtain ⟨id, t, hp, ht, hname, hgroup, hkind⟩ := h
  have hcontext : bodyContext widgetFilters i.model ⟨id, filterBody⟩ =
      { id, resource := false, overrides := [("filters", filtersPatch)], required := [] } := by
    rw [bodyContext_eq ht, contextOf, hkind, hname, hgroup]
    rfl
  have hinfer : widgetFilters.inference.bind (Signature.infer · "filters" filterBody) = none := rfl
  let next := Importer.registerObject { i with pending := [] } id "filters" (some "") filterBody
  have hproperty : importProperty widgetFilters { i with pending := [] } id "filters" (some "")
      { type := some "array", items := some filterBody } =
        (.ok (.list (.type i.model.types.size)), next) := by
    rw [importProperty, importWith]
    simp only [layered_filters, importObject_new hinfer]
    rfl
  let ps : List Property :=
    [{ name := "filters", type := .list (.type i.model.types.size), required := false }]
  have hfields : importFields widgetFilters (bodyContext widgetFilters i.model ⟨id, filterBody⟩)
      { i with pending := [] } filterBody.properties = (.ok ps, next) := by
    have hkeeps : BodyContext.keeps ⟨id, false, [("filters", filtersPatch)], []⟩ "filters" = true :=
      rfl
    have hpatch : BodyContext.patch ⟨id, false, [("filters", filtersPatch)], []⟩ "filters" =
      { schema := some { type := some "array", items := some filterBody }, typeName := some "" } := rfl
    have hbody : filterBody.properties = [("filters", { type := some "array" })] := rfl
    rw [hcontext, hbody, importFields, importField_eq, if_pos hkeeps, keptField,
      if_neg (by simp [widgetFilters]), hpatch]
    simp only [Option.getD_some, hproperty]
    rfl
  have hids : i.model.types.size ≠ id :=
    Nat.ne_of_gt (Array.getElem?_eq_some_iff.mp ht).1
  have hentry := Model.types_registerAnonymous_new ht "filters" (some "") filterBody.description
  refine ⟨⟨id, filterBody⟩, { next with model := next.model.setProperties id ps }, hp, ?_, ?_⟩
  · rw [Importer.importBody]
    simp only [hfields]
  · refine ⟨i.model.types.size, objectEntry t id "filters" (some "") filterBody.description, rfl, ?_,
      ?_, hgroup, rfl⟩
    · change (Model.amend _ _ _).types[_]? = _
      rw [Model.getElem?_amend, if_neg hids]
      change ((Model.registerAnonymous _ _ _ _ _).2.types)[_]? = _
      rw [hentry, Array.getElem?_push, if_pos rfl]
    · rw [objectEntry, hname]
      rfl

/-- Reading them never ends. -/
theorem not_reading_ends_filters : Reachable widgetFilters widgetRoot ∧
    (∀ limit, ∃ k, run widgetFilters limit widgetRoot = (.error .endless, k)) ∧
    ¬∃ out, Finishes widgetFilters widgetRoot out := by
  have hroot : Filtering widgetRoot :=
    ⟨0, { name := "Widget", fullName := "Widget", qualified := "apps.v1.Widget", group := _, kind := .resource },
      rfl, rfl, rfl, rfl, rfl⟩
  refine ⟨.registerRoot .start _ _ _ _, fun limit => ?_, ?_⟩
  · have hrun : ∀ i, Filtering i → ∃ k, run widgetFilters limit i = (.error .endless, k) := by
      induction limit with
      | zero =>
        intro i hi
        obtain ⟨p, j, hp, -, -⟩ := hi.importBody
        exact ⟨i, run_zero hp⟩
      | succ limit ih =>
        intro i hi
        obtain ⟨p, j, hp, hbody, hj⟩ := hi.importBody
        rw [run_succ_ok hp hbody]
        exact ih j hj
    exact hrun _ hroot
  · rintro ⟨out, hout⟩
    have hnever : ∀ i out, Finishes widgetFilters i out → ¬Filtering i := by
      intro i out h
      induction h with
      | done hnil =>
        intro hi
        obtain ⟨p, j, hp, -, -⟩ := hi.importBody
        rw [hnil] at hp
        cases hp
      | failed hpending hbody =>
        intro hi
        obtain ⟨p, j, hp, hread, -⟩ := hi.importBody
        obtain ⟨rfl, rfl⟩ := List.cons.inj (hpending.symm.trans hp)
        rw [hread] at hbody
        cases (Prod.mk.inj hbody).1
      | read hpending hbody _ ih =>
        intro hi
        obtain ⟨p, j, hp, hread, hj⟩ := hi.importBody
        obtain ⟨rfl, rfl⟩ := List.cons.inj (hpending.symm.trans hp)
        rw [hread] at hbody
        obtain rfl := (Prod.mk.inj hbody).2
        exact ih hj
    exact hnever _ _ hout hroot

end Importer

end SchemaCompiler
