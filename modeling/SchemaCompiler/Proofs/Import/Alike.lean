import Mathlib.Data.List.Forall2
import SchemaCompiler.Proofs.Import.Queue

/-! Imports that run side by side. What is said about a type has no part in how an import goes on, and
a body in the queue may be exchanged for one with the same fields. -/

namespace SchemaCompiler

/-- A type without what is said about it. -/
def TypeEntry.bare (t : TypeEntry) : TypeEntry := { t with description := none }

namespace Model

/-- Models that are the same but for what is said about their types. -/
abbrev Alike (m m' : Model) : Prop := SameUpTo TypeEntry.bare m m'

variable {m m' : Model}

theorem Alike.amend (h : m.Alike m') (id : TypeId) {f : TypeEntry → TypeEntry}
    (hf : ∀ t, (f t).bare = f t.bare) : (m.amend id f).Alike (m'.amend id f) where
  groups := h.groups
  index := h.index
  entries := by
    intro i
    rw [getElem?_amend, getElem?_amend]
    by_cases hi : i = id
    · rw [if_pos hi, if_pos hi, Option.map_map, Option.map_map]
      refine h.map_getElem? (fun t => ?_) i
      change (f t.bare).bare = (f t).bare
      rw [hf, hf]
      rfl
    · rw [if_neg hi, if_neg hi, h.entries]

theorem Alike.setKind (h : m.Alike m') (id : TypeId) (kind : TypeKind) :
    (m.setKind id kind).Alike (m'.setKind id kind) := h.amend id fun _ => rfl

theorem Alike.setProperties (h : m.Alike m') (id : TypeId) (ps : List Property) :
    (m.setProperties id ps).Alike (m'.setProperties id ps) := h.amend id fun _ => rfl

theorem Alike.push (h : m.Alike m') {t t' : TypeEntry} (ht : t'.bare = t.bare)
    (groups : Table GroupKey Group) (index : List Registration) :
    Alike ⟨m.types.push t, groups, index⟩ ⟨m'.types.push t', groups, index⟩ where
  groups := rfl
  index := rfl
  entries := by
    intro id
    rw [Array.getElem?_push, Array.getElem?_push, h.size_eq]
    by_cases hid : id = m.types.size
    · rw [if_pos hid, if_pos hid, Option.map_some, Option.map_some, ht]
    · rw [if_neg hid, if_neg hid, h.entries]

theorem Alike.registerNamed (h : m.Alike m') (group : GroupKey) (name : String) (kind : TypeKind)
    (description : Option String) :
    (m'.registerNamed group name kind description).1 =
        (m.registerNamed group name kind description).1 ∧
      (m.registerNamed group name kind description).2.Alike
        (m'.registerNamed group name kind description).2 := by
  cases hf : m.find? group (group.qualify name) with
  | some known =>
    rw [registerNamed_known hf, registerNamed_known ((h.find? _ _).trans hf)]
    exact ⟨rfl, h⟩
  | none =>
    rw [registerNamed_new hf, registerNamed_new ((h.find? _ _).trans hf), h.size_eq]
    refine ⟨rfl, ?_⟩
    simp only [alterGroup, h.groups, h.index]
    exact h.push rfl _ _

theorem Alike.registerAnonymous (h : m.Alike m') (parent : TypeId) (property : String)
    (typeName description description' : Option String) :
    (m.registerAnonymous parent property typeName description).2.Alike
      (m'.registerAnonymous parent property typeName description').2 := by
  have hentry := h.entries parent
  cases hp : m.types[parent]? with
  | none =>
    rw [hp] at hentry
    have hp' : m'.types[parent]? = none := by simpa using hentry
    rw [registerAnonymous_orphan hp, registerAnonymous_orphan hp']
    exact h
  | some above =>
    rw [hp] at hentry
    obtain ⟨above', hp', habove⟩ := Option.map_eq_some_iff.mp hentry
    -- the new entry only reads what the entries above have in common
    have hobject : ∀ d, objectEntry above' parent property typeName d =
        objectEntry above parent property typeName d := by
      intro d
      calc objectEntry above' parent property typeName d
        _ = objectEntry above'.bare parent property typeName d := rfl
        _ = objectEntry above.bare parent property typeName d := by rw [habove]
        _ = objectEntry above parent property typeName d := rfl
    rw [registerAnonymous_new hp, registerAnonymous_new hp', hobject, h.size_eq]
    simp only [alterGroup, h.groups, h.index]
    refine h.push ?_ _ _
    rfl

end Model

namespace Importer

/-- What is known about a type that its body is for does not come from its description. -/
theorem bodyContext_alike {c : ImportSettings} {m m' : Model} (h : m.Alike m') (p : Pending) :
    bodyContext c m' p = bodyContext c m p := by
  have hread : ∀ m : Model, isResource m p.id =
      ((m.types[p.id]?).map fun t => t.apiResource?.isSome).getD false := by
    intro m
    cases ht : m.types[p.id]? <;> simp [isResource, ht]
  have hread' : ∀ m : Model, overrideKeys m p.id =
      ((m.types[p.id]?).map fun t => [t.group.qualify t.fullName, t.fullName] ++
        (if t.name != t.fullName then [t.name] else [])).getD [] := by
    intro m
    cases ht : m.types[p.id]? <;> simp [overrideKeys, ht]
  have hresource : isResource m' p.id = isResource m p.id := by
    rw [hread, hread, h.map_getElem? fun _ => rfl]
  have hkeys : overrideKeys m' p.id = overrideKeys m p.id := by
    rw [hread', hread', h.map_getElem? fun _ => rfl]
  rw [bodyContext, hresource, hkeys, bodyContext]

/-- Bodies that take each other's place: the same one, or `w` and `s` for the type `x`. -/
inductive Exchanged (x : TypeId) (w s : Schema) : Pending → Pending → Prop where
  | same (p : Pending) : Exchanged x w s p p
  | other : Exchanged x w s ⟨x, w⟩ ⟨x, s⟩

/-- Imports that have come equally far, with one body exchanged at most. -/
structure Alike (x : TypeId) (w s : Schema) (i i' : Importer) : Prop where
  model : i.model.Alike i'.model
  resolved : i.resolved = i'.resolved
  pending : List.Forall₂ (Exchanged x w s) i.pending i'.pending

/-- An equal result of imports that have come equally far. -/
structure Agree {α : Type} (x : TypeId) (w s : Schema) (r r' : α × Importer) : Prop where
  value : r.1 = r'.1
  alike : Alike x w s r.2 r'.2

variable {c : ImportSettings} {x : TypeId} {w s : Schema} {i i' : Importer}

theorem Agree.out {α : Type} {r r' : α × Importer} (h : Agree x w s r r') :
    ∃ a j j', r = (a, j) ∧ r' = (a, j') ∧ Alike x w s j j' := by
  obtain ⟨a, j⟩ := r
  obtain ⟨a', j'⟩ := r'
  obtain rfl : a = a' := h.value
  exact ⟨a, j, j', rfl, rfl, h.alike⟩

theorem Alike.refl (x : TypeId) (w s : Schema) (i : Importer) : Alike x w s i i :=
  ⟨.refl _ i.model, rfl, List.forall₂_same.mpr fun p _ => .same p⟩

theorem Alike.remember (h : Alike x w s i i') (key : String) (e : TypeExpr) :
    Alike x w s (i.remember key e) (i'.remember key e) where
  model := h.model
  resolved := by simp only [Importer.remember, h.resolved]
  pending := h.pending

theorem Alike.enqueue (h : Alike x w s i i') {m m' : Model} (hm : m.Alike m') {id : TypeId}
    {body body' : Schema} (hbody : Exchanged x w s ⟨id, body⟩ ⟨id, body'⟩) :
    Alike x w s ({ i with model := m }.enqueue id body) ({ i' with model := m' }.enqueue id body') where
  model := hm
  resolved := h.resolved
  pending := List.rel_append h.pending (.cons hbody .nil)

theorem Alike.withModel (h : Alike x w s i i') {m m' : Model} (hm : m.Alike m') :
    Alike x w s { i with model := m } { i' with model := m' } := ⟨hm, h.resolved, h.pending⟩

theorem Alike.registerRoot (h : Alike x w s i i') (group : GroupKey) (name : String)
    (kind : TypeKind) (schema : Schema) :
    Agree x w s (i.registerRoot group name kind schema) (i'.registerRoot group name kind schema) := by
  rw [Importer.registerRoot, Importer.registerRoot, h.model.find?]
  cases i.model.find? group (group.qualify name) with
  | some id => exact ⟨rfl, h⟩
  | none =>
    obtain ⟨hid, hm⟩ := h.model.registerNamed group name kind schema.description
    refine ⟨hid.symm, ?_⟩
    simp only [hid]
    exact h.enqueue hm (.same _)

theorem Alike.registerObject (h : Alike x w s i i') (parent : TypeId) (property : String)
    (typeName : Option String) {body body' : Schema}
    (hbody : Exchanged x w s ⟨i.model.types.size, body⟩ ⟨i.model.types.size, body'⟩) :
    Alike x w s (i.registerObject parent property typeName body)
      (i'.registerObject parent property typeName body') := by
  rw [Importer.registerObject, Importer.registerObject, h.model.size_eq]
  exact h.enqueue (h.model.registerAnonymous parent property typeName _ _) hbody

theorem Alike.importObject (h : Alike x w s i i') (parent : TypeId) (property : String)
    (typeName : Option String) (body : Schema) :
    Agree x w s (i.importObject c parent property typeName body)
      (i'.importObject c parent property typeName body) := by
  cases hinfer : c.inference.bind (Signature.infer · property body) with
  | some q =>
    rw [Importer.importObject, Importer.importObject, hinfer]
    exact ⟨rfl, h⟩
  | none =>
    rw [importObject_new hinfer, importObject_new hinfer, h.model.size_eq]
    exact ⟨rfl, h.registerObject parent property typeName (.same _)⟩

/-- Ways to lead on from a reference that go together. -/
def FollowAlike (x : TypeId) (w s : Schema)
    (follow : Importer → String → Except Error TypeExpr × Importer) : Prop :=
  ∀ {i i' : Importer}, Alike x w s i i' → ∀ path, Agree x w s (follow i path) (follow i' path)

theorem Alike.importWith (h : Alike x w s i i')
    {follow : Importer → String → Except Error TypeExpr × Importer}
    (hfollow : FollowAlike x w s follow) (parent : TypeId) (property : String)
    (typeName : Option String) (schema : Schema) :
    Agree x w s (importWith c follow i parent property typeName schema)
      (importWith c follow i' parent property typeName schema) := by
  rw [Importer.importWith, Importer.importWith, h.model.fullNameOf fun _ => rfl]
  split
  · exact ⟨rfl, h⟩
  · next layers core _ =>
    cases core with
    | expr e => exact ⟨rfl, h⟩
    | object body =>
      obtain ⟨e, j, j', hj, hj', halike⟩ := (h.importObject parent property typeName body (c := c)).out
      simp only [hj, hj']
      exact ⟨rfl, halike⟩
    | reference path =>
      obtain ⟨r, j, j', hj, hj', halike⟩ := (hfollow h path).out
      simp only [hj, hj']
      exact ⟨rfl, halike⟩

theorem Alike.importDefinition (h : Alike x w s i i')
    {follow : Importer → String → Except Error TypeExpr × Importer}
    (hfollow : FollowAlike x w s follow) (key : String) (q : QualifiedName) (definition : Schema) :
    Agree x w s (importDefinition c follow i key q definition)
      (importDefinition c follow i' key q definition) := by
  rw [Importer.importDefinition, Importer.importDefinition]
  by_cases hrecord : definition.isRecord = true
  · rw [if_pos hrecord, if_pos hrecord]
    obtain ⟨id, j, j', hj, hj', halike⟩ :=
      (h.registerRoot (GroupKey.of q) q.name (definitionKind q definition) definition).out
    simp only [hj, hj']
    exact ⟨rfl, halike.remember _ _⟩
  · rw [if_neg hrecord, if_neg hrecord]
    obtain ⟨hid, hm⟩ := h.model.registerNamed (GroupKey.of q) q.name (.synonym (.primitive .any))
      definition.description
    simp only [hid]
    have hremember := (h.withModel hm).remember key
      (.type (i.model.registerNamed (GroupKey.of q) q.name (.synonym (.primitive .any))
        definition.description).1)
    split
    · exact ⟨rfl, hremember⟩
    · obtain ⟨r, j, j', hj, hj', halike⟩ :=
        (hremember.importWith hfollow _ "item" none definition (c := c)).out
      rw [hj, hj']
      cases r with
      | error e => exact ⟨rfl, halike⟩
      | ok target => exact ⟨rfl, halike.withModel (halike.model.setKind _ _)⟩

theorem Alike.importReference (h : Alike x w s i i')
    {follow : Importer → String → Except Error TypeExpr × Importer}
    (hfollow : FollowAlike x w s follow) (reference : String) :
    Agree x w s (importReference c follow i reference) (importReference c follow i' reference) := by
  rw [Importer.importReference, Importer.importReference, h.resolved]
  split
  · exact ⟨rfl, h⟩
  · split
    · exact ⟨rfl, h⟩
    · split
      · exact ⟨rfl, h.remember _ _⟩
      · exact ⟨rfl, h.remember _ _⟩
      · exact h.importDefinition hfollow _ _ _

theorem followRef_alike (depth : Nat) : FollowAlike x w s (followRef c depth) := by
  induction depth with
  | zero =>
    intro i i' h path
    rw [followRef, followRef]
    exact ⟨rfl, h⟩
  | succ depth ih =>
    intro i i' h path
    rw [followRef, followRef]
    exact h.importReference ih path

theorem Alike.importProperty (h : Alike x w s i i') (parent : TypeId) (property : String)
    (typeName : Option String) (schema : Schema) :
    Agree x w s (importProperty c i parent property typeName schema)
      (importProperty c i' parent property typeName schema) := by
  rw [Importer.importProperty, Importer.importProperty]
  exact h.importWith (followRef_alike _) parent property typeName schema

/-! Bodies. -/

/-- A property is left out without a trace. -/
theorem importFields_kept (b : BodyContext) (i : Importer) (fields : List (String × Schema)) :
    importFields c b i fields = importFields c b i (fields.filter fun f => b.keeps f.1) := by
  induction fields generalizing i with
  | nil => rfl
  | cons field fields ih =>
    obtain ⟨name, declared⟩ := field
    by_cases hkeep : b.keeps name = true
    · rw [List.filter_cons, if_pos hkeep, importFields, importFields]
      split
      · rfl
      · rw [ih]
    · rw [List.filter_cons, if_neg hkeep, importFields, importField_eq, if_neg hkeep, ← ih]
      simp only [Option.toList_none, List.nil_append]
      rcases importFields c b i fields with ⟨_ | ps, j⟩ <;> rfl

theorem Alike.importField (h : Alike x w s i i') (b : BodyContext) {required : List String}
    {name : String} (hreq : b.required.contains name = required.contains name) (declared : Schema) :
    Agree x w s (importField c b i name declared)
      (importField c { b with required } i' name declared) := by
  rw [importField_eq, importField_eq]
  change Agree x w s _ (if b.keeps name then keptField c { b with required } i' name declared
    (b.patch name) else _)
  have hfield : ∀ patch type, patchedField { b with required } name declared patch type =
      patchedField b name declared patch type := by
    intro patch type
    simp only [patchedField, hreq]
  split
  · rw [keptField, keptField]
    split
    · exact ⟨by rw [hfield], h⟩
    · obtain ⟨r, j, j', hj, hj', halike⟩ := (h.importProperty b.id name (b.patch name).typeName
        ((b.patch name).schema.getD declared) (c := c)).out
      simp only [hj, hj', hfield]
      exact ⟨rfl, halike⟩
  · exact ⟨rfl, h⟩

theorem Alike.importFields (h : Alike x w s i i') (b : BodyContext) {required : List String}
    {fields : List (String × Schema)}
    (hreq : ∀ f ∈ fields, b.required.contains f.1 = required.contains f.1) :
    Agree x w s (importFields c b i fields) (importFields c { b with required } i' fields) := by
  induction fields generalizing i i' with
  | nil => exact ⟨rfl, h⟩
  | cons field fields ih =>
    obtain ⟨name, declared⟩ := field
    rw [Importer.importFields, Importer.importFields]
    obtain ⟨r, j, j', hj, hj', halike⟩ :=
      (h.importField b (hreq _ List.mem_cons_self) declared (c := c)).out
    rw [hj, hj']
    cases r with
    | error e => exact ⟨rfl, halike⟩
    | ok p =>
      obtain ⟨r, k, k', hk, hk', halike⟩ :=
        (ih halike fun f hf => hreq f (List.mem_cons_of_mem _ hf)).out
      simp only [hk, hk']
      cases r with
      | error e => exact ⟨rfl, halike⟩
      | ok ps => exact ⟨rfl, halike⟩

/-- Bodies with the same fields are imported in the same way. -/
theorem Alike.importFields_body (h : Alike x w s i i') {b : BodyContext} {body body' : Schema}
    (hfields : b.fields body = b.fields body') :
    Agree x w s (Importer.importFields c { b with required := body.required } i body.properties)
      (Importer.importFields c { b with required := body'.required } i' body'.properties) := by
  have hkept : body.properties.filter (fun f => b.keeps f.1) =
      body'.properties.filter fun f => b.keeps f.1 := by
    have hmap := congrArg (List.map fun f => (f.1, f.2.1)) hfields
    have hproj : ∀ required : List String, (fun f : String × Schema × Bool => (f.1, f.2.1)) ∘
        (fun f : String × Schema => (f.1, f.2, required.contains f.1)) = id := fun _ => rfl
    rwa [BodyContext.fields, BodyContext.fields, List.map_map, List.map_map, hproj, hproj,
      List.map_id, List.map_id] at hmap
  rw [BodyContext.fields, BodyContext.fields, hkept, List.map_inj_left] at hfields
  rw [importFields_kept, importFields_kept { b with required := body'.required }]
  change Agree x w s (Importer.importFields c _ i (body.properties.filter fun f => b.keeps f.1))
    (Importer.importFields c _ i' (body'.properties.filter fun f => b.keeps f.1))
  rw [hkept]
  refine h.importFields { b with required := body.required } fun f hf => ?_
  have hf' := hfields f hf
  simpa using hf'

theorem Alike.importBody (h : Alike x w s i i') {p p' : Pending} (hp : Exchanged x w s p p')
    (hfields : p.id = x → (bodyContext c i.model ⟨x, {}⟩).fields w =
      (bodyContext c i.model ⟨x, {}⟩).fields s) :
    Agree x w s (importBody c i p) (importBody c i' p') := by
  have hbody : Agree x w s
      (Importer.importFields c (bodyContext c i.model p) i p.schema.properties)
      (Importer.importFields c (bodyContext c i'.model p') i' p'.schema.properties) := by
    rw [bodyContext_alike h.model]
    cases hp with
    | same => exact h.importFields_body (b := bodyContext c i.model p) rfl
    | other => exact h.importFields_body (b := bodyContext c i.model ⟨x, {}⟩) (hfields rfl)
  have hid : p.id = p'.id := by cases hp <;> rfl
  rw [Importer.importBody, Importer.importBody]
  obtain ⟨r, j, j', hj, hj', halike⟩ := hbody.out
  rw [hj, hj', hid]
  cases r with
  | error e => exact ⟨rfl, halike⟩
  | ok ps => exact ⟨rfl, halike.withModel (halike.model.setProperties _ _)⟩

theorem Alike.pop (h : Alike x w s i i') :
    (i.pending = [] ∧ i'.pending = []) ∨ ∃ p p' rest rest', i.pending = p :: rest ∧
      i'.pending = p' :: rest' ∧ Exchanged x w s p p' ∧
      Alike x w s { i with pending := rest } { i' with pending := rest' } := by
  have hpending := h.pending
  cases hp : i.pending with
  | nil =>
    rw [hp, List.forall₂_nil_left_iff] at hpending
    exact .inl ⟨rfl, hpending⟩
  | cons p rest =>
    rw [hp, List.forall₂_cons_left_iff] at hpending
    obtain ⟨p', rest', hexchanged, hrest, hp'⟩ := hpending
    exact .inr ⟨p, p', rest, rest', rfl, hp', hexchanged, h.model, h.resolved, hrest⟩

theorem Alike.run (h : Alike x w s i i') (hi : i.Ready) {key : GroupKey}
    (hid : i.model.Filed key x)
    (hfields : x ∈ i.pending.map Pending.id → (bodyContext c i.model ⟨x, {}⟩).fields w =
      (bodyContext c i.model ⟨x, {}⟩).fields s) (limit : Nat) :
    Agree x w s (run c limit i) (run c limit i') := by
  induction limit generalizing i i' with
  | zero =>
    rcases h.pop with ⟨hp, hp'⟩ | ⟨p, p', rest, rest', hp, hp', -, -⟩
    · rw [run_nil hp, run_nil hp']
      exact ⟨rfl, h⟩
    · rw [run_zero hp, run_zero hp']
      exact ⟨rfl, h⟩
  | succ limit ih =>
    rcases h.pop with ⟨hp, hp'⟩ | ⟨p, p', rest, rest', hp, hp', hexchanged, hpop⟩
    · rw [run_nil hp, run_nil hp']
      exact ⟨rfl, h⟩
    · obtain ⟨hready, hlt, hfresh⟩ := hi.pop hp
      have hreads := hready.importBody (c := c) hlt
      have hbody := hpop.importBody (c := c) hexchanged fun hpx => hfields (by simp [hp, hpx])
      obtain ⟨r, j, j', hj, hj', halike⟩ := hbody.out
      rw [hj] at hreads
      cases r with
      | error e =>
        rw [run_succ_error hp hj, run_succ_error hp' hj']
        exact ⟨rfl, halike⟩
      | ok u =>
        rw [run_succ_ok hp hj, run_succ_ok hp' hj']
        obtain ⟨hfiled, hentry⟩ := hreads.filed hid
        refine ih halike hreads.ready hfiled fun hx => ?_
        -- a body of `x` that is still in the queue is not the one that was just read
        have hxrest := (hreads.mem_pending (hi.filed_lt hid)).mp hx
        have hne : x ≠ p.id := fun heq => hfresh (heq ▸ hxrest)
        have hsame : bodyContext c j.model ⟨x, {}⟩ = bodyContext c i.model ⟨x, {}⟩ :=
          bodyContext_congr (hentry hne)
        rw [hsame]
        exact hfields (by rw [hp]; exact List.mem_cons_of_mem _ hxrest)

end Importer

end SchemaCompiler
