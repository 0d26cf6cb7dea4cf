import SchemaCompiler.Proofs.Import.Waypoints

/-! Following an import from place to place. As long as what it comes by can be read the import goes on, and
what it puts into its queue comes after what it has come by. -/

namespace SchemaCompiler

open QualifiedName (parse?)

namespace Importer

open Model (objectEntry namedEntry)

variable {c : ImportSettings} {R : Waypoint → Prop} {roots : List Root} {i j k : Importer}
  {calls : List Call} {id parent : TypeId} {p : Pending} {rest : List Pending} {t : TypeEntry}
  {property : String} {typeName : Option String} {s : Schema}
  {follow : Importer → String → Except Error TypeExpr × Importer}

/-- `R` holds of all bodies in the queue. -/
structure Tracked (c : ImportSettings) (roots : List Root) (R : Waypoint → Prop) (i : Importer) : Prop where
  coherent : Coherent c roots i
  bodies : ∀ p ∈ i.pending, ∃ t, i.model.Looks p.id t ∧ R (.body t p.schema)

/-- `j` comes from `i`, and `R` still holds of all bodies in the queue. -/
structure Onward (c : ImportSettings) (roots : List Root) (R : Waypoint → Prop) (i j : Importer) :
    Prop where
  tracked : Tracked c roots R j
  model : i.model.Extends j.model

theorem tracked_empty (c : ImportSettings) (roots : List Root) (R : Waypoint → Prop) :
    Tracked c roots R {} :=
  ⟨coherent_empty, by simp⟩

/-- The bodies in a queue that have twins in an import are ones that the import has come by. -/
theorem tracked_of_twins (d : ImportSettings) {m₁ : Model} {bodies₁ bodies₂ : List Pending}
    (hi : Coherent c roots i) (hbodies : i.pending ⊆ bodies₂)
    (htwins : ∀ p ∈ i.pending, ∃ x, Twin m₁ i.model bodies₁ bodies₂ x p.id) :
    Tracked c roots (Passed d m₁ bodies₁) i := by
  refine ⟨hi, fun p hp => ?_⟩
  obtain ⟨x, hx⟩ := htwins p hp
  have ht := Array.getElem?_eq_getElem (hi.ready.pending_lt p hp)
  exact ⟨_, Model.looks_of_face ht rfl, x, hx.looks ht, hx.body p.schema (hbodies hp)⟩

theorem Tracked.refl (h : Tracked c roots R i) : Onward c roots R i i := ⟨h, .refl _⟩

theorem Onward.trans (h : Onward c roots R i j) (h' : Onward c roots R j k) : Onward c roots R i k :=
  ⟨h'.tracked, h.model.trans h'.model⟩

theorem Tracked.onward (h : Tracked c roots R i) (hj : Coherent c roots j)
    (hm : i.model.Extends j.model) (hpending : ∀ p ∈ j.pending, p ∈ i.pending ∨
      ∃ t, j.model.Looks p.id t ∧ R (.body t p.schema)) : Onward c roots R i j := by
  refine ⟨⟨hj, fun p hp => ?_⟩, hm⟩
  rcases hpending p hp with hp | hp
  · obtain ⟨t, ht, hr⟩ := h.bodies p hp
    exact ⟨t, ht.mono hm, hr⟩
  · exact hp

/-- Types are registered, but no body is put into the queue. -/
theorem Tracked.quiet (h : Tracked c roots R i) (hj : Coherent c roots j)
    (hm : i.model.Extends j.model) (hpending : j.pending = i.pending) : Onward c roots R i j :=
  h.onward hj hm fun _ hp => .inl (hpending ▸ hp)

theorem Tracked.enqueue (h : Tracked c roots R i) (hj : Coherent c roots (j.enqueue id s))
    (hm : i.model.Extends j.model) (hpending : j.pending = i.pending) (ht : j.model.Looks id t)
    (hr : R (.body t s)) : Onward c roots R i (j.enqueue id s) := by
  refine h.onward hj hm fun p hp => ?_
  rcases List.mem_append.mp hp with hp | hp
  · exact .inl (hpending ▸ hp)
  · obtain rfl := List.mem_singleton.mp hp
    exact .inr ⟨t, ht, hr⟩

/-! Schemas. -/

/-- What `R` says of the core of a schema. -/
def CoreHolds (c : ImportSettings) (R : Waypoint → Prop) (t : TypeEntry) (property : String)
    (typeName : Option String) : Core → Prop
  | .expr _ => True
  | .reference path => R (.reference path)
  | .object body => c.inference.bind (Signature.infer · property body) = none →
      R (.body (objectEntry t 0 property typeName body.description) body)

theorem Passable.layered (hR : Passable c R) (h : R (.node t property typeName s)) (context : String) :
    ∃ layers core, s.layered context none = .ok ⟨layers, core⟩ ∧
      CoreHolds c R t property typeName core := by
  induction s using Schema.descent_induction Schema.HasShape.sizeOf_lt with
  | h s ih =>
    obtain ⟨shape, hs⟩ := hR.legible h
    have hlayered := Schema.layered_eq s context none
    rw [hs context] at hlayered
    cases shape with
    | array items =>
      cases items with
      | none => exact ⟨_, _, hlayered, trivial⟩
      | some item =>
        obtain ⟨layers, core, hl, hcore⟩ := ih item (.inl hs) (hR.next h (.item hs))
        simp only [hl, Except.map] at hlayered
        exact ⟨_, _, hlayered, hcore⟩
    | map value =>
      cases value with
      | none => exact ⟨_, _, hlayered, trivial⟩
      | some value =>
        obtain ⟨layers, core, hl, hcore⟩ := ih value (.inr hs) (hR.next h (.value hs))
        simp only [hl, Except.map] at hlayered
        exact ⟨_, _, hlayered, hcore⟩
    | object properties => exact ⟨_, _, hlayered, fun hq => hR.next h (.object hs hq)⟩
    | reference path => exact ⟨_, _, hlayered, hR.next h (.path hs)⟩
    | _ => exact ⟨_, _, hlayered, trivial⟩

theorem Tracked.registerObject (h : Tracked c roots R i) (ht : i.model.Looks parent t)
    (hr : R (.body (objectEntry t 0 property typeName s.description) s)) :
    Onward c roots R i (i.registerObject parent property typeName s) := by
  obtain ⟨above, habove, hface⟩ := ht.exists_entry
  refine h.enqueue (h.coherent.registerObject habove property typeName s)
    (Model.extends_registerAnonymous habove property typeName s.description) rfl ?_ hr
  exact ⟨_, label?_registerObject habove, objectEntry_face hface _ _⟩

theorem Tracked.importWith (h : Tracked c roots R i) (hR : Passable c R) (ht : i.model.Looks parent t)
    (hs : R (.node t property typeName s)) (hfollow : ∀ path, R (.reference path) →
      ∃ e j, follow i path = (.ok e, j) ∧ Onward c roots R i j) :
    ∃ e j, importWith c follow i parent property typeName s = (.ok e, j) ∧ Onward c roots R i j := by
  obtain ⟨layers, core, hlayered, hcore⟩ :=
    hR.layered hs (i.model.fullNameOf parent ++ "." ++ property)
  rw [Importer.importWith, hlayered]
  cases core with
  | expr e => exact ⟨_, _, rfl, h.refl⟩
  | reference path =>
    obtain ⟨e, j, hj, honward⟩ := hfollow path hcore
    exact ⟨wrap layers e, j, by simp only [hj]; rfl, honward⟩
  | object body =>
    dsimp only
    cases hinfer : c.inference.bind (Signature.infer · property body) with
    | some q =>
      rw [importObject, hinfer]
      exact ⟨_, _, rfl, h.refl⟩
    | none =>
      rw [importObject_new hinfer]
      exact ⟨_, _, rfl, h.registerObject ht (hcore hinfer)⟩

/-! References. -/

/-- The type of a definition that is no record is a synonym, so that its label stays as it is. -/
theorem Tracked.setTarget (h : Tracked c roots R i) {key : String} {q : QualifiedName}
    {definition : Schema} (hd : Defined c i.model key q definition id)
    (hrecord : definition.isRecord = false) (target : TypeExpr) :
    Onward c roots R i { i with model := i.model.setKind id (.synonym target) } := by
  obtain ⟨kind, hk, hsynonym⟩ := hd.kind
  rw [if_neg (by simp [hrecord])] at hsynonym
  obtain ⟨before, rfl⟩ := hsynonym
  obtain ⟨t, ht, hkind⟩ := Option.map_eq_some_iff.mp hk
  have hlabels := Model.sameLabels_setKind ht hkind target
  exact h.quiet (h.coherent.relabel (h.coherent.ready.wellFormed.setKind id _) hlabels)
    hlabels.extends rfl

theorem Tracked.importDefinition (h : Tracked c roots R i) (hR : Passable c R) (hs : Unshared c roots)
    {path : String} {q : QualifiedName} {definition : Schema} (hpath : R (.reference path))
    (hd : Leads c path q definition)
    (hnew : Table.get? (QualifiedName.identifier path) i.resolved = none)
    (hfollow : ∀ l, unresolved c l < unresolved c i → Tracked c roots R l → ∀ path,
      R (.reference path) → ∃ e j, follow l path = (.ok e, j) ∧ Onward c roots R l j) :
    ∃ e j, importDefinition c follow i (QualifiedName.identifier path) q definition = (.ok e, j) ∧
      Onward c roots R i j := by
  have hq := hd.name
  have hw := hd.ordinary
  have hget := hd.defined
  obtain ⟨hcoherent, hdefined⟩ := h.coherent.define hs hq hw hget hnew
  have hextends := (h.coherent.adds_define hs hq hw hget hnew).extends
  have hdefine : Onward c roots R i (i.define (QualifiedName.identifier path) q definition) :=
    h.quiet hcoherent hextends rfl
  have hlooks : Model.Looks (i.define (QualifiedName.identifier path) q definition).model
      i.model.types.size (definitionEntry q definition) := ⟨_, hdefined.label, rfl⟩
  rw [importDefinition_eq (h.coherent.unregistered hs hq hget hnew)]
  by_cases hrecord : definition.isRecord = true
  · rw [if_pos hrecord]
    have hfound : Found c roots [] i _ _ _ := h.coherent.found_record hs hq hw hget hnew hrecord
    exact ⟨_, _, rfl, h.enqueue hfound.grows.coherent hextends rfl hlooks
      (hR.next hpath (.record hd hrecord))⟩
  · rw [if_neg hrecord]
    have hrecord : definition.isRecord = false := by simpa using hrecord
    by_cases hopen : definition.isUnconstrained = true
    · rw [if_pos hopen]
      exact ⟨_, _, rfl, hdefine⟩
    · rw [if_neg hopen]
      have hlt := unresolved_remember_lt (i := { i with model := _ }) hget hnew
        (.type i.model.types.size)
      obtain ⟨target, l, hl, honward⟩ := hdefine.tracked.importWith hR hlooks
        (hR.next hpath (.synonym hd hrecord (by simpa using hopen)))
        (hfollow _ hlt hdefine.tracked)
      rw [hl]
      exact ⟨_, _, rfl, (hdefine.trans honward).trans
        (honward.tracked.setTarget (hdefined.mono honward.model) hrecord target)⟩

theorem Tracked.followRef (h : Tracked c roots R i) (hR : Passable c R) (hs : Unshared c roots)
    {depth : Nat} (hdepth : unresolved c i < depth) {path : String} (hpath : R (.reference path)) :
    ∃ e j, followRef c depth i path = (.ok e, j) ∧ Onward c roots R i j := by
  -- a reference that leads on is one to a definition that had not been met
  induction depth generalizing i path with
  | zero => exact absurd hdepth (Nat.not_lt_zero _)
  | succ depth ih =>
    rw [Importer.followRef, importReference]
    split
    · exact ⟨_, _, rfl, h.refl⟩
    · next hnew =>
      split
      · next hnone =>
        have hparse : (parse? (QualifiedName.identifier path)).isSome := hR.legible hpath
        rw [hnone] at hparse
        cases hparse
      · next q hq =>
        split
        · next w hw =>
          exact ⟨_, _, rfl, h.quiet (h.coherent.remember hnew (.wellKnown hq hw)) (.refl _) rfl⟩
        · next hw hd =>
          exact ⟨_, _, rfl, h.quiet (h.coherent.remember hnew (.undefined hq hw hd)) (.refl _) rfl⟩
        · next definition hw hd =>
          exact h.importDefinition hR hs hpath ⟨hq, hw, hd⟩ hnew fun l hlt hl path' hpath' =>
            ih hl (by omega) hpath'

theorem Tracked.importRef (h : Tracked c roots R i) (hR : Passable c R) (hs : Unshared c roots)
    {path : String} (hpath : R (.reference path)) :
    ∃ e j, i.importRef c path = (.ok e, j) ∧ Onward c roots R i j := by
  have hle := unresolved_le c i
  exact h.followRef hR hs (by omega) hpath

/-! Bodies. -/

variable {b : BodyContext}

theorem Tracked.importField (h : Tracked c roots R i) (hR : Passable c R) (hs : Unshared c roots)
    (ht : i.model.Looks b.id t) {name : String} {declared : Schema} (hfield : b.keeps name = true →
      isCanonical c b name = false →
        R (.node t name (b.patch name).typeName (b.effective name declared))) :
    ∃ o j, importField c b i name declared = (.ok o, j) ∧ Onward c roots R i j := by
  rw [importField_eq]
  by_cases hkeep : b.keeps name = true
  · rw [if_pos hkeep, keptField]
    by_cases hc : isCanonical c b name = true
    · rw [isCanonical] at hc
      rw [if_pos hc]
      exact ⟨_, _, rfl, h.refl⟩
    · obtain ⟨e, j, hj, honward⟩ := h.importWith hR ht
        (hfield hkeep (by simpa using hc)) fun path hpath => h.importRef hR hs hpath
      have hproperty : importProperty c i b.id name (b.patch name).typeName
          ((b.patch name).schema.getD declared) = (.ok e, j) := hj
      rw [isCanonical] at hc
      rw [if_neg hc, hproperty]
      exact ⟨_, _, rfl, honward⟩
  · rw [if_neg hkeep]
    exact ⟨_, _, rfl, h.refl⟩

theorem Tracked.importFields (h : Tracked c roots R i) (hR : Passable c R) (hs : Unshared c roots)
    (ht : i.model.Looks b.id t) {fields : List (String × Schema)}
    (hfields : ∀ f ∈ fields, b.keeps f.1 = true → isCanonical c b f.1 = false →
      R (.node t f.1 (b.patch f.1).typeName (b.effective f.1 f.2))) :
    ∃ ps j, importFields c b i fields = (.ok ps, j) ∧ Onward c roots R i j := by
  induction fields generalizing i with
  | nil => exact ⟨_, _, rfl, h.refl⟩
  | cons field fields ih =>
    obtain ⟨name, declared⟩ := field
    obtain ⟨o, l, hl, hfirst⟩ := h.importField hR hs ht (hfields (name, declared) List.mem_cons_self)
    obtain ⟨ps, j, hj, hrest⟩ := ih hfirst.tracked (ht.mono hfirst.model) fun f hf =>
      hfields f (List.mem_cons_of_mem _ hf)
    rw [Importer.importFields, hl]
    simp only [hj]
    exact ⟨_, _, rfl, hfirst.trans hrest⟩

theorem Tracked.pop (h : Tracked c roots R i) (hp : i.pending = p :: rest) :
    Tracked c roots R { i with pending := rest } :=
  ⟨h.coherent.pop hp, fun p hmem => h.bodies p (hp ▸ List.mem_cons_of_mem _ hmem)⟩

theorem Tracked.readBody (h : Tracked c roots R i) (hR : Passable c R) (hs : Unshared c roots)
    (hp : i.pending = p :: rest) :
    ∃ j, importBody c { i with pending := rest } p = (.ok (), j) ∧ Tracked c roots R j := by
  obtain ⟨t, ht, hbody⟩ := h.bodies p (hp ▸ List.mem_cons_self)
  obtain ⟨t', ht', hface⟩ := ht.exists_entry
  have hcontext := contextOf_face (c := c) hface p.id 0 p.schema
  have hfields : ∀ f ∈ p.schema.properties, (contextOf c t' p).keeps f.1 = true →
      isCanonical c (contextOf c t' p) f.1 = false → R (.node t f.1
        ((contextOf c t' p).patch f.1).typeName ((contextOf c t' p).effective f.1 f.2)) := by
    intro f hf hkeep hc
    rw [hcontext] at hkeep hc ⊢
    exact hR.next hbody (.field hf hkeep hc)
  obtain ⟨ps, l, hl, honward⟩ := (h.pop hp).importFields hR hs ht hfields
  rw [importBody, bodyContext_eq ht', hl]
  have hcoherent := honward.tracked.coherent
  have hlabels := Model.sameLabels_setProperties l.model p.id ps
  exact ⟨_, rfl, (honward.tracked.quiet
    (hcoherent.relabel (hcoherent.ready.wellFormed.setProperties _ _) hlabels) hlabels.extends
      rfl).tracked⟩

/-- Where everything can be read, nothing but its length keeps a queue from being read. -/
theorem Tracked.run (h : Tracked c roots R i) (hR : Passable c R) (hs : Unshared c roots) (limit : Nat) :
    (run c limit i).1 = .ok () ∨ (run c limit i).1 = .error .endless := by
  induction limit generalizing i with
  | zero =>
    cases hp : i.pending with
    | nil => exact .inl (by rw [run_nil hp])
    | cons p rest => exact .inr (by rw [run_zero hp])
  | succ limit ih =>
    cases hp : i.pending with
    | nil => exact .inl (by rw [run_nil hp])
    | cons p rest =>
      obtain ⟨j, hj, htracked⟩ := h.readBody hR hs hp
      rw [run_succ_ok hp hj]
      exact ih htracked

/-! Calls. -/

theorem Tracked.registerRoot (h : Tracked c roots R i) (hs : Unshared c roots) {r : Root}
    (hr : r ∈ roots) (hbody : i.model.named? r.group r.name = none →
      R (.body (namedEntry r.group r.name r.kind r.schema.description) r.schema)) :
    ∃ id j, i.registerRoot r.group r.name r.kind r.schema = (id, j) ∧ Onward c roots R i j ∧
      (j.model.named? r.group r.name).isSome := by
  have hindexed := h.coherent.ready.wellFormed.indexed r.group r.name
  cases hf : i.model.find? r.group (r.group.qualify r.name) with
  | some id => exact ⟨id, i, registerRoot_known hf, h.refl, by rw [← hindexed, hf]; rfl⟩
  | none =>
    have hadds := h.coherent.adds_root hs hr hf
    have hroot := (h.coherent.enroll hs hr hf).2
    refine ⟨_, _, registerRoot_new hf, h.enqueue (j := i.enroll r) hadds.coherent hadds.extends rfl
      ⟨_, hroot.label, TypeEntry.label_face _⟩ (hbody (hindexed ▸ hf)), ?_⟩
    rw [show Model.named? ((i.enroll r).enqueue _ _).model _ _ = _ from hroot.named]
    rfl

theorem rootsOf_append (calls calls' : List Call) :
    rootsOf (calls ++ calls') = rootsOf calls ++ rootsOf calls' := by
  induction calls with
  | nil => rfl
  | cons call calls ih => cases call <;> simp [rootsOf, ih]

/-- A root is the first of its name if nothing has its name when it is registered. -/
theorem firstNamed_of_new {earlier later : List Root} {r : Root}
    (h : ∀ x ∈ earlier, ¬(x.group = r.group ∧ x.name = r.name)) :
    firstNamed (earlier ++ r :: later) r.group r.name = some r := by
  have hnone := firstNamed_eq_none.mpr h
  rw [firstNamed] at hnone ⊢
  simp [List.find?_append, hnone]

theorem Tracked.exists_calls (hR : Passable c R) (hs : Unshared c (rootsOf calls))
    (hbegins : ∀ w, Begins calls w → R w) {earlier later : List Call} (hcalls : calls = earlier ++ later)
    (h : Tracked c (rootsOf calls) R i)
    (hnamed : ∀ r ∈ rootsOf earlier, (i.model.named? r.group r.name).isSome) :
    ∃ j, Calls c i later j ∧ Tracked c (rootsOf calls) R j := by
  induction later generalizing earlier i with
  | nil => exact ⟨i, .nil i, h⟩
  | cons call later ih =>
    have hnext : calls = (earlier ++ [call]) ++ later := by simp [hcalls]
    have hmem : call ∈ calls := by simp [hcalls]
    have holder : ∀ {j}, Onward c (rootsOf calls) R i j →
        ∀ r ∈ rootsOf earlier, (j.model.named? r.group r.name).isSome := by
      intro j honward r hr
      obtain ⟨id, hid⟩ := Option.isSome_iff_exists.mp (hnamed r hr)
      rw [honward.model.named hid]
      rfl
    cases call with
    | reference path =>
      obtain ⟨e, l, hl, honward⟩ := h.importRef hR hs (hbegins _ (.reference hmem))
      obtain ⟨j, hj, htracked⟩ := ih hnext honward.tracked fun r hr =>
        holder honward r (by simpa [rootsOf_append, rootsOf] using hr)
      exact ⟨j, .reference hl hj, htracked⟩
    | root r =>
      have hroots : rootsOf calls = rootsOf earlier ++ r :: rootsOf later := by
        rw [hcalls, rootsOf_append, rootsOf]
      obtain ⟨id, l, hl, honward, hr⟩ := h.registerRoot hs (r := r) (by simp [hroots]) fun hnew => by
        refine hbegins _ (.root ?_)
        rw [hroots]
        refine firstNamed_of_new fun x hx hname => ?_
        have hx := hnamed x hx
        rw [hname.1, hname.2, hnew] at hx
        cases hx
      obtain ⟨j, hj, htracked⟩ := ih hnext honward.tracked fun x hx => by
        rw [rootsOf_append] at hx
        rcases List.mem_append.mp hx with hx | hx
        · exact holder honward x hx
        · obtain rfl := List.mem_singleton.mp hx
          exact hr
      exact ⟨j, .root hl hj, htracked⟩

end Importer

end SchemaCompiler
