import SchemaCompiler.Proofs.Import.Progress

/-! Reading the queue. A body that is read changes the object it belongs to and no other, so what comes
of a body is settled when its object is registered. -/

namespace SchemaCompiler

namespace Importer

variable {c : ImportSettings} {i j k : Importer} {p : Pending}

/-- Reading a body changes no object but its own. -/
structure Reads (i j : Importer) (p : Pending) : Prop where
  ready : j.Ready
  size_le : i.model.types.size ≤ j.model.types.size
  filed : ∀ {key id}, i.model.Filed key id → j.model.Filed key id ∧
    (id ≠ p.id → j.model.types[id]? = i.model.types[id]?)
  objects : ∀ {key id}, j.model.Filed key id → i.model.Filed key id ∨ id ∈ j.pending.map Pending.id
  properties : ∀ {id : TypeId}, id < i.model.types.size → id ≠ p.id →
    (j.model.types[id]?).map TypeEntry.properties = (i.model.types[id]?).map TypeEntry.properties
  pending : ∃ more, j.pending = i.pending ++ more ∧ ∀ q ∈ more, i.model.types.size ≤ q.id

theorem Step.reads (h : Step i j) (p : Pending) : Reads i j p :=
  ⟨h.ready, h.size_le, fun hid => ⟨(h.filed hid).1, fun _ => (h.filed hid).2⟩, h.objects,
    fun hid _ => h.properties hid, h.pending⟩

theorem Ready.importBody (h : i.Ready) (hp : p.id < i.model.types.size) :
    Reads i (importBody c i p).2 p := by
  have hfields := h.importFields (c := c) (b := bodyContext c i.model p) hp p.schema.properties
  rw [Importer.importBody]
  split
  · next e j he =>
    rw [he] at hfields
    exact hfields.reads p
  · next ps j he =>
    rw [he] at hfields
    have hsize : (j.model.setProperties p.id ps).types.size = j.model.types.size := Model.size_amend
    refine ⟨⟨hfields.ready.wellFormed.setProperties p.id ps, fun q hq => ?_,
      hfields.ready.pending_nodup⟩, ?_, fun {key id} hid => ?_, hfields.objects,
      fun {id} hid hne => ?_, hfields.pending⟩
    · rw [hsize]
      exact hfields.ready.pending_lt q hq
    · rw [hsize]
      exact hfields.size_le
    · obtain ⟨hfiled, hentry⟩ := hfields.filed hid
      refine ⟨hfiled, fun hne => ?_⟩
      change (j.model.amend p.id fun t => { t with properties := Property.sort ps }).types[id]? = _
      rw [Model.getElem?_amend, if_neg hne]
      exact hentry
    · change Option.map _ (j.model.amend p.id fun t =>
        { t with properties := Property.sort ps }).types[id]? = _
      rw [Model.getElem?_amend, if_neg hne]
      exact hfields.properties hid

theorem importBody_ok (h : importBody c i p = (.ok (), k)) :
    ∃ ps j, importFields c (bodyContext c i.model p) i p.schema.properties = (.ok ps, j) ∧
      k = { j with model := j.model.setProperties p.id ps } := by
  rw [importBody] at h
  split at h
  · cases (Prod.mk.inj h).1
  · next ps j he => exact ⟨ps, j, he, (Prod.mk.inj h).2.symm⟩

/-- What is known about a type that its body is for depends on the type alone. -/
theorem bodyContext_congr {m m' : Model} (h : m.types[p.id]? = m'.types[p.id]?) :
    bodyContext c m p = bodyContext c m' p := by
  simp only [bodyContext, isResource, overrideKeys, h]

theorem Ready.pop (h : i.Ready) {rest : List Pending} (hp : i.pending = p :: rest) :
    Ready { i with pending := rest } ∧ p.id < i.model.types.size ∧ p.id ∉ rest.map Pending.id := by
  have hnodup := h.pending_nodup
  rw [hp, List.map_cons, List.nodup_cons] at hnodup
  refine ⟨⟨h.wellFormed, fun q hq => h.pending_lt q ?_, hnodup.2⟩, h.pending_lt p ?_, hnodup.1⟩
  · rw [hp]
    exact List.mem_cons_of_mem _ hq
  · rw [hp]
    exact List.mem_cons_self

theorem run_nil (hp : i.pending = []) (limit : Nat) : run c limit i = (.ok (), i) := by
  rw [run.eq_def]
  simp only [hp]

theorem run_zero {rest : List Pending} (hp : i.pending = p :: rest) :
    run c 0 i = (.error .endless, i) := by
  rw [run.eq_def]
  simp only [hp]

theorem run_succ_ok {rest : List Pending} (hp : i.pending = p :: rest)
    (hbody : importBody c { i with pending := rest } p = (.ok (), j)) (limit : Nat) :
    run c (limit + 1) i = run c limit j := by
  rw [run.eq_def]
  simp only [hp, hbody]

theorem run_succ_error {rest : List Pending} {e : Error} (hp : i.pending = p :: rest)
    (hbody : importBody c { i with pending := rest } p = (.error e, j)) (limit : Nat) :
    run c (limit + 1) i = (.error e, j) := by
  rw [run.eq_def]
  simp only [hp, hbody]

/-- Bodies are read from the queue of `i` until it is empty, which leaves `k`. -/
inductive Drains (c : ImportSettings) : Importer → Importer → Prop where
  | done {i : Importer} (hp : i.pending = []) : Drains c i i
  | read {i j k : Importer} {p : Pending} {rest : List Pending} (hp : i.pending = p :: rest)
      (hbody : importBody c { i with pending := rest } p = (.ok (), j)) (h : Drains c j k) :
      Drains c i k

theorem drains_of_run {limit : Nat} (h : run c limit i = (.ok (), k)) : Drains c i k := by
  induction limit generalizing i with
  | zero =>
    cases hp : i.pending with
    | nil =>
      rw [run_nil hp] at h
      obtain rfl := (Prod.mk.inj h).2
      exact .done hp
    | cons p rest =>
      rw [run_zero hp] at h
      cases (Prod.mk.inj h).1
  | succ limit ih =>
    cases hp : i.pending with
    | nil =>
      rw [run_nil hp] at h
      obtain rfl := (Prod.mk.inj h).2
      exact .done hp
    | cons p rest =>
      cases hbody : importBody c { i with pending := rest } p with
      | mk r j =>
        cases r with
        | ok u =>
          rw [run_succ_ok hp hbody] at h
          exact .read hp hbody (ih h)
        | error e =>
          rw [run_succ_error hp hbody] at h
          cases (Prod.mk.inj h).1

theorem drain_single (hp : i.pending = [p])
    (hbody : importBody c { i with pending := [] } p = (.ok (), k)) (hk : k.pending = []) :
    i.drain c = (.ok (), k) := by
  have hlimit : stepLimit = (stepLimit - 1) + 1 := rfl
  rw [drain, hlimit, run_succ_ok hp hbody, run_nil hk]

/-- No body is put into the queue for a type that was there before. -/
theorem Reads.mem_pending (h : Reads i j p) {id : TypeId} (hid : id < i.model.types.size) :
    id ∈ j.pending.map Pending.id ↔ id ∈ i.pending.map Pending.id := by
  obtain ⟨more, hmore, hnew⟩ := h.pending
  rw [hmore, List.map_append, List.mem_append]
  refine or_iff_left fun hmem => ?_
  obtain ⟨q, hq, rfl⟩ := List.mem_map.mp hmem
  exact absurd hid (Nat.not_lt.mpr (hnew q hq))

/-- An object whose body is not in the queue stays as it is. -/
theorem Drains.keeps (h : Drains c i k) (hi : i.Ready) {key : GroupKey} {id : TypeId}
    (hid : i.model.Filed key id) (hp : id ∉ i.pending.map Pending.id) :
    k.model.types[id]? = i.model.types[id]? := by
  induction h with
  | done => rfl
  | read hpending hbody _ ih =>
    obtain ⟨hrest, hlt, -⟩ := hi.pop hpending
    have hreads := hrest.importBody (c := c) hlt
    rw [hbody] at hreads
    obtain ⟨hfiled, hentry⟩ := hreads.filed hid
    rw [hpending, List.map_cons, List.mem_cons, not_or] at hp
    have hj := mt (hreads.mem_pending (hi.filed_lt hid)).mp hp.2
    exact (ih hreads.ready hfiled hj).trans (hentry hp.1)

theorem Drains.reads (h : Drains c i k) (hi : i.Ready) {key : GroupKey}
    (hid : i.model.Filed key p.id) (hp : p ∈ i.pending) :
    ∃ (t : TypeEntry) (ps : List Property),
      k.model.types[p.id]? = some { t with properties := Property.sort ps } ∧
      ps.map (fun f => (f.name, f.required)) =
        ((bodyContext c i.model p).fields p.schema).map fun f => (f.1, f.2.2) := by
  induction h with
  | done hnil =>
    rw [hnil] at hp
    cases hp
  | @read i j k q rest hpending hbody hdrains ih =>
    obtain ⟨hrest, hlt, hfresh⟩ := hi.pop hpending
    have hreads := hrest.importBody (c := c) hlt
    rw [hbody] at hreads
    obtain ⟨hfiled, hentry⟩ := hreads.filed hid
    rw [hpending] at hp
    rcases List.mem_cons.mp hp with rfl | hp
    · -- the body itself is read, and nothing changes the object after that
      have hj := mt (hreads.mem_pending hlt).mp hfresh
      have hkeep := hdrains.keeps hreads.ready hfiled hj
      obtain ⟨ps, l, hfields, rfl⟩ := importBody_ok hbody
      have hstep := hrest.importFields (c := c) (b := bodyContext c i.model p) hlt
        p.schema.properties
      have hl : (importFields c (bodyContext c i.model p) { i with pending := rest }
        p.schema.properties).2 = l := by rw [hfields]
      rw [hl] at hstep
      have hlt' := Nat.lt_of_lt_of_le hlt hstep.size_le
      refine ⟨l.model.types[p.id], ps, ?_, ?_⟩
      · rw [hkeep]
        change (l.model.amend p.id fun t => { t with properties := Property.sort ps }).types[p.id]? = _
        rw [Model.getElem?_amend, if_pos rfl, Array.getElem?_eq_getElem hlt']
        rfl
      · rw [BodyContext.fields, List.map_map]
        exact importFields_keys hfields
    · have hne : p.id ≠ q.id := by
        intro heq
        exact hfresh (heq ▸ List.mem_map_of_mem hp)
      obtain ⟨more, hmore, -⟩ := hreads.pending
      have hmem : p ∈ j.pending := by
        rw [hmore]
        exact List.mem_append_left _ hp
      obtain ⟨t, ps, hk, hps⟩ := ih hreads.ready hfiled hmem
      refine ⟨t, ps, hk, ?_⟩
      rwa [bodyContext_congr (hentry hne)] at hps

/-- The states that importing goes through, from call to call and within a call. -/
inductive Reachable (c : ImportSettings) : Importer → Prop where
  | start : Reachable c {}
  | registerRoot {i : Importer} (h : Reachable c i) (group : GroupKey) (name : String)
      (kind : TypeKind) (schema : Schema) : Reachable c (i.registerRoot group name kind schema).2
  | importRef {i : Importer} (h : Reachable c i) (reference : String) :
      Reachable c (i.importRef c reference).2
  /-- The body of a definition that becomes a synonym is about to be imported. -/
  | synonym {i : Importer} (h : Reachable c i) (q : QualifiedName) (description : Option String)
      (key : String) (e : TypeExpr) :
      Reachable c ({ i with
        model := (i.model.registerNamed (GroupKey.of q) q.name (.synonym (.primitive .any))
          description).2 }.remember key e)
  | pop {i : Importer} (h : Reachable c i) {p : Pending} {rest : List Pending}
      (hp : i.pending = p :: rest) : Reachable c { i with pending := rest }
  | importProperty {i : Importer} (h : Reachable c i) {parent : TypeId}
      (hp : parent < i.model.types.size) (property : String) (typeName : Option String)
      (schema : Schema) : Reachable c (importProperty c i parent property typeName schema).2
  | setProperties {i : Importer} (h : Reachable c i) (id : TypeId) (ps : List Property) :
      Reachable c { i with model := i.model.setProperties id ps }

theorem Reachable.ready (h : Reachable c i) : i.Ready := by
  induction h with
  | start => exact ready_empty
  | registerRoot _ group name kind schema ih => exact (ih.registerRoot group name kind schema).ready
  | importRef _ reference ih => exact (ih.followRef _ reference).ready
  | synonym _ q description key e ih =>
    have hregister := ih.registerNamed (GroupKey.of q) q.name (.synonym (.primitive .any)) description
    exact (hregister.ready.remember key e).ready
  | pop _ hp ih => exact (ih.pop hp).1
  | importProperty _ hp property typeName schema ih =>
    exact (ih.importProperty hp property typeName schema).ready
  | setProperties _ id ps ih =>
    exact ih.withModel (ih.wellFormed.setProperties id ps) (Nat.le_of_eq Model.size_amend.symm)

end Importer

end SchemaCompiler
