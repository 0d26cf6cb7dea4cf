import SchemaCompiler.Proofs.Import.Completeness
import SchemaCompiler.Proofs.Import.Changes

/-! The contexts in which bodies are read. The overrides in effect for a type when its body is read give
its properties their field names, and nothing that is imported later changes them. Every object has its
body read. -/

namespace SchemaCompiler

namespace Importer

open Model (propertiesOf)

variable {c : ImportSettings} {i j k : Importer} {p : Pending} {b : BodyContext} {id : TypeId}
  {calls : List Call}

/-- The name of the field for a property, as the overrides have it. -/
def BodyContext.fieldName (b : BodyContext) (name : String) : String :=
  (b.patch name).fieldName.getD (Naming.fieldName name)

/-- Some bodies after `i` the next one in the queue is `p`, and it is read in the context `b`. -/
def ReadAs (c : ImportSettings) (i : Importer) (p : Pending) (b : BodyContext) : Prop :=
  ∃ n j rest, run c n i = (.error .endless, j) ∧ j.pending = p :: rest ∧ bodyContext c j.model p = b

theorem ReadAs.here {rest : List Pending} (hp : i.pending = p :: rest) :
    ReadAs c i p (bodyContext c i.model p) :=
  ⟨0, i, rest, run_zero hp, hp, rfl⟩

theorem ReadAs.later {q : Pending} {rest : List Pending} (hp : i.pending = q :: rest)
    (hbody : importBody c { i with pending := rest } q = (.ok (), j)) (h : ReadAs c j p b) :
    ReadAs c i p b := by
  obtain ⟨n, l, rest', hrun, hl, hb⟩ := h
  exact ⟨n + 1, l, rest', (run_succ_ok hp hbody n).trans hrun, hl, hb⟩

/-- Where the whole queue is read, a body that is read is the next or comes after the next. -/
theorem ReadAs.cases_read {q : Pending} {rest : List Pending} (h : ReadAs c i p b)
    (hp : i.pending = q :: rest)
    (hbody : importBody c { i with pending := rest } q = (.ok (), j)) :
    p = q ∧ bodyContext c i.model p = b ∨ ReadAs c j p b := by
  obtain ⟨n, l, rest', hrun, hl, hb⟩ := h
  cases n with
  | zero =>
    rw [run_zero hp] at hrun
    obtain rfl := (Prod.mk.inj hrun).2
    exact .inl ⟨(List.cons.inj (hl.symm.trans hp)).1, hb⟩
  | succ n => exact .inr ⟨n, l, rest', (run_succ_ok hp hbody n).symm.trans hrun, hl, hb⟩

theorem ReadAs.pending_ne_nil (h : ReadAs c i p b) : i.pending ≠ [] := by
  intro hp
  obtain ⟨n, l, rest, hrun, -⟩ := h
  rw [run_nil hp] at hrun
  cases (Prod.mk.inj hrun).1

/-! What a body leaves. -/

/-- The type of the body `p` has the properties that the context keeps, under the names that it has for
them. -/
structure Called (m : Model) (p : Pending) (b : BodyContext) : Prop where
  lt : p.id < m.types.size
  names : ∀ name, name ∈ (m.propertiesOf p.id).map Property.name ↔
    name ∈ p.schema.properties.map Prod.fst ∧ b.keeps name = true
  fieldName : ∀ x ∈ m.propertiesOf p.id, x.fieldName = b.fieldName x.name

theorem called_importBody (hi : i.Ready) (hp : p.id < i.model.types.size)
    (h : importBody c i p = (.ok (), j)) : Called j.model p (bodyContext c i.model p) := by
  obtain ⟨ps, l, hfields, rfl⟩ := importBody_ok h
  have hstep := hi.importFields (c := c) (b := bodyContext c i.model p) hp p.schema.properties
  rw [hfields] at hstep
  have hlt : p.id < l.model.types.size := Nat.lt_of_lt_of_le hp hstep.size_le
  have hproperties : (l.model.setProperties p.id ps).propertiesOf p.id = Property.sort ps := by
    rw [propertiesOf, Model.getElem?_setProperties, if_pos rfl, Array.getElem?_eq_getElem hlt]
    rfl
  have hnames : ps.map Property.name =
      (p.schema.properties.filter fun f => (bodyContext c i.model p).keeps f.1).map Prod.fst := by
    have hkeys := congrArg (List.map Prod.fst) (importFields_keys hfields)
    rwa [List.map_map, List.map_map] at hkeys
  have hperm : ((Property.sort ps).map Property.name).Perm (ps.map Property.name) :=
    (List.mergeSort_perm ps _).map Property.name
  refine ⟨Nat.lt_of_lt_of_eq hlt Model.size_amend.symm, fun name => ?_, fun x hx => ?_⟩
  · rw [hproperties, hperm.mem_iff, hnames, mem_kept_iff]
  · rw [hproperties] at hx
    rw [Property.fieldName, importFields_given hfields x (List.mem_mergeSort.mp hx), BodyContext.fieldName]

theorem Drains.properties (h : Drains c i k) (hi : i.Ready) (hid : id < i.model.types.size)
    (hp : id ∉ i.pending.map Pending.id) :
    id < k.model.types.size ∧ k.model.propertiesOf id = i.model.propertiesOf id := by
  induction h with
  | done => exact ⟨hid, rfl⟩
  | read hpending hbody _ ih =>
    obtain ⟨hrest, hlt, -⟩ := hi.pop hpending
    have hreads := hrest.importBody (c := c) hlt
    rw [hbody] at hreads
    rw [hpending, List.map_cons, List.mem_cons, not_or] at hp
    have hj := mt (hreads.mem_pending hid).mp hp.2
    obtain ⟨hlt, hsame⟩ := ih hreads.ready (Nat.lt_of_lt_of_le hid hreads.size_le) hj
    exact ⟨hlt, hsame.trans (congrArg (Option.getD · []) (hreads.properties hid hp.1))⟩

/-- What comes of a body stays as it is to the end. -/
theorem ReadAs.called (h : ReadAs c i p b) (hi : i.Ready) (hk : Drains c i k) : Called k.model p b := by
  induction hk with
  | done hp => exact absurd hp h.pending_ne_nil
  | @read i j k q rest hpending hbody hdrains ih =>
    obtain ⟨hrest, hlt, hfresh⟩ := hi.pop hpending
    have hreads := hrest.importBody (c := c) hlt
    rw [hbody] at hreads
    rcases h.cases_read hpending hbody with ⟨rfl, rfl⟩ | h
    · have hcalled := called_importBody hrest hlt hbody
      have hj := mt (hreads.mem_pending hlt).mp hfresh
      obtain ⟨hltk, hsame⟩ :=
        hdrains.properties hreads.ready (Nat.lt_of_lt_of_le hlt hreads.size_le) hj
      exact ⟨hltk, by rw [hsame]; exact hcalled.names, by rw [hsame]; exact hcalled.fieldName⟩
    · exact ih h hreads.ready

/-! Objects. -/

/-- The body of each object is in the queue. -/
def Backed (i : Importer) : Prop :=
  ∀ {key id}, i.model.Filed key id → id ∈ i.pending.map Pending.id

theorem Step.backed (h : Step i j) (hi : i.Backed) : j.Backed := by
  intro key id hid
  rcases h.objects hid with hid | hmem
  · obtain ⟨more, hmore, -⟩ := h.pending
    rw [hmore, List.map_append]
    exact List.mem_append_left _ (hi hid)
  · exact hmem

theorem Calls.step (h : Calls c i calls j) (hi : i.Ready) : Step i j := by
  induction h with
  | nil => exact .refl hi
  | @reference i j k path e calls hok _ ih =>
    have hfirst := hi.followRef (c := c) (c.definitions.length + 1) path
    rw [← importRef, hok] at hfirst
    exact hfirst.trans (ih hfirst.ready)
  | @root i j k r id calls hok _ ih =>
    have hfirst := hi.registerRoot r.group r.name r.kind r.schema
    rw [hok] at hfirst
    exact hfirst.trans (ih hfirst.ready)

theorem Calls.backed (h : Calls c {} calls i) : i.Backed := by
  refine (h.step ready_empty).backed fun {key id} hid => ?_
  obtain ⟨short, hb⟩ := hid
  simp [Model.bucket, Model.group?, Table.get?] at hb

/-- Objects are those whose bodies have been read already, and those whose bodies are read yet. -/
theorem Drains.objects_read (h : Drains c i k) (hi : i.Ready) (done : TypeId → Prop)
    (hdone : ∀ {key id}, i.model.Filed key id → done id ∨ id ∈ i.pending.map Pending.id)
    {key : GroupKey} (hid : k.model.Filed key id) : done id ∨ ∃ p b, p.id = id ∧ ReadAs c i p b := by
  induction h generalizing done with
  | done hp =>
    refine (hdone hid).imp_right fun hmem => ?_
    rw [hp] at hmem
    cases hmem
  | @read i j k q rest hpending hbody _ ih =>
    obtain ⟨hrest, hlt, -⟩ := hi.pop hpending
    have hreads := hrest.importBody (c := c) hlt
    rw [hbody] at hreads
    have hdonej : ∀ {key id}, j.model.Filed key id →
        (done id ∨ id = q.id) ∨ id ∈ j.pending.map Pending.id := by
      intro key id hid
      rcases hreads.objects hid with hid | hmem
      · rcases hdone hid with hd | hmem
        · exact .inl (.inl hd)
        · rw [hpending, List.map_cons, List.mem_cons] at hmem
          obtain ⟨more, hmore, -⟩ := hreads.pending
          refine hmem.imp .inr fun hmem => ?_
          rw [hmore, List.map_append]
          exact List.mem_append_left _ hmem
      · exact .inr hmem
    rcases ih hreads.ready _ hdonej hid with (hd | rfl) | ⟨p, b, hp, hread⟩
    · exact .inl hd
    · exact .inr ⟨q, _, rfl, .here hpending⟩
    · exact .inr ⟨p, b, hp, .later hpending hbody hread⟩

theorem Calls.makes (h : Calls c i calls j) : Makes i j := by
  induction h with
  | nil i => exact .refl i
  | @reference i j k path e calls hok _ ih =>
    have hfirst := makes_followRef (c := c) (c.definitions.length + 1) i path
    rw [← importRef, hok] at hfirst
    exact hfirst.trans ih
  | @root i j k r id calls hok _ ih =>
    have hfirst := makes_registerRoot i r.group r.name r.kind r.schema
    rw [hok] at hfirst
    exact hfirst.trans ih

end Importer

end SchemaCompiler
