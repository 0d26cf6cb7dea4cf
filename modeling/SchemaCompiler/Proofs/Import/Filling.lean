import SchemaCompiler.Proofs.Import.Growth

/-! What comes of the bodies of an import. A body stays in the queue until it is read, and what was read
from it is kept. -/

namespace SchemaCompiler

namespace Importer

variable {c : ImportSettings} {roots : List Root} {read current : List Pending} {i j k : Importer}
  {p : Pending} {rest : List Pending} {id : TypeId} {m m' : Model} {bodies bodies' : List Pending}
  {e : TypeExpr}

/-- The type of the body has the properties that come of its fields. -/
def Filled (c : ImportSettings) (m : Model) (bodies : List Pending) (p : Pending) : Prop :=
  ∃ t ps, m.types[p.id]? = some t ∧ t.properties = Property.sort ps ∧
    List.Forall₂ (FieldOf c m bodies (contextOf c t p))
      (p.schema.properties.filter fun f => (contextOf c t p).keeps f.1) ps

theorem Filled.mono (h : Filled c m bodies p) (hm : m.Extends m') (hb : bodies ⊆ bodies')
    (hp : m'.types[p.id]? = m.types[p.id]?) : Filled c m' bodies' p := by
  obtain ⟨t, ps, ht, hps, hfields⟩ := h
  exact ⟨t, ps, hp.trans ht, hps, hfields.imp fun _ _ hf => hf.mono hm hb⟩

/-- The state of an import in which the bodies `read` have been read and one, if any, is being read. -/
structure Full (c : ImportSettings) (roots : List Root) (read current : List Pending) (i : Importer) :
    Prop where
  coherent : Coherent c roots i
  lt : ∀ p ∈ read ++ current ++ i.pending, p.id < i.model.types.size
  nodup : ((read ++ current ++ i.pending).map Pending.id).Nodup
  owned : ∀ p ∈ read ++ current ++ i.pending, Sourced c roots p.schema ∧ Owned c roots i.model p
  settled : ∀ {key id definition}, Table.get? key i.resolved = some (.type id) →
    Table.get? key c.definitions = some definition →
      Settles c i.model (read ++ current ++ i.pending) definition id
  filled : ∀ p ∈ read, Filled c i.model (read ++ current ++ i.pending) p
  unread : ∀ {id t}, i.model.types[id]? = some t → id ∉ read.map Pending.id → t.properties = []
  bodied : ∀ {id t}, i.model.types[id]? = some t → t.isAnonymous = true →
    ∃ body, ⟨id, body⟩ ∈ read ++ current ++ i.pending

theorem full_empty (c : ImportSettings) (roots : List Root) : Full c roots [] [] {} where
  coherent := coherent_empty
  lt := by simp
  nodup := by simp
  owned := by simp
  settled := by simp [Table.get?]
  filled := by simp
  unread := by simp
  bodied := by simp

theorem Full.grow (h : Full c roots read current i) (hg : Grows c roots (read ++ current) i j) :
    Full c roots read current j := by
  obtain ⟨more, hmore, hnew⟩ := hg.pending
  have hbodies : read ++ current ++ j.pending = read ++ current ++ i.pending ++ more := by
    rw [hmore, List.append_assoc _ i.pending]
  have hsubset := hg.subset (read ++ current)
  refine ⟨hg.coherent, fun p hp => ?_, ?_, fun p hp => ?_, fun hid hd => ?_, fun p hp => ?_,
    fun {id t} ht hread => ?_, fun {id t} ht ha => ?_⟩
  · rw [hbodies] at hp
    rcases List.mem_append.mp hp with hp | hp
    · exact Nat.lt_of_lt_of_le (h.lt p hp) hg.size_le
    · exact hg.coherent.ready.pending_lt p (hmore ▸ List.mem_append_right _ hp)
  · rw [hbodies, List.map_append]
    have hpending := hg.coherent.ready.pending_nodup
    rw [hmore, List.map_append] at hpending
    refine List.nodup_append.mpr ⟨h.nodup, (List.nodup_append.mp hpending).2.1, ?_⟩
    rintro a ha b hb rfl
    obtain ⟨p, hp, rfl⟩ := List.mem_map.mp ha
    obtain ⟨p', hp', hid⟩ := List.mem_map.mp hb
    have hlt := h.lt p hp
    have hle := (hnew p' hp').1
    rw [hid] at hle
    exact absurd hlt (Nat.not_lt.mpr hle)
  · rw [hbodies] at hp
    rcases List.mem_append.mp hp with hp | hp
    · obtain ⟨hsource, howned⟩ := h.owned p hp
      exact ⟨hsource, howned.mono hg.extends⟩
    · exact (hnew p hp).2
  · rcases hg.settled hid hd with hi | hsettles
    · refine (h.settled hi hd).mono hg.extends hsubset ?_
      rw [Model.kind?, hg.same (h.coherent.resolved_lt hi), Model.kind?]
    · exact hsettles
  · have hlt := h.lt p (List.mem_append_left _ (List.mem_append_left _ hp))
    exact (h.filled p hp).mono hg.extends hsubset (hg.same hlt)
  · rcases Nat.lt_or_ge id i.model.types.size with hlt | hge
    · exact h.unread ((hg.same hlt).symm.trans ht) hread
    · exact (hg.fresh hge ht).1
  · rcases Nat.lt_or_ge id i.model.types.size with hlt | hge
    · obtain ⟨body, hb⟩ := h.bodied ((hg.same hlt).symm.trans ht) ha
      exact ⟨body, hsubset hb⟩
    · obtain ⟨body, hb⟩ := (hg.fresh hge ht).2 ha
      exact ⟨body, List.mem_append_right _ hb⟩

theorem Full.pop (h : Full c roots read [] i) (hp : i.pending = p :: rest) :
    Full c roots read [p] { i with pending := rest } := by
  have hbodies : read ++ [] ++ i.pending = read ++ [p] ++ rest := by simp [hp]
  obtain ⟨hcoherent, hlt, hnodup, howned, hsettled, hfilled, hunread, hbodied⟩ := h
  rw [hbodies] at hlt hnodup howned hfilled
  simp only [hbodies] at hsettled hbodied
  exact ⟨hcoherent.pop hp, hlt, hnodup, howned, hsettled, hfilled, hunread, hbodied⟩

theorem Full.fill (h : Full c roots read [p] i) {ps : List Property} {t : TypeEntry}
    (ht : i.model.types[p.id]? = some t)
    (hfields : List.Forall₂ (FieldOf c i.model (read ++ [p] ++ i.pending) (contextOf c t p))
      (p.schema.properties.filter fun f => (contextOf c t p).keeps f.1) ps) :
    Full c roots (read ++ [p]) [] { i with model := i.model.setProperties p.id ps } := by
  have hlabels := Model.sameLabels_setProperties i.model p.id ps
  have hextends := hlabels.extends
  have hbodies : read ++ [p] ++ [] ++ i.pending = read ++ [p] ++ i.pending := by simp
  have hentry : ∀ x : TypeId, (i.model.setProperties p.id ps).types[x]? = if x = p.id then
      some { t with properties := Property.sort ps } else i.model.types[x]? := by
    intro x
    rw [Model.getElem?_setProperties]
    split
    · next hx => rw [hx, ht]; rfl
    · rfl
  have hne : ∀ p' ∈ read, p'.id ≠ p.id := by
    intro p' hp' heq
    have hnodup := h.nodup
    simp only [List.map_append, List.append_assoc] at hnodup
    have hapart := (List.nodup_append.mp hnodup).2.2
    exact hapart _ (List.mem_map_of_mem hp') _ (List.mem_append_left _ List.mem_cons_self) heq
  refine ⟨h.coherent.relabel (h.coherent.ready.wellFormed.setProperties _ _) hlabels, ?_, ?_, ?_,
    fun hid hd => ?_, fun p' hp' => ?_, fun {id t'} ht' hread => ?_, fun {id t'} ht' ha => ?_⟩
  · simp only [hbodies, hlabels.size_eq]
    exact h.lt
  · rw [hbodies]
    exact h.nodup
  · rw [hbodies]
    intro p' hp'
    obtain ⟨hsource, howned⟩ := h.owned p' hp'
    exact ⟨hsource, howned.mono hextends⟩
  · rw [hbodies]
    exact (h.settled hid hd).mono hextends (fun _ hb => hb)
      (Model.kind?_setProperties _ _ _ _)
  · rw [hbodies]
    rcases List.mem_append.mp hp' with hp' | hp'
    · exact (h.filled p' hp').mono hextends (fun _ hb => hb) (by rw [hentry, if_neg (hne p' hp')])
    · obtain rfl := List.mem_singleton.mp hp'
      refine ⟨_, ps, by rw [hentry, if_pos rfl], rfl, ?_⟩
      exact hfields.imp fun _ _ hf => hf.mono hextends fun _ hb => hb
  · rw [hentry] at ht'
    rw [List.map_append, List.mem_append, not_or] at hread
    split at ht'
    · next hid => exact absurd (hid ▸ List.mem_cons_self) hread.2
    · exact h.unread ht' hread.1
  · rw [hbodies]
    rw [hentry] at ht'
    split at ht'
    · next hid =>
      obtain rfl := Option.some.inj ht'
      rw [← hid] at ht
      exact h.bodied ht ha
    · exact h.bodied ht' ha

/-- Every type is one that was asked for or is mentioned by an earlier one. -/
def Rooted (seeds : List TypeExpr) (i : Importer) : Prop :=
  ∀ id, id < i.model.types.size →
    (∃ e ∈ seeds, i.model.Mentioned (fun _ _ => False) e id) ∨ i.model.Held id

theorem rooted_empty : Rooted [] {} := fun _ h => absurd h (Nat.not_lt_zero _)

variable {seeds : List TypeExpr}

theorem Rooted.old (h : Rooted seeds i) (hsame : ∀ {x : TypeId}, x < i.model.types.size →
    j.model.types[x]? = i.model.types[x]?) (hid : id < i.model.types.size) :
    (∃ e ∈ seeds, j.model.Mentioned (fun _ _ => False) e id) ∨ j.model.Held id := by
  refine (h id hid).imp ?_ fun hheld => hheld.congr fun _ ha => hsame (Nat.lt_of_le_of_lt ha hid)
  rintro ⟨e, he, hmentioned⟩
  exact ⟨e, he, hmentioned.mono (fun _ _ h => h) (by rw [Model.kind?, hsame hid, Model.kind?])⟩

theorem Rooted.found {key : String} (h : Rooted seeds i) (hf : Found c roots read i key e j) :
    Rooted (seeds ++ [e]) j := by
  intro id hlt
  rcases Nat.lt_or_ge id i.model.types.size with hid | hge
  · refine (h.old hf.grows.same hid).imp_left ?_
    rintro ⟨e', he', hmentioned⟩
    exact ⟨e', List.mem_append_left _ he', hmentioned⟩
  · rcases hf.covers id hge hlt with hheld | hmentioned
    · exact .inr hheld
    · exact .inl ⟨e, List.mem_append_right _ List.mem_cons_self, hmentioned⟩

theorem Full.importRef (h : Full c roots read [] i) (hs : Unshared c roots) (hr : Rooted seeds i)
    {reference : String} (hok : i.importRef c reference = (.ok e, j)) :
    Full c roots read [] j ∧ Rooted (seeds ++ [e]) j ∧ i.model.Extends j.model ∧
      Meaning c j.model (QualifiedName.identifier reference) e := by
  have hf := h.coherent.found_followRef hs (read ++ []) hok
  exact ⟨h.grow hf.grows, hr.found hf, hf.grows.extends, hf.meaning⟩

theorem Full.effective_sourced (h : Full c roots read [p] i) {t : TypeEntry}
    (f : String × Schema) (hf : f ∈ p.schema.properties) :
    Sourced c roots ((contextOf c t p).effective f.1 f.2) := by
  rw [BodyContext.effective]
  cases hpatch : ((contextOf c t p).patch f.1).schema with
  | some schema => exact .replacement (mem_replacements rfl rfl hpatch) .refl
  | none =>
    have hp : p ∈ read ++ [p] ++ i.pending :=
      List.mem_append_left _ (List.mem_append_right _ List.mem_cons_self)
    exact (h.owned p hp).1.of_inside (.single (.property hf))

theorem Full.not_read (h : Full c roots read [p] i) : p.id ∉ read.map Pending.id := by
  intro hmem
  have hnodup := h.nodup
  simp only [List.map_append, List.append_assoc] at hnodup
  exact (List.nodup_append.mp hnodup).2.2 _ hmem _ (List.mem_append_left _ List.mem_cons_self) rfl

theorem Full.readBody (h : Full c roots read [] i) (hs : Unshared c roots) (hr : Rooted seeds i)
    (hp : i.pending = p :: rest)
    (hbody : importBody c { i with pending := rest } p = (.ok (), j)) :
    Full c roots (read ++ [p]) [] j ∧ Rooted seeds j ∧ i.model.Extends j.model ∧
      rest ⊆ j.pending := by
  have hpop := h.pop hp
  obtain ⟨ps, l, hfields, rfl⟩ := importBody_ok hbody
  have hlt : p.id < i.model.types.size := h.coherent.ready.pending_lt p (hp ▸ List.mem_cons_self)
  have ht := Array.getElem?_eq_getElem hlt
  have hb : bodyContext c i.model p = contextOf c i.model.types[p.id] p := bodyContext_eq ht
  rw [hb] at hfields
  have hfielded := hpop.coherent.fielded_importFields hs (read ++ [p]) hlt
    (fun f hf => hpop.effective_sourced f hf) hfields
  have hl := hpop.grow hfielded.grows
  have htl : l.model.types[p.id]? = some i.model.types[p.id] := (hfielded.grows.same hlt).trans ht
  have hnone := hpop.unread ht hpop.not_read
  refine ⟨hl.fill htl hfielded.fields, fun id hid => ?_,
    hfielded.grows.extends.trans (Model.sameLabels_setProperties _ _ _).extends, ?_⟩
  · have hid : id < l.model.types.size := Nat.lt_of_lt_of_eq hid Model.size_amend
    rcases Nat.lt_or_ge id i.model.types.size with hold | hge
    · refine (hr.old hfielded.grows.same hold).imp ?_ fun hheld => hheld.setProperties htl hnone ps
      rintro ⟨e, he, hmentioned⟩
      exact ⟨e, he, hmentioned.mono (fun _ _ h => h) (Model.kind?_setProperties _ _ _ _)⟩
    · refine .inr ?_
      rcases hfielded.covers id hge hid with hheld | ⟨f, hf, hmentioned⟩
      · exact hheld.setProperties htl hnone ps
      · have hentry : (l.model.setProperties p.id ps).types[p.id]? =
            some { i.model.types[p.id] with properties := Property.sort ps } := by
          rw [Model.getElem?_setProperties, if_pos rfl, htl]
          rfl
        exact ⟨Nat.lt_of_lt_of_le hlt hge, .property hentry (List.mem_mergeSort.mpr hf),
          hmentioned.mono (fun _ _ h => h) (Model.kind?_setProperties _ _ _ _)⟩
  · obtain ⟨more, hmore, -⟩ := hfielded.grows.pending
    change rest ⊆ l.pending
    rw [hmore]
    exact List.subset_append_left _ _

/-- The bodies are read from the queue of `i`, one after the other, until it is empty, which leaves
`k`. -/
inductive Empties (c : ImportSettings) : Importer → List Pending → Importer → Prop where
  | done {i : Importer} (hp : i.pending = []) : Empties c i [] i
  | read {i j k : Importer} {p : Pending} {rest bodies : List Pending} (hp : i.pending = p :: rest)
      (hbody : importBody c { i with pending := rest } p = (.ok (), j)) (h : Empties c j bodies k) :
      Empties c i (p :: bodies) k

theorem empties_of_run {limit : Nat} (h : run c limit i = (.ok (), k)) :
    ∃ bodies, Empties c i bodies k ∧ bodies.length ≤ limit := by
  induction limit generalizing i with
  | zero =>
    cases hp : i.pending with
    | nil =>
      rw [run_nil hp] at h
      obtain rfl := (Prod.mk.inj h).2
      exact ⟨[], .done hp, Nat.le_refl _⟩
    | cons p rest =>
      rw [run_zero hp] at h
      cases (Prod.mk.inj h).1
  | succ limit ih =>
    cases hp : i.pending with
    | nil =>
      rw [run_nil hp] at h
      obtain rfl := (Prod.mk.inj h).2
      exact ⟨[], .done hp, Nat.zero_le _⟩
    | cons p rest =>
      cases hbody : importBody c { i with pending := rest } p with
      | mk r j =>
        cases r with
        | error e =>
          rw [run_succ_error hp hbody] at h
          cases (Prod.mk.inj h).1
        | ok u =>
          rw [run_succ_ok hp hbody] at h
          obtain ⟨bodies, hempties, hlength⟩ := ih h
          exact ⟨p :: bodies, .read hp hbody hempties, Nat.succ_le_succ hlength⟩

theorem Empties.run (h : Empties c i bodies k) {limit : Nat} (hlimit : bodies.length ≤ limit) :
    run c limit i = (.ok (), k) := by
  induction h generalizing limit with
  | done hp => exact run_nil hp limit
  | @read i j k p rest bodies hp hbody h ih =>
    obtain ⟨limit, rfl⟩ := Nat.exists_eq_add_of_le' (Nat.lt_of_lt_of_le (Nat.zero_lt_succ _) hlimit)
    rw [run_succ_ok hp hbody]
    exact ih (Nat.le_of_succ_le_succ hlimit)

theorem Empties.unique {bodies' : List Pending} {k' : Importer} (h : Empties c i bodies k)
    (h' : Empties c i bodies' k') : bodies = bodies' ∧ k = k' := by
  induction h generalizing bodies' with
  | done hp =>
    cases h' with
    | done => exact ⟨rfl, rfl⟩
    | read hp' => cases hp.symm.trans hp'
  | read hp hbody _ ih =>
    cases h' with
    | done hp' => cases hp.symm.trans hp'
    | read hp' hbody' h' =>
      obtain ⟨rfl, rfl⟩ := List.cons.inj (hp.symm.trans hp')
      obtain rfl := (Prod.mk.inj (hbody.symm.trans hbody')).2
      obtain ⟨rfl, rfl⟩ := ih h'
      exact ⟨rfl, rfl⟩

/-- Every body that is taken from the queue is read, until there is none. -/
theorem Full.empties (h : Full c roots read [] i) (hs : Unshared c roots) (hr : Rooted seeds i)
    (hk : Empties c i bodies k) : k.pending = [] ∧ Full c roots (read ++ bodies) [] k ∧
      Rooted seeds k ∧ i.model.Extends k.model ∧ i.pending ⊆ bodies := by
  induction hk generalizing read with
  | done hp => exact ⟨hp, by rwa [List.append_nil], hr, .refl _, by simp [hp]⟩
  | @read i j k p rest bodies hp hbody _ ih =>
    obtain ⟨hj, hrj, hextends, hrest⟩ := h.readBody hs hr hp hbody
    obtain ⟨hk, hfull, hrk, hextendsk, hsubset⟩ := ih hj hrj
    rw [List.append_assoc, List.singleton_append] at hfull
    refine ⟨hk, hfull, hrk, hextends.trans hextendsk, ?_⟩
    rw [hp]
    exact List.cons_subset_cons _ (List.Subset.trans hrest hsubset)

end Importer

end SchemaCompiler
