import SchemaCompiler.Proofs.Model.Integrity

/-! What finalizing may touch. A turn of a group writes to three fields of its own objects and to its
own view; the rest of the model, the other fields of these objects with it, is as before. -/

namespace SchemaCompiler

/-- A group without what was computed about it. -/
def Group.unviewed (g : Group) : Group := { g with finalized := none }

namespace Model

variable {m m' : Model} {keys : List GroupKey} {key : GroupKey} {g : Group} {id : TypeId}

def unviewed (m : Model) : Table GroupKey Group := m.groups.map fun e => (e.1, e.2.unviewed)

/-- `m'` is `m` but for the names and redirects of objects of the groups `keys`, and the views of
these groups. -/
structure Confined (keys : List GroupKey) (m m' : Model) : Prop where
  size : m'.types.size = m.types.size
  index : m'.index = m.index
  unviewed : m'.unviewed = m.unviewed
  others : ∀ k, k ∉ keys → m'.group? k = m.group? k
  content : ∀ i : TypeId, (m'.types[i]?).map TypeEntry.content = (m.types[i]?).map TypeEntry.content
  objects : ∀ i : TypeId, m'.types[i]? ≠ m.types[i]? → ∃ k ∈ keys, m.Filed k i

theorem Confined.refl (keys : List GroupKey) (m : Model) : Confined keys m m :=
  ⟨rfl, rfl, rfl, fun _ _ => rfl, fun _ => rfl, fun _ hi => absurd rfl hi⟩

theorem map_group?_unviewed (k : GroupKey) :
    (m.group? k).map Group.unviewed = Table.get? k m.unviewed :=
  (Table.get?_map Group.unviewed k m.groups).symm

/-- A view changes nothing else in the tables of the groups. -/
theorem WellFormed.unviewed_setFinalized (h : m.WellFormed) (hg : m.group? key = some g)
    (view : FinalizedGroup) : (m.setFinalized key g view).unviewed = m.unviewed := by
  have hordered : ∀ {m : Model}, m.WellFormed → Table.Ordered m.unviewed := fun hm =>
    List.pairwise_map.mpr hm.ordered
  refine (hordered (h.setFinalized hg)).ext (hordered h) fun k => ?_
  rw [← map_group?_unviewed, ← map_group?_unviewed, group?_setFinalized]
  by_cases hk : k = key
  · rw [if_pos hk, hk, hg]
    rfl
  · rw [if_neg hk]

theorem WellFormed.confined_finalizeGroup (h : m.WellFormed) (key : GroupKey) :
    Confined [key] m (m.finalizeGroup key) := by
  cases hg : m.group? key with
  | none =>
    rw [finalizeGroup_absent hg]
    exact .refl _ m
  | some g =>
    have hreconcile := (h.group?_reconcile hg key).trans hg
    have hgroups : (m.reconcile g).groups = m.groups :=
      (h.reconcile_renames hg).groups.trans (h.merging hg).groups
    refine ⟨size_eq_of_map (h.content_finalizeGroup key), h.index_finalizeGroup key, ?_, ?_,
      h.content_finalizeGroup key, ?_⟩
    · rw [finalizeGroup_eq hg, (h.reconcile hg).unviewed_setFinalized hreconcile, Model.unviewed,
        hgroups, Model.unviewed]
    · intro k hk
      exact (finalizeGroup_spares h fun he => hk (by simp [he])).group?
    · intro i hi
      refine ⟨key, List.mem_singleton_self key, (h.mem_objects hg).mp ?_⟩
      by_contra hout
      apply hi
      rw [types_finalizeGroup hg, (h.reconcile_renames hg).outside i hout,
        (h.merging hg).getElem?_outside hout]

/-- Types that have a name of their own are as before, whatever had its turn. -/
theorem Confined.named (h : Confined keys m m') (hm : m.WellFormed) {k : GroupKey} {name : String}
    (hid : m.named? k name = some id) : m'.types[id]? = m.types[id]? := by
  by_contra hne
  obtain ⟨k', -, short, hs⟩ := h.objects id hne
  exact hm.apart hid hs

/-- Types of the groups that had no turn are as before. -/
theorem Confined.elsewhere (h : Confined keys m m') (hm : m.WellFormed)
    (hid : ∀ k ∈ keys, m.groupOf? id ≠ some k) : m'.types[id]? = m.types[id]? := by
  by_contra hne
  obtain ⟨k, hk, short, hs⟩ := h.objects id hne
  exact hid k hk (hm.filed hs)

theorem WellFormed.object_change (h : m.WellFormed) {c : Change} (hc : ∀ kind, c ≠ .setKind id kind)
    (hold : m.Filed key id → ∃ parent property, m.kind? id = some (.anonymous parent property))
    (hid : (m.change c).Filed key id) :
    ∃ parent property, (m.change c).kind? id = some (.anonymous parent property) := by
  obtain ⟨short, hs⟩ := hid
  cases c with
  | registerNamed group name kind description =>
    rw [Model.change, bucket_registerNamed] at hs
    cases hf : m.find? group (group.qualify name) with
    | some _ =>
      rw [Model.change, registerNamed_known hf]
      exact hold ⟨short, hs⟩
    | none =>
      have hne := Nat.ne_of_lt (h.lt_size hs)
      rw [Model.change, kind?_push (types_registerNamed_new hf kind description), if_neg hne]
      exact hold ⟨short, hs⟩
  | registerAnonymous parent property typeName description =>
    cases hp : m.types[parent]? with
    | none =>
      rw [Model.change, registerAnonymous_orphan hp] at hs ⊢
      exact hold ⟨short, hs⟩
    | some above =>
      have htypes := types_registerAnonymous_new hp property typeName description
      rw [Model.change, kind?_push htypes]
      by_cases hnew : id = m.types.size
      · exact ⟨parent, property, if_pos hnew⟩
      · rw [if_neg hnew]
        rw [Model.change, mem_bucket_registerAnonymous hp] at hs
        exact hold ⟨short, hs.resolve_right fun hlast => hnew hlast.1⟩
  | setProperties i properties =>
    rw [Model.change, kind?_setProperties]
    exact hold ⟨short, hs⟩
  | setKind i kind =>
    have hne : id ≠ i := by
      rintro rfl
      exact hc kind rfl
    rw [Model.change, kind?_setKind_of_ne kind hne]
    exact hold ⟨short, hs⟩
  | finalizeGroup k =>
    rw [Model.change, h.kind?_finalizeGroup]
    rw [Model.change, h.bucket_finalizeGroup] at hs
    exact hold ⟨short, hs⟩
  | finalize =>
    rw [Model.change, h.kind?_finalize]
    rw [Model.change, h.bucket_finalize] at hs
    exact hold ⟨short, hs⟩

/-- What is filed as an object is of the kind of objects until it is given another. -/
theorem kind?_of_filed {cs : List Change} (hid : (ofChanges cs).Filed key id)
    (hcs : ∀ kind, .setKind id kind ∉ cs) :
    ∃ parent property, (ofChanges cs).kind? id = some (.anonymous parent property) := by
  induction cs using List.reverseRecOn with
  | nil =>
    obtain ⟨short, hs⟩ := hid
    simp [ofChanges, bucket, group?, Table.get?] at hs
  | append_singleton cs c ih =>
    rw [ofChanges_append] at hid ⊢
    refine (wellFormed_ofChanges cs).object_change (fun kind hc => ?_) (fun hold => ?_) hid
    · exact hcs kind (List.mem_append_right _ (by simp [hc]))
    · exact ih hold fun kind hc => hcs kind (List.mem_append_left _ hc)

/-- Finalizing a group reaches its own objects only, which are of the kind of objects unless that was
changed, and of these only names and redirects. A group that the model does not have changes nothing. -/
theorem finalizeGroup_confined (cs : List Change) (key : GroupKey) :
    Confined [key] (ofChanges cs) ((ofChanges cs).finalizeGroup key) ∧
    (∀ i : TypeId, ((ofChanges cs).finalizeGroup key).types[i]? ≠ (ofChanges cs).types[i]? →
      (ofChanges cs).Filed key i ∧ ((∀ kind, .setKind i kind ∉ cs) →
        ∃ parent property, (ofChanges cs).kind? i = some (.anonymous parent property))) ∧
    (∀ k name id, (ofChanges cs).named? k name = some id →
      ((ofChanges cs).finalizeGroup key).types[id]? = (ofChanges cs).types[id]?) ∧
    (∀ id, (ofChanges cs).groupOf? id ≠ some key →
      ((ofChanges cs).finalizeGroup key).types[id]? = (ofChanges cs).types[id]?) ∧
    ((ofChanges cs).group? key = none → (ofChanges cs).finalizeGroup key = ofChanges cs) := by
  have hwf := wellFormed_ofChanges cs
  have hconfined := hwf.confined_finalizeGroup key
  refine ⟨hconfined, ?_, ?_, ?_, finalizeGroup_absent⟩
  · intro i hi
    obtain ⟨k, hk, hfiled⟩ := hconfined.objects i hi
    obtain rfl := List.mem_singleton.mp hk
    exact ⟨hfiled, kind?_of_filed hfiled⟩
  · exact fun k name id hid => hconfined.named hwf hid
  · intro id hid
    refine hconfined.elsewhere hwf fun k hk => ?_
    rwa [List.mem_singleton.mp hk]

end Model

end SchemaCompiler
