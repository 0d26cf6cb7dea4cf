import Mathlib.Data.List.Induction
import Mathlib.Logic.Relation
import SchemaCompiler.Proofs.Model.Equals
import SchemaCompiler.Proofs.Model.Label

/-! The stores of a model, its arena, the tables of its groups and its index, after any changes but to
kinds. A type is on one shelf, an object is declared under a type that was there before it, and the
redirects of merged types lead down to types that stand for themselves. -/

namespace SchemaCompiler

/-- Where a group keeps a type: under a name of its own, or with the objects of a short name. -/
inductive Shelf where
  | name (key : GroupKey) (name : String)
  | bucket (key : GroupKey) (short : String)

def Shelf.key : Shelf → GroupKey
  | name key _ => key
  | bucket key _ => key

namespace Model

variable {m m' : Model} {key : GroupKey} {id : TypeId}

def Shelves (m : Model) (id : TypeId) : Shelf → Prop
  | .name key name => m.named? key name = some id
  | .bucket key short => id ∈ m.bucket key short

structure Intact (m : Model) : Prop where
  placed : ∀ id, id < m.types.size → ∃! p, m.Shelves id p
  held : ∀ {id p}, m.Shelves id p → m.groupOf? id = some p.key
  once : ∀ key short, (m.bucket key short).Nodup
  named : ∀ {key name id}, m.named? key name = some id → ∃ t, m.types[id]? = some t ∧
    t.name = name ∧ t.qualified = key.qualify name
  indexed : ∀ {key qualified id}, m.find? key qualified = some id ↔
    ∃ name, qualified = key.qualify name ∧ m.named? key name = some id
  known : ∀ {key name id}, m.named? key name = some id → ∀ kind description,
    m.registerNamed key name kind description = (id, m)
  parent : ∀ {key id}, m.Filed key id → ∃ parent property,
    m.kind? id = some (.anonymous parent property) ∧ parent < id ∧ m.groupOf? parent = some key
  merged : ∀ {id r}, m.mergedInto? id = some r → ∃ key short,
    id ∈ m.bucket key short ∧ r ∈ m.bucket key short ∧
      (m.fullNameOf r < m.fullNameOf id ∨ m.fullNameOf r = m.fullNameOf id ∧ r < id)
  /-- No redirects go on forever. -/
  descends : WellFounded fun r id => m.mergedInto? id = some r
  leads : ∀ id, Relation.ReflTransGen (fun i r => m.mergedInto? i = some r) id (m.resolve id)
  live : ∀ id, m.isLive (m.resolve id) = true
  group : ∀ id, m.groupOf? (m.resolve id) = m.groupOf? id
  settled : ∀ id, m.resolve (m.resolve id) = m.resolve id

/-! Shelves and redirects, which follow from the model being well-formed. -/

theorem WellFormed.shelves_unique (h : m.WellFormed) {p q : Shelf} (hp : m.Shelves id p)
    (hq : m.Shelves id q) : p = q := by
  cases p with
  | name key name =>
    cases q with
    | name key' name' =>
      obtain ⟨t, ht, rfl, rfl, -⟩ := h.named hp
      obtain ⟨t', ht', rfl, rfl, -⟩ := h.named hq
      rw [Option.some.inj (ht.symm.trans ht')]
    | bucket key' short => exact absurd hq (h.apart hp)
  | bucket key short =>
    cases q with
    | name key' name => exact absurd hp (h.apart hq)
    | bucket key' short' =>
      obtain rfl : key = key' := Option.some.inj ((h.filed hp).symm.trans (h.filed hq))
      rw [h.filed_once hp hq]

theorem WellFormed.exists_shelves (h : m.WellFormed) (hid : id < m.types.size) :
    ∃ p, m.Shelves id p := by
  rcases h.placed (Array.getElem?_eq_getElem hid) with hn | ⟨short, hs⟩
  · exact ⟨.name _ _, hn⟩
  · exact ⟨.bucket _ short, hs⟩

theorem WellFormed.groupOf?_shelves (h : m.WellFormed) {p : Shelf} (hp : m.Shelves id p) :
    m.groupOf? id = some p.key := by
  cases p with
  | name key name =>
    obtain ⟨t, ht, hg, -⟩ := h.named hp
    rw [groupOf?, ht, Option.map_some, hg]
    rfl
  | bucket key short => exact h.filed hp

theorem WellFormed.wellFounded_redirects (h : m.WellFormed) :
    WellFounded fun r id => m.mergedInto? id = some r :=
  Subrelation.wf (fun hr => h.rank_lt hr) (measure m.rank).wf

theorem WellFormed.redirects_to_resolve (h : m.WellFormed) (id : TypeId) :
    Relation.ReflTransGen (fun i r => m.mergedInto? i = some r) id (m.resolve id) := by
  induction id using h.induction_on with
  | live id hm =>
    rw [resolve_of_live hm]
  | merged id r hm ih =>
    rw [h.resolve_of_merged hm]
    exact ih.head hm

/-! The index lists full names of named types only. -/

/-- Every name in the index was made of a group and a name. -/
def Qualified (m : Model) : Prop := ∀ r ∈ m.index, ∃ name, r.qualified = r.group.qualify name

theorem WellFormed.index_finalizeGroup (h : m.WellFormed) (k : GroupKey) :
    (m.finalizeGroup k).index = m.index := by
  cases hg : m.group? k with
  | none => rw [finalizeGroup_absent hg]
  | some g =>
    rw [finalizeGroup_eq hg]
    exact (h.reconcile_renames hg).index.trans (h.merging hg).index

theorem WellFormed.index_foldl (h : m.WellFormed) (keys : List GroupKey) :
    (keys.foldl Model.finalizeGroup m).index = m.index := by
  induction keys generalizing m with
  | nil => rfl
  | cons k keys ih => rw [List.foldl_cons, ih (h.finalizeGroup k), h.index_finalizeGroup]

theorem WellFormed.index_finalize (h : m.WellFormed) : m.finalize.index = m.index :=
  h.index_foldl m.keys

theorem Qualified.change (hq : m.Qualified) (h : m.WellFormed) (c : Change) :
    (m.change c).Qualified := by
  have hsame : ∀ {m' : Model}, m'.index = m.index → m'.Qualified := by
    intro m' hi r hr
    rw [hi] at hr
    exact hq r hr
  cases c with
  | registerNamed group name kind description =>
    cases hf : m.find? group (group.qualify name) with
    | some id =>
      refine hsame ?_
      rw [Model.change, registerNamed_known hf]
    | none =>
      intro r hr
      rw [Model.change, registerNamed_new hf] at hr
      rcases List.mem_append.mp hr with hr | hr
      · exact hq r hr
      · obtain rfl := List.mem_singleton.mp hr
        exact ⟨name, rfl⟩
  | registerAnonymous parent property typeName description =>
    exact hsame (index_registerAnonymous m parent property typeName description)
  | setProperties id properties => exact hsame rfl
  | setKind id kind => exact hsame rfl
  | finalizeGroup k => exact hsame (h.index_finalizeGroup k)
  | finalize => exact hsame h.index_finalize

theorem qualified_ofChanges (cs : List Change) : (ofChanges cs).Qualified := by
  induction cs using List.reverseRecOn with
  | nil => simp [ofChanges, Qualified]
  | append_singleton cs c ih =>
    rw [ofChanges_append]
    exact ih.change (wellFormed_ofChanges cs) c

theorem WellFormed.find?_eq_some_iff (h : m.WellFormed) (hq : m.Qualified) {qualified : String} :
    m.find? key qualified = some id ↔
      ∃ name, qualified = key.qualify name ∧ m.named? key name = some id := by
  constructor
  · intro hf
    obtain ⟨r, hr, -⟩ := Option.map_eq_some_iff.mp hf
    have hfound := List.find?_some hr
    rw [Bool.and_eq_true, beq_iff_eq, beq_iff_eq] at hfound
    obtain ⟨hg, hn⟩ := hfound
    obtain ⟨name, hname⟩ := hq r (List.mem_of_find?_eq_some hr)
    rw [hg, hn] at hname
    refine ⟨name, hname, ?_⟩
    rwa [← h.indexed, ← hname]
  · rintro ⟨name, rfl, hid⟩
    rwa [h.indexed]

/-! Kinds. -/

theorem WellFormed.kind?_finalizeGroup (h : m.WellFormed) (k : GroupKey) (i : TypeId) :
    (m.finalizeGroup k).kind? i = m.kind? i := by
  have hcontent := congrArg (Option.map TypeEntry.kind) (h.content_finalizeGroup k i)
  rwa [Option.map_map, Option.map_map] at hcontent

theorem WellFormed.kind?_finalize (h : m.WellFormed) (i : TypeId) :
    m.finalize.kind? i = m.kind? i := by
  have hcontent := congrArg (Option.map TypeEntry.kind) (h.content_finalize i)
  rwa [Option.map_map, Option.map_map] at hcontent

theorem groupOf?_setProperties (i id : TypeId) (ps : List Property) :
    (m.setProperties id ps).groupOf? i = m.groupOf? i :=
  groupOf?_amend (m := m) (f := fun t => { t with properties := Property.sort ps }) (fun _ => rfl) i

theorem kind?_push {t : TypeEntry} (h : m'.types = m.types.push t) (i : TypeId) :
    m'.kind? i = if i = m.types.size then some t.kind else m.kind? i := by
  rw [kind?, h, Array.getElem?_push]
  by_cases hi : i = m.types.size <;> simp [hi, kind?]

/-- Every object is declared under a type of its group that was registered before it. -/
def Parented (m : Model) : Prop :=
  ∀ key id, m.Filed key id → ∃ parent property,
    m.kind? id = some (.anonymous parent property) ∧ parent < id ∧ m.groupOf? parent = some key

/-- Types added without being filed make no difference. -/
theorem Parented.congr (hp : m.Parented) (h : m.WellFormed)
    (hbucket : ∀ key short, m'.bucket key short = m.bucket key short)
    (hkind : ∀ i < m.types.size, m'.kind? i = m.kind? i)
    (hgroup : ∀ i < m.types.size, m'.groupOf? i = m.groupOf? i) : m'.Parented := by
  rintro key id ⟨short, hid⟩
  rw [hbucket] at hid
  have hlt := h.lt_size hid
  obtain ⟨parent, property, hk, hpar, hg⟩ := hp key id ⟨short, hid⟩
  refine ⟨parent, property, (hkind id hlt).trans hk, hpar, ?_⟩
  exact (hgroup parent (hpar.trans hlt)).trans hg

theorem Parented.registerAnonymous (hp : m.Parented) (h : m.WellFormed) (parent : TypeId)
    (property : String) (typeName description : Option String) :
    (m.registerAnonymous parent property typeName description).2.Parented := by
  cases habove : m.types[parent]? with
  | none => rwa [registerAnonymous_orphan habove]
  | some above =>
    have htypes := types_registerAnonymous_new habove property typeName description
    generalize hm' : (m.registerAnonymous parent property typeName description).2 = m' at *
    have hlt : parent < m.types.size := (Array.getElem?_eq_some_iff.mp habove).1
    rintro key id ⟨short, hid⟩
    rw [← hm', mem_bucket_registerAnonymous habove] at hid
    rcases hid with hid | ⟨rfl, rfl, -⟩
    · have hidlt := h.lt_size hid
      obtain ⟨par, prop, hk, hpar, hg⟩ := hp key id ⟨short, hid⟩
      refine ⟨par, prop, ?_, hpar, ?_⟩
      · rw [kind?_push htypes, if_neg (Nat.ne_of_lt hidlt), hk]
      · rw [groupOf?_push htypes, if_neg (Nat.ne_of_lt (hpar.trans hidlt)), hg]
    · refine ⟨parent, property, ?_, hlt, ?_⟩
      · rw [kind?_push htypes, if_pos rfl]
        rfl
      · rw [groupOf?_push htypes, if_neg (Nat.ne_of_lt hlt), groupOf?, habove]
        rfl

theorem Parented.change (hp : m.Parented) (h : m.WellFormed) {c : Change}
    (hc : ∀ id kind, c ≠ .setKind id kind) : (m.change c).Parented := by
  cases c with
  | registerNamed group name kind description =>
    cases hf : m.find? group (group.qualify name) with
    | some id => rwa [Model.change, registerNamed_known hf]
    | none =>
      have htypes := types_registerNamed_new hf kind description
      refine hp.congr h (bucket_registerNamed m group name kind description) (fun i hi => ?_)
        fun i hi => ?_
      · exact (kind?_push htypes i).trans (if_neg (Nat.ne_of_lt hi))
      · exact (groupOf?_push htypes i).trans (if_neg (Nat.ne_of_lt hi))
  | registerAnonymous parent property typeName description =>
    exact hp.registerAnonymous h parent property typeName description
  | setProperties id properties =>
    exact hp.congr h (fun _ _ => rfl) (fun i _ => kind?_setProperties m id properties i)
      fun i _ => groupOf?_setProperties i id properties
  | setKind id kind => exact absurd rfl (hc id kind)
  | finalizeGroup k =>
    exact hp.congr h (h.bucket_finalizeGroup k) (fun i _ => h.kind?_finalizeGroup k i)
      fun i _ => h.groupOf?_finalizeGroup k i
  | finalize =>
    exact hp.congr h h.bucket_finalize (fun i _ => h.kind?_finalize i)
      fun i _ => h.groupOf?_finalize i

theorem parented_ofChanges {cs : List Change} (hcs : ∀ id kind, .setKind id kind ∉ cs) :
    (ofChanges cs).Parented := by
  induction cs using List.reverseRecOn with
  | nil =>
    rintro key id ⟨short, hid⟩
    simp [ofChanges, bucket, group?, Table.get?] at hid
  | append_singleton cs c ih =>
    rw [ofChanges_append]
    refine (ih fun id kind hc => ?_).change (wellFormed_ofChanges cs) fun id kind hc => ?_
    · exact hcs id kind (List.mem_append_left _ hc)
    · exact hcs id kind (List.mem_append_right _ (by simp [hc]))

/-- A type of the kind of objects is filed as one, unless one of `cs` registered it by name as such. -/
def Declares (cs : List Change) (m : Model) : Prop :=
  ∀ id parent property, m.kind? id = some (.anonymous parent property) →
    (∃ key, m.Filed key id) ∨ ∃ key name description, m.named? key name = some id ∧
      .registerNamed key name (.anonymous parent property) description ∈ cs

theorem Declares.congr {cs cs' : List Change} (hd : Declares cs m) (hsub : cs ⊆ cs')
    (hbucket : ∀ {key short id}, id ∈ m.bucket key short → id ∈ m'.bucket key short)
    (hnamed : ∀ {key name id}, m.named? key name = some id → m'.named? key name = some id)
    {parent : TypeId} {property : String} (hk : m.kind? id = some (.anonymous parent property)) :
    (∃ key, m'.Filed key id) ∨ ∃ key name description, m'.named? key name = some id ∧
      .registerNamed key name (.anonymous parent property) description ∈ cs' := by
  rcases hd id parent property hk with ⟨key, short, hs⟩ | ⟨key, name, description, hn, hc⟩
  · exact .inl ⟨key, short, hbucket hs⟩
  · exact .inr ⟨key, name, description, hnamed hn, hsub hc⟩

theorem Declares.change {cs : List Change} (hd : Declares cs m) (h : m.WellFormed) {c : Change}
    (hc : ∀ id kind, c ≠ .setKind id kind) : Declares (cs ++ [c]) (m.change c) := by
  have hsub : cs ⊆ cs ++ [c] := List.subset_append_left cs [c]
  have hkept := fun {key name id} (hid : m.named? key name = some id) => h.named?_change hid c
  have hsame : (∀ key short, (m.change c).bucket key short = m.bucket key short) →
      (∀ i, (m.change c).kind? i = m.kind? i) → Declares (cs ++ [c]) (m.change c) := by
    intro hbucket hkind id parent property hk
    rw [hkind] at hk
    exact hd.congr hsub (fun hs => by rwa [hbucket]) hkept hk
  cases c with
  | registerNamed group name kind description =>
    cases hf : m.find? group (group.qualify name) with
    | some id =>
      have hm : m.change (.registerNamed group name kind description) = m := by
        rw [Model.change, registerNamed_known hf]
      exact hsame (fun _ _ => by rw [hm]) fun _ => by rw [hm]
    | none =>
      intro id parent property hk
      have htypes := types_registerNamed_new hf kind description
      rw [Model.change, kind?_push htypes] at hk
      by_cases hid : id = m.types.size
      · rw [if_pos hid] at hk
        obtain rfl : kind = .anonymous parent property := Option.some.inj hk
        refine .inr ⟨group, name, description, ?_, by simp⟩
        rw [Model.change, named?_registerNamed_new hf, if_pos ⟨rfl, rfl⟩, hid]
      · rw [if_neg hid] at hk
        refine hd.congr hsub (fun hs => ?_) hkept hk
        rwa [Model.change, bucket_registerNamed]
  | registerAnonymous parent property typeName description =>
    cases hp : m.types[parent]? with
    | none =>
      have hm : m.change (.registerAnonymous parent property typeName description) = m := by
        rw [Model.change, registerAnonymous_orphan hp]
      exact hsame (fun _ _ => by rw [hm]) fun _ => by rw [hm]
    | some above =>
      intro id par prop hk
      rw [Model.change, kind?_push (types_registerAnonymous_new hp property typeName description)]
        at hk
      by_cases hid : id = m.types.size
      · refine .inl ⟨above.group, (objectEntry above parent property typeName description).name, ?_⟩
        exact (mem_bucket_registerAnonymous hp ..).mpr (.inr ⟨hid, rfl, rfl⟩)
      · rw [if_neg hid] at hk
        exact hd.congr hsub (fun hs => (mem_bucket_registerAnonymous hp ..).mpr (.inl hs)) hkept hk
  | setProperties id properties =>
    exact hsame (fun _ _ => rfl) fun i => kind?_setProperties m id properties i
  | setKind id kind => exact absurd rfl (hc id kind)
  | finalizeGroup k => exact hsame (h.bucket_finalizeGroup k) (h.kind?_finalizeGroup k)
  | finalize => exact hsame h.bucket_finalize h.kind?_finalize

theorem declares_ofChanges {cs : List Change} (hcs : ∀ id kind, .setKind id kind ∉ cs) :
    Declares cs (ofChanges cs) := by
  induction cs using List.reverseRecOn with
  | nil => simp [ofChanges, Declares, kind?]
  | append_singleton cs c ih =>
    rw [ofChanges_append]
    refine (ih fun id kind hc => ?_).change (wellFormed_ofChanges cs) fun id kind hc => ?_
    · exact hcs id kind (List.mem_append_left _ hc)
    · exact hcs id kind (List.mem_append_right _ (by simp [hc]))

theorem WellFormed.intact (h : m.WellFormed) (hq : m.Qualified) (hp : m.Parented) : m.Intact where
  placed := fun id hid => by
    obtain ⟨p, hp⟩ := h.exists_shelves hid
    exact ⟨p, hp, fun q hq => h.shelves_unique hq hp⟩
  held := h.groupOf?_shelves
  once := h.nodup
  named := fun hid => by
    obtain ⟨t, ht, -, hn, hq, -⟩ := h.named hid
    exact ⟨t, ht, hn, hq⟩
  indexed := h.find?_eq_some_iff hq
  known := fun hid kind description => by
    refine registerNamed_known ?_ kind description
    rw [h.indexed, hid]
  parent := fun hid => hp _ _ hid
  merged := fun hr => by
    obtain ⟨key, short, hi, hr, hlt⟩ := h.merged hr
    exact ⟨key, short, hi, hr, precedes_iff_lt.mp hlt⟩
  descends := h.wellFounded_redirects
  leads := h.redirects_to_resolve
  live := fun id => isLive_iff.mpr (h.mergedInto?_resolve id)
  group := h.groupOf?_resolve
  settled := h.resolve_resolve

/-- Whatever is registered, filled in and finalized, in whatever order, the stores of the model agree.
The types of the kind of objects are those filed as objects, and those registered by name as such. -/
theorem ofChanges_intact (cs : List Change) (hcs : ∀ id kind, .setKind id kind ∉ cs) :
    (ofChanges cs).Intact ∧ Declares cs (ofChanges cs) :=
  ⟨(wellFormed_ofChanges cs).intact (qualified_ofChanges cs) (parented_ofChanges hcs),
    declares_ofChanges hcs⟩

/-- Objects registered below a merged one, and finalized again. -/
theorem ofChanges_intact_again :
    let apps : GroupKey := ⟨"apps", some "v1"⟩
    let cs : List Change :=
      [.registerNamed apps "DaemonSet" .resource none, .registerNamed apps "Deployment" .resource none,
        .registerAnonymous 1 "spec" (some "Spec") none, .registerAnonymous 0 "spec" (some "Spec") none,
        .finalize, .registerNamed apps "Deployment" .resource (some "again"),
        .registerAnonymous 2 "template" none none,
        .setProperties 3 [{ name := "template", type := .type 4, required := true }],
        .finalizeGroup apps]
    (∀ id kind, .setKind id kind ∉ cs) ∧ (ofChanges cs).Intact ∧ Declares cs (ofChanges cs) := by
  intro apps cs
  have hcs : ∀ id kind, .setKind id kind ∉ cs := by simp [cs]
  exact ⟨hcs, ofChanges_intact cs hcs⟩

end Model

end SchemaCompiler
