import SchemaCompiler.Proofs.Model.Arena

/-! Registering types. A registration adds one entry at the end of the arena, under a name or in a
bucket, and leaves what was registered before alone. -/

namespace SchemaCompiler

namespace Model

section Lookup

variable {m : Model} {key : GroupKey} {f : Group → Group}

theorem group?_alterGroup (k : GroupKey) :
    (m.alterGroup key f).group? k =
      if k = key then some { f ((m.group? key).getD {}) with finalized := none }
      else m.group? k := by
  rw [alterGroup, group?, Table.get?_alter]
  rfl

theorem named?_alterGroup (k : GroupKey) (n : String) :
    (m.alterGroup key f).named? k n =
      if k = key then Table.get? n (f ((m.group? key).getD {})).named else m.named? k n := by
  rw [named?, group?_alterGroup]
  by_cases h : k = key <;> simp [h, named?]

theorem bucket_alterGroup (k : GroupKey) (s : String) :
    (m.alterGroup key f).bucket k s =
      if k = key then (Table.get? s (f ((m.group? key).getD {})).anonymous).getD []
      else m.bucket k s := by
  rw [bucket, group?_alterGroup]
  by_cases h : k = key <;> simp [h, bucket]

theorem get?_named_getD (n : String) :
    Table.get? n ((m.group? key).getD {}).named = m.named? key n := by
  cases h : m.group? key <;> simp [named?, h, Table.get?]

theorem get?_anonymous_getD (s : String) :
    (Table.get? s ((m.group? key).getD {}).anonymous).getD [] = m.bucket key s := by
  cases h : m.group? key <;> simp [bucket, h, Table.get?]

end Lookup

section Push

variable {m m' : Model} {t : TypeEntry}

theorem groupOf?_push (h : m'.types = m.types.push t) (i : TypeId) :
    m'.groupOf? i = if i = m.types.size then some t.group else m.groupOf? i := by
  rw [groupOf?, h, Array.getElem?_push]
  by_cases hi : i = m.types.size <;> simp [hi, groupOf?]

theorem mergedInto?_push (h : m'.types = m.types.push t) (ht : t.mergedInto = none) (i : TypeId) :
    m'.mergedInto? i = m.mergedInto? i := by
  rw [mergedInto?, h, Array.getElem?_push]
  by_cases hi : i = m.types.size <;> simp [hi, mergedInto?, ht]

theorem fullNameOf_push (h : m'.types = m.types.push t) {i : TypeId} (hi : i < m.types.size) :
    m'.fullNameOf i = m.fullNameOf i := by
  rw [fullNameOf, h, Array.getElem?_push, if_neg (Nat.ne_of_lt hi), fullNameOf]

theorem WellFormed.named_lt (h : m.WellFormed) {key : GroupKey} {name : String} {id : TypeId}
    (hid : m.named? key name = some id) : id < m.types.size := by
  obtain ⟨t, ht, _⟩ := h.named hid
  exact (Array.getElem?_eq_some_iff.mp ht).1

/-- What holds of the merged types of a model holds after a type was added that is not merged. -/
theorem WellFormed.merged_push (h : m.WellFormed) (hm : m'.types = m.types.push t)
    (ht : t.mergedInto = none)
    (hb : ∀ key short id, id ∈ m.bucket key short → id ∈ m'.bucket key short) {id r : TypeId}
    (hr : m'.mergedInto? id = some r) : ∃ key short,
      id ∈ m'.bucket key short ∧ r ∈ m'.bucket key short ∧ m'.precedes r id = true := by
  rw [mergedInto?_push hm ht] at hr
  obtain ⟨key, short, hi, hr, hp⟩ := h.merged hr
  refine ⟨key, short, hb _ _ _ hi, hb _ _ _ hr, ?_⟩
  rw [precedes_congr (fullNameOf_push hm (h.lt_size hr)) (fullNameOf_push hm (h.lt_size hi))]
  exact hp

end Push

section Register

variable {m : Model} {group : GroupKey} {name : String}

theorem registerNamed_known {id : TypeId} (h : m.find? group (group.qualify name) = some id)
    (kind : TypeKind) (description : Option String) :
    m.registerNamed group name kind description = (id, m) := by
  simp [registerNamed, h]

/-- The entry of a named type. -/
def namedEntry (group : GroupKey) (name : String) (kind : TypeKind) (description : Option String) :
    TypeEntry :=
  { name, fullName := name, qualified := group.qualify name, group, description, kind }

theorem registerNamed_new (h : m.find? group (group.qualify name) = none) (kind : TypeKind)
    (description : Option String) :
    m.registerNamed group name kind description = (m.types.size,
      alterGroup
        { m with
          types := m.types.push (namedEntry group name kind description)
          index := m.index ++ [⟨group, group.qualify name, m.types.size⟩] }
        group fun g => { g with named := Table.insert name m.types.size g.named }) := by
  simp [registerNamed, h, namedEntry]

theorem find?_registerNamed_new (h : m.find? group (group.qualify name) = none)
    (kind : TypeKind) (description : Option String) (key : GroupKey) (n : String) :
    (m.registerNamed group name kind description).2.find? key (key.qualify n) =
      if key = group ∧ n = name then some m.types.size else m.find? key (key.qualify n) := by
  rw [registerNamed_new h]
  simp only [find?, alterGroup, List.find?_append, Option.map_or]
  by_cases hk : key = group ∧ n = name
  · obtain ⟨rfl, rfl⟩ := hk
    rw [find?] at h
    simp [h]
  · have hno : (group == key && group.qualify name == key.qualify n) = false := by
      apply Bool.eq_false_iff.mpr
      intro hb
      obtain ⟨hg, hn⟩ := (Bool.and_eq_true _ _).mp hb |>.imp eq_of_beq eq_of_beq
      subst hg
      exact hk ⟨rfl, (GroupKey.qualify_inj.mp hn).symm⟩
    simp [hk, hno]

theorem named?_registerNamed_new (h : m.find? group (group.qualify name) = none)
    (kind : TypeKind) (description : Option String) (key : GroupKey) (n : String) :
    (m.registerNamed group name kind description).2.named? key n =
      if key = group ∧ n = name then some m.types.size else m.named? key n := by
  rw [registerNamed_new h, named?_alterGroup]
  by_cases hk : key = group
  · subst hk
    simp only [if_true, true_and, Table.get?_insert]
    exact if_congr Iff.rfl rfl (get?_named_getD n)
  · simp [hk, named?, group?]

theorem bucket_registerNamed (m : Model) (group : GroupKey) (name : String) (kind : TypeKind)
    (description : Option String) (key : GroupKey) (short : String) :
    (m.registerNamed group name kind description).2.bucket key short = m.bucket key short := by
  cases h : m.find? group (group.qualify name) with
  | some id => rw [registerNamed_known h]
  | none =>
    rw [registerNamed_new h, bucket_alterGroup]
    by_cases hk : key = group
    · subst hk
      rw [if_pos rfl]
      exact get?_anonymous_getD short
    · simp [hk, bucket, group?]

theorem types_registerNamed_new (h : m.find? group (group.qualify name) = none)
    (kind : TypeKind) (description : Option String) :
    (m.registerNamed group name kind description).2.types =
      m.types.push (namedEntry group name kind description) := by
  rw [registerNamed_new h]
  rfl

theorem TablesOrdered.alterGroup {f : Group → Group} {key : GroupKey} (h : m.TablesOrdered)
    (hnamed : ∀ g, Table.Ordered g.named → Table.Ordered (f g).named)
    (hanonymous : ∀ g, Table.Ordered g.anonymous → Table.Ordered (f g).anonymous) :
    (m.alterGroup key f).TablesOrdered := by
  have hgroup : ∀ k g, (m.alterGroup key f).group? k = some g →
      Table.Ordered g.named ∧ Table.Ordered g.anonymous := by
    intro k g hg
    rw [group?_alterGroup] at hg
    by_cases hk : k = key
    · rw [if_pos hk] at hg
      obtain rfl := Option.some.inj hg
      cases hold : m.group? key with
      | none => exact ⟨hnamed _ List.Pairwise.nil, hanonymous _ List.Pairwise.nil⟩
      | some g => exact ⟨hnamed g (h.named hold), hanonymous g (h.anonymous hold)⟩
    · rw [if_neg hk] at hg
      exact ⟨h.named hg, h.anonymous hg⟩
  refine ⟨?_, fun hg => (hgroup _ _ hg).1, fun hg => (hgroup _ _ hg).2⟩
  simp only [Model.alterGroup]
  apply Table.Ordered.alter
  exact h.groups

theorem TablesOrdered.registerNamed_new (h : m.TablesOrdered)
    (hf : m.find? group (group.qualify name) = none) (kind : TypeKind)
    (description : Option String) :
    (m.registerNamed group name kind description).2.TablesOrdered := by
  rw [Model.registerNamed_new hf]
  have hpushed : ({ m with
      types := m.types.push (namedEntry group name kind description)
      index := m.index ++ [⟨group, group.qualify name, m.types.size⟩] } : Model).TablesOrdered :=
    ⟨h.groups, h.named, h.anonymous⟩
  exact hpushed.alterGroup (fun _ hg => hg.insert) fun _ hg => hg

theorem WellFormed.registerNamed (h : m.WellFormed) (group : GroupKey) (name : String)
    (kind : TypeKind) (description : Option String) :
    (m.registerNamed group name kind description).2.WellFormed := by
  cases hf : m.find? group (group.qualify name) with
  | some id => rwa [registerNamed_known hf]
  | none =>
    have hnone : m.named? group name = none := (h.indexed group name).symm.trans hf
    have htables := h.tablesOrdered.registerNamed_new hf kind description
    have hfind := find?_registerNamed_new hf kind description
    have ht := types_registerNamed_new hf kind description
    have hn := named?_registerNamed_new hf kind description
    have hb := bucket_registerNamed m group name kind description
    generalize (m.registerNamed group name kind description).2 = m' at *
    exact {
      ordered := htables.groups
      named_ordered := htables.named
      anonymous_ordered := htables.anonymous
      indexed := fun key n => by rw [hfind, hn, h.indexed]
      named := by
        intro key n id hid
        rw [hn] at hid
        rw [ht, Array.getElem?_push]
        by_cases hk : key = group ∧ n = name
        · rw [if_pos hk] at hid
          obtain rfl := Option.some.inj hid
          exact ⟨namedEntry group name kind description, by simp, hk.1.symm, hk.2.symm,
            by rw [hk.1, hk.2]; rfl, rfl⟩
        · rw [if_neg hk] at hid
          rw [if_neg (Nat.ne_of_lt (h.named_lt hid))]
          exact h.named hid
      filed := fun hid => by
        rw [hb] at hid
        rw [groupOf?_push ht, if_neg (Nat.ne_of_lt (h.lt_size hid))]
        exact h.filed hid
      filed_once := fun hid hid' => h.filed_once (hb _ _ ▸ hid) (hb _ _ ▸ hid')
      nodup := fun key short => hb key short ▸ h.nodup key short
      apart := by
        intro key key' n short id hid
        rw [hn] at hid
        rw [hb]
        by_cases hk : key = group ∧ n = name
        · rw [if_pos hk] at hid
          obtain rfl := Option.some.inj hid
          exact fun hm => Nat.lt_irrefl _ (h.lt_size hm)
        · rw [if_neg hk] at hid
          exact h.apart hid
      placed := by
        intro id t hid
        rw [ht, Array.getElem?_push] at hid
        simp only [hn, hb]
        by_cases hk : id = m.types.size
        · rw [if_pos hk] at hid
          obtain rfl := Option.some.inj hid
          exact .inl (by simp [namedEntry, hk])
        · rw [if_neg hk] at hid
          refine (h.placed hid).imp (fun hp => ?_) (fun hp => hp)
          have hne : ¬(t.group = group ∧ t.name = name) := by
            rintro ⟨rfl, rfl⟩
            rw [hnone] at hp
            cases hp
          rwa [if_neg hne]
      merged := fun hr => h.merged_push ht rfl (fun key short id hid => by rwa [hb]) hr }

end Register

section Object

variable {m : Model} {parent : TypeId} {above : TypeEntry}

/-- The entry of an object declared under a property of the type `above`. -/
def objectEntry (above : TypeEntry) (parent : TypeId) (property : String)
    (typeName description : Option String) : TypeEntry :=
  let own := typeName.getD (Naming.typeName property)
  let fullName := above.fullName ++ own
  { name := if above.isAnonymous || typeName.isSome then own else above.name ++ own
    fullName, qualified := above.group.qualify fullName, group := above.group, description,
    kind := .anonymous parent property }

theorem registerAnonymous_orphan (h : m.types[parent]? = none) (property : String)
    (typeName description : Option String) :
    m.registerAnonymous parent property typeName description = (m.types.size, m) := by
  simp [registerAnonymous, h]

theorem registerAnonymous_new (h : m.types[parent]? = some above) (property : String)
    (typeName description : Option String) :
    m.registerAnonymous parent property typeName description =
      let t := objectEntry above parent property typeName description
      (m.types.size, ({ m with types := m.types.push t } : Model).alterGroup t.group fun g =>
        { g with anonymous := Table.alter t.name [] (· ++ [m.types.size]) g.anonymous }) := by
  simp [registerAnonymous, h, objectEntry]

theorem types_registerAnonymous_new (h : m.types[parent]? = some above) (property : String)
    (typeName description : Option String) :
    (m.registerAnonymous parent property typeName description).2.types =
      m.types.push (objectEntry above parent property typeName description) := by
  rw [registerAnonymous_new h]
  rfl

theorem index_registerAnonymous (m : Model) (parent : TypeId) (property : String)
    (typeName description : Option String) :
    (m.registerAnonymous parent property typeName description).2.index = m.index := by
  cases h : m.types[parent]? with
  | none => rw [registerAnonymous_orphan h]
  | some above =>
    rw [registerAnonymous_new h]
    rfl

theorem named?_registerAnonymous (m : Model) (parent : TypeId) (property : String)
    (typeName description : Option String) (key : GroupKey) (n : String) :
    (m.registerAnonymous parent property typeName description).2.named? key n =
      m.named? key n := by
  cases h : m.types[parent]? with
  | none => rw [registerAnonymous_orphan h]
  | some above =>
    rw [registerAnonymous_new h, named?_alterGroup]
    by_cases hk : key = (objectEntry above parent property typeName description).group
    · subst hk
      rw [if_pos rfl]
      exact get?_named_getD n
    · simp [hk, named?, group?]

theorem bucket_registerAnonymous_new (h : m.types[parent]? = some above) (property : String)
    (typeName description : Option String) (key : GroupKey) (short : String) :
    (m.registerAnonymous parent property typeName description).2.bucket key short =
      if key = above.group ∧
          short = (objectEntry above parent property typeName description).name then
        m.bucket key short ++ [m.types.size]
      else m.bucket key short := by
  rw [registerAnonymous_new h]
  have hgroup : above.group = (objectEntry above parent property typeName description).group := rfl
  rw [hgroup]
  generalize objectEntry above parent property typeName description = t
  rw [bucket_alterGroup]
  by_cases hk : key = t.group
  · subst hk
    rw [if_pos rfl]
    change (Table.get? short (Table.alter t.name [] (· ++ [m.types.size])
      ((m.group? t.group).getD {}).anonymous)).getD [] = _
    rw [Table.get?_alter]
    by_cases hs : short = t.name
    · subst hs
      simp only [if_true, and_self, Option.getD_some, get?_anonymous_getD]
    · simp only [hs, if_false, and_false, get?_anonymous_getD]
  · simp [hk, bucket, group?]

/-- An object is filed in one bucket, behind what was there before. -/
theorem mem_bucket_registerAnonymous (h : m.types[parent]? = some above) (property : String)
    (typeName description : Option String) {key : GroupKey} {short : String} {id : TypeId} :
    id ∈ (m.registerAnonymous parent property typeName description).2.bucket key short ↔
      id ∈ m.bucket key short ∨ id = m.types.size ∧ key = above.group ∧
        short = (objectEntry above parent property typeName description).name := by
  rw [bucket_registerAnonymous_new h]
  by_cases hk : key = above.group ∧
      short = (objectEntry above parent property typeName description).name
  · rw [if_pos hk, List.mem_append, List.mem_singleton]
    simp only [hk, and_self, and_true]
  · rw [if_neg hk]
    simp only [hk, and_false, or_false]

theorem TablesOrdered.registerAnonymous (h : m.TablesOrdered) (parent : TypeId) (property : String)
    (typeName description : Option String) :
    (m.registerAnonymous parent property typeName description).2.TablesOrdered := by
  cases hp : m.types[parent]? with
  | none => rwa [registerAnonymous_orphan hp]
  | some above =>
    rw [registerAnonymous_new hp]
    have hpushed : ({ m with
        types := m.types.push (objectEntry above parent property typeName description) } :
          Model).TablesOrdered := ⟨h.groups, h.named, h.anonymous⟩
    refine hpushed.alterGroup (fun _ hg => hg) fun g hg => ?_
    simp only
    apply Table.Ordered.alter
    exact hg

theorem WellFormed.registerAnonymous (h : m.WellFormed) (parent : TypeId) (property : String)
    (typeName description : Option String) :
    (m.registerAnonymous parent property typeName description).2.WellFormed := by
  cases hp : m.types[parent]? with
  | none => rwa [registerAnonymous_orphan hp]
  | some above =>
    have htables := h.tablesOrdered.registerAnonymous parent property typeName description
    have hx := index_registerAnonymous m parent property typeName description
    have ht := types_registerAnonymous_new hp property typeName description
    have hn := named?_registerAnonymous m parent property typeName description
    have hb := bucket_registerAnonymous_new hp property typeName description
    have hmem : ∀ {key short id},
        id ∈ (m.registerAnonymous parent property typeName description).2.bucket key short ↔
          id ∈ m.bucket key short ∨ id = m.types.size ∧ key = above.group ∧
            short = (objectEntry above parent property typeName description).name :=
      mem_bucket_registerAnonymous hp property typeName description
    generalize (m.registerAnonymous parent property typeName description).2 = m' at *
    have hfresh : ∀ key short, m.types.size ∉ m.bucket key short :=
      fun _ _ hm => Nat.lt_irrefl _ (h.lt_size hm)
    exact {
      ordered := htables.groups
      named_ordered := htables.named
      anonymous_ordered := htables.anonymous
      indexed := fun key n => by
        rw [find?, hx, hn]
        exact h.indexed key n
      named := fun hid => by
        rw [hn] at hid
        rw [ht, Array.getElem?_push, if_neg (Nat.ne_of_lt (h.named_lt hid))]
        exact h.named hid
      filed := fun hid => by
        rw [groupOf?_push ht]
        rcases hmem.mp hid with hid | ⟨rfl, rfl, -⟩
        · rw [if_neg (Nat.ne_of_lt (h.lt_size hid))]
          exact h.filed hid
        · simp [objectEntry]
      filed_once := by
        intro key short short' id hid hid'
        rcases hmem.mp hid with hid | ⟨rfl, -, hs⟩ <;>
          rcases hmem.mp hid' with hid' | ⟨he, -, hs'⟩
        · exact h.filed_once hid hid'
        · exact absurd (he ▸ hid) (hfresh _ _)
        · exact absurd hid' (hfresh _ _)
        · exact hs.trans hs'.symm
      nodup := by
        intro key short
        rw [hb]
        split
        · exact List.Nodup.append (h.nodup key short) (List.nodup_singleton _)
            (List.disjoint_singleton.mpr (hfresh key short))
        · exact h.nodup key short
      apart := by
        intro key key' n short id hid hm
        rw [hn] at hid
        rcases hmem.mp hm with hm | ⟨rfl, -, -⟩
        · exact h.apart hid hm
        · exact Nat.lt_irrefl _ (h.named_lt hid)
      placed := by
        intro id t hid
        rw [ht, Array.getElem?_push] at hid
        by_cases hk : id = m.types.size
        · rw [if_pos hk] at hid
          obtain rfl := Option.some.inj hid
          exact .inr ⟨_, hmem.mpr (.inr ⟨hk, rfl, rfl⟩)⟩
        · rw [if_neg hk] at hid
          rw [hn]
          exact (h.placed hid).imp_right fun hs => hs.imp fun short hb => hmem.mpr (.inl hb)
      merged := fun hr => h.merged_push ht rfl (fun key short id hid => hmem.mpr (.inl hid)) hr }

end Object

end Model

end SchemaCompiler
