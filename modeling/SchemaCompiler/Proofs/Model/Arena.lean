import Mathlib.Data.List.Nodup
import SchemaCompiler.Model.Dependency
import SchemaCompiler.Model.Merging
import SchemaCompiler.Proofs.Table

/-! The types of a model and the tables of its groups describe each other: every type is either the
one that its group has under its name, or an object in one bucket of its group. Registering a type
and changing the contents of one keep this true. -/

namespace SchemaCompiler

theorem GroupKey.qualify_inj {key : GroupKey} {a b : String} :
    key.qualify a = key.qualify b ↔ a = b := by
  simp [GroupKey.qualify]

namespace Model

/-- The objects filed under `short` in the group `key`. -/
def bucket (m : Model) (key : GroupKey) (short : String) : List TypeId :=
  ((m.group? key).bind fun g => Table.get? short g.anonymous).getD []

/-- An object without a name of its own in the group `key`. -/
def Filed (m : Model) (key : GroupKey) (id : TypeId) : Prop := ∃ short, id ∈ m.bucket key short

def mergedInto? (m : Model) (id : TypeId) : Option TypeId :=
  (m.types[id]?).bind TypeEntry.mergedInto

/-- Changes one type in place. -/
def amend (m : Model) (id : TypeId) (f : TypeEntry → TypeEntry) : Model :=
  { m with types := m.types.modify id f }

structure WellFormed (m : Model) : Prop where
  ordered : Table.Ordered m.groups
  named_ordered : ∀ {key g}, m.group? key = some g → Table.Ordered g.named
  anonymous_ordered : ∀ {key g}, m.group? key = some g → Table.Ordered g.anonymous
  indexed : ∀ key name, m.find? key (key.qualify name) = m.named? key name
  /-- A named type keeps the names it was registered with. -/
  named : ∀ {key name id}, m.named? key name = some id → ∃ t, m.types[id]? = some t ∧
    t.group = key ∧ t.name = name ∧ t.qualified = key.qualify name ∧ t.mergedInto = none
  filed : ∀ {key short id}, id ∈ m.bucket key short → m.groupOf? id = some key
  filed_once : ∀ {key short short' id},
    id ∈ m.bucket key short → id ∈ m.bucket key short' → short = short'
  nodup : ∀ key short, (m.bucket key short).Nodup
  apart : ∀ {key key' name short id},
    m.named? key name = some id → id ∉ m.bucket key' short
  placed : ∀ {id t}, m.types[id]? = some t →
    m.named? t.group t.name = some id ∨ ∃ short, id ∈ m.bucket t.group short
  /-- An object is merged into one of its own bucket that precedes it. -/
  merged : ∀ {id r}, m.mergedInto? id = some r → ∃ key short,
    id ∈ m.bucket key short ∧ r ∈ m.bucket key short ∧ m.precedes r id = true

theorem isLive_iff {m : Model} {id : TypeId} : m.isLive id = true ↔ m.mergedInto? id = none := by
  cases h : m.types[id]? <;> simp [isLive, mergedInto?, h]

theorem WellFormed.lt_size {m : Model} (h : m.WellFormed) {key : GroupKey} {short : String}
    {id : TypeId} (hid : id ∈ m.bucket key short) : id < m.types.size := by
  have hg := h.filed hid
  by_contra hn
  have hnone : m.types[id]? = none := by simpa using hn
  simp [groupOf?, hnone] at hg

theorem wellFormed_empty : WellFormed {} where
  ordered := List.Pairwise.nil
  named_ordered := by simp [group?, Table.get?]
  anonymous_ordered := by simp [group?, Table.get?]
  indexed := by simp [find?, named?, group?, Table.get?]
  named := by simp [named?, group?, Table.get?]
  filed := by simp [bucket, group?, Table.get?]
  filed_once := by simp [bucket, group?, Table.get?]
  nodup := by simp [bucket, group?, Table.get?]
  apart := by simp [bucket, group?, Table.get?]
  placed := by simp
  merged := by simp [mergedInto?]

/-! Models that differ only in what is kept about each type. -/

/-- The tables are the same, and the types are the same but for what `hide` leaves out. -/
structure SameUpTo (hide : TypeEntry → TypeEntry) (m m' : Model) : Prop where
  groups : m'.groups = m.groups
  index : m'.index = m.index
  entries : ∀ i : TypeId, (m'.types[i]?).map hide = (m.types[i]?).map hide

section SameUpTo

variable {hide : TypeEntry → TypeEntry} {m m' : Model}

theorem SameUpTo.refl (hide : TypeEntry → TypeEntry) (m : Model) : SameUpTo hide m m :=
  ⟨rfl, rfl, fun _ => rfl⟩

theorem SameUpTo.trans {m'' : Model} (h : SameUpTo hide m m') (h' : SameUpTo hide m' m'') :
    SameUpTo hide m m'' :=
  ⟨h'.groups.trans h.groups, h'.index.trans h.index, fun i => (h'.entries i).trans (h.entries i)⟩

/-- Whatever does not depend on what is left out is the same for every type. -/
theorem SameUpTo.map_getElem? (h : SameUpTo hide m m') {α : Type} {proj : TypeEntry → α}
    (hproj : ∀ t, proj (hide t) = proj t) (i : TypeId) :
    (m'.types[i]?).map proj = (m.types[i]?).map proj := by
  have hh := congrArg (Option.map proj) (h.entries i)
  simpa only [Option.map_map, Function.comp_def, hproj] using hh

theorem size_eq_of_map {α : Type} {proj : TypeEntry → α}
    (h : ∀ i : TypeId, (m'.types[i]?).map proj = (m.types[i]?).map proj) :
    m'.types.size = m.types.size := by
  have hnone : ∀ i : TypeId, m'.types.size ≤ i ↔ m.types.size ≤ i := by
    intro i
    rw [← Array.getElem?_eq_none_iff, ← Array.getElem?_eq_none_iff, ← Option.map_eq_none_iff, h i,
      Option.map_eq_none_iff]
  exact Nat.le_antisymm ((hnone _).mpr (Nat.le_refl _)) ((hnone _).mp (Nat.le_refl _))

theorem SameUpTo.size_eq (h : SameUpTo hide m m') : m'.types.size = m.types.size :=
  size_eq_of_map h.entries

theorem SameUpTo.fullNameOf (h : SameUpTo hide m m') (hfull : ∀ t, (hide t).fullName = t.fullName)
    (i : TypeId) : m'.fullNameOf i = m.fullNameOf i := by
  rw [Model.fullNameOf, h.map_getElem? hfull, Model.fullNameOf]

theorem SameUpTo.mergedInto? (h : SameUpTo hide m m')
    (hmerged : ∀ t, (hide t).mergedInto = t.mergedInto) (i : TypeId) :
    m'.mergedInto? i = m.mergedInto? i := by
  have hh := congrArg (Option.bind · id) (h.map_getElem? hmerged i)
  rwa [Option.bind_map, Option.bind_map] at hh

theorem SameUpTo.find? (h : SameUpTo hide m m') (group : GroupKey) (qualified : String) :
    m'.find? group qualified = m.find? group qualified := by
  rw [Model.find?, h.index, Model.find?]

theorem SameUpTo.named? (h : SameUpTo hide m m') (key : GroupKey) (name : String) :
    m'.named? key name = m.named? key name := by
  rw [Model.named?, group?, h.groups, Model.named?, group?]

theorem SameUpTo.bucket (h : SameUpTo hide m m') (key : GroupKey) (short : String) :
    m'.bucket key short = m.bucket key short := by
  rw [Model.bucket, group?, h.groups, Model.bucket, group?]

end SameUpTo

/-! Changing one type. -/

section Amend

variable {m : Model} {id : TypeId} {f : TypeEntry → TypeEntry}

theorem getElem?_amend (i : TypeId) :
    (m.amend id f).types[i]? = if i = id then (m.types[i]?).map f else m.types[i]? := by
  rw [amend, Array.getElem?_modify]
  by_cases h : id = i <;> simp [h, eq_comm]

theorem size_amend : (m.amend id f).types.size = m.types.size := by
  simp [amend]

/-- Whatever `f` leaves alone is the same for every type. -/
theorem map_getElem?_amend {α : Type} {proj : TypeEntry → α} (h : ∀ t, proj (f t) = proj t)
    (i : TypeId) : ((m.amend id f).types[i]?).map proj = (m.types[i]?).map proj := by
  rw [getElem?_amend]
  by_cases hi : i = id
  · cases ht : m.types[i]? <;> simp [hi, h]
  · simp [hi]

theorem groupOf?_amend (h : ∀ t, (f t).group = t.group) (i : TypeId) :
    (m.amend id f).groupOf? i = m.groupOf? i :=
  map_getElem?_amend h i

theorem fullNameOf_amend (h : ∀ t, (f t).fullName = t.fullName) (i : TypeId) :
    (m.amend id f).fullNameOf i = m.fullNameOf i := by
  rw [fullNameOf, map_getElem?_amend h, fullNameOf]

theorem mergedInto?_amend (h : ∀ t, (f t).mergedInto = t.mergedInto) (i : TypeId) :
    (m.amend id f).mergedInto? i = m.mergedInto? i := by
  rw [mergedInto?, mergedInto?, getElem?_amend]
  by_cases hi : i = id
  · cases ht : m.types[id]? <;> simp [hi, ht, h]
  · simp [hi]

theorem precedes_congr {m m' : Model} {a b : TypeId} (ha : m'.fullNameOf a = m.fullNameOf a)
    (hb : m'.fullNameOf b = m.fullNameOf b) : m'.precedes a b = m.precedes a b := by
  rw [precedes, precedes, ha, hb]

/-- A type may be changed in place as long as its group and full name stay, a named type keeps its
names and is not merged, and an object is merged only into one of its bucket that precedes it. -/
theorem WellFormed.amend (h : m.WellFormed) (hgroup : ∀ t, (f t).group = t.group)
    (hfull : ∀ t, (f t).fullName = t.fullName)
    (hnamed : ∀ key name t, m.named? key name = some id → (f t).name = t.name ∧
      (f t).qualified = t.qualified ∧ (f t).mergedInto = t.mergedInto)
    (hmerged : ∀ t r, m.types[id]? = some t → (f t).mergedInto = some r →
      t.mergedInto = some r ∨ ∃ key short,
        id ∈ m.bucket key short ∧ r ∈ m.bucket key short ∧ m.precedes r id = true) :
    (m.amend id f).WellFormed where
  ordered := h.ordered
  named_ordered := h.named_ordered
  anonymous_ordered := h.anonymous_ordered
  indexed := h.indexed
  named := by
    intro key name i hi
    obtain ⟨t, ht, hg, hn, hq, hm⟩ := h.named hi
    by_cases he : i = id
    · subst he
      obtain ⟨hn', hq', hm'⟩ := hnamed key name t hi
      exact ⟨f t, by simp [getElem?_amend, ht], (hgroup t).trans hg, hn'.trans hn, hq'.trans hq,
        hm'.trans hm⟩
    · exact ⟨t, by simp [getElem?_amend, he, ht], hg, hn, hq, hm⟩
  filed := fun hi => (groupOf?_amend hgroup _).trans (h.filed hi)
  filed_once := h.filed_once
  nodup := h.nodup
  apart := h.apart
  placed := by
    intro i t ht
    rw [getElem?_amend] at ht
    by_cases he : i = id
    · subst he
      obtain ⟨t₀, ht₀, rfl⟩ := Option.map_eq_some_iff.mp (by simpa using ht)
      rw [hgroup]
      rcases h.placed ht₀ with hp | hp
      · rw [(hnamed _ _ t₀ hp).1]
        exact .inl hp
      · exact .inr hp
    · exact h.placed (by simpa [he] using ht)
  merged := by
    intro i r hr
    have hold : m.mergedInto? i = some r ∨ ∃ key short,
        i ∈ m.bucket key short ∧ r ∈ m.bucket key short ∧ m.precedes r i = true := by
      rw [mergedInto?, getElem?_amend] at hr
      by_cases he : i = id
      · subst he
        obtain ⟨t, ht, hr⟩ := Option.bind_eq_some_iff.mp hr
        obtain ⟨t₀, ht₀, rfl⟩ := Option.map_eq_some_iff.mp (by simpa using ht)
        exact (hmerged t₀ r ht₀ hr).imp (by simp [mergedInto?, ht₀]) fun hm => hm
      · exact .inl (by simpa [mergedInto?, he] using hr)
    have hmoved : ∃ key short, i ∈ m.bucket key short ∧ r ∈ m.bucket key short ∧
        m.precedes r i = true := hold.elim h.merged fun hm => hm
    obtain ⟨key, short, hi, hr, hp⟩ := hmoved
    exact ⟨key, short, hi, hr,
      (precedes_congr (fullNameOf_amend hfull r) (fullNameOf_amend hfull i)).trans hp⟩

end Amend

/-! Changing what the statement that a model is well formed does not speak of. -/

/-- The keys of every table increase. -/
structure TablesOrdered (m : Model) : Prop where
  groups : Table.Ordered m.groups
  named : ∀ {key g}, m.group? key = some g → Table.Ordered g.named
  anonymous : ∀ {key g}, m.group? key = some g → Table.Ordered g.anonymous

theorem WellFormed.tablesOrdered {m : Model} (h : m.WellFormed) : m.TablesOrdered :=
  ⟨h.ordered, h.named_ordered, h.anonymous_ordered⟩

section Congr

variable {m m' : Model}

theorem WellFormed.placed_congr (h : m.WellFormed) (hgroup : ∀ i, m'.groupOf? i = m.groupOf? i)
    (hnames : ∀ {key name id}, m.named? key name = some id →
      (m'.types[id]?).map (fun t => (t.name, t.qualified)) =
        (m.types[id]?).map fun t => (t.name, t.qualified)) {id : TypeId} {t' : TypeEntry}
    (ht' : m'.types[id]? = some t') :
    m.named? t'.group t'.name = some id ∨ ∃ short, id ∈ m.bucket t'.group short := by
  have hg := hgroup id
  rw [groupOf?, ht', groupOf?] at hg
  obtain ⟨t, ht, hg⟩ := Option.map_eq_some_iff.mp hg.symm
  rw [← hg]
  refine (h.placed ht).imp (fun hid => ?_) fun hs => hs
  have hn := hnames hid
  rw [ht', ht, Option.map_some, Option.map_some, Option.some_inj, Prod.mk.injEq] at hn
  rwa [hn.1]

/-- Besides what is found in the tables, only groups, full names and redirects matter, and the names
of named types. -/
theorem WellFormed.congr (h : m.WellFormed) (htables : m'.TablesOrdered)
    (hfind : ∀ key qualified, m'.find? key qualified = m.find? key qualified)
    (hnamed : ∀ key name, m'.named? key name = m.named? key name)
    (hbucket : ∀ key short, m'.bucket key short = m.bucket key short)
    (hgroup : ∀ i, m'.groupOf? i = m.groupOf? i)
    (hfull : ∀ i, m'.fullNameOf i = m.fullNameOf i)
    (hmerged : ∀ i, m'.mergedInto? i = m.mergedInto? i)
    (hnames : ∀ {key name id}, m.named? key name = some id →
      (m'.types[id]?).map (fun t => (t.name, t.qualified)) =
        (m.types[id]?).map fun t => (t.name, t.qualified)) : m'.WellFormed where
  ordered := htables.groups
  named_ordered := htables.named
  anonymous_ordered := htables.anonymous
  indexed := fun key name => by rw [hfind, hnamed, h.indexed]
  named := by
    intro key name id hid
    rw [hnamed] at hid
    obtain ⟨t, ht, hg, hn, hq, hm⟩ := h.named hid
    have hgroup := hgroup id
    have hnames := hnames hid
    have hmerged := hmerged id
    rw [groupOf?, groupOf?, ht] at hgroup
    obtain ⟨t', ht', hg'⟩ := Option.map_eq_some_iff.mp hgroup
    rw [ht', ht, Option.map_some, Option.map_some, Option.some_inj, Prod.mk.injEq] at hnames
    rw [mergedInto?, mergedInto?, ht', ht, Option.bind_some, Option.bind_some] at hmerged
    exact ⟨t', ht', hg'.trans hg, hnames.1.trans hn, hnames.2.trans hq, hmerged.trans hm⟩
  filed := fun hid => (hgroup _).trans (h.filed (hbucket _ _ ▸ hid))
  filed_once := fun hid hid' => h.filed_once (hbucket _ _ ▸ hid) (hbucket _ _ ▸ hid')
  nodup := fun key short => hbucket key short ▸ h.nodup key short
  apart := fun hid => by
    rw [hbucket]
    exact h.apart ((hnamed _ _).symm.trans hid)
  placed := fun ht' => by
    simp only [hnamed, hbucket]
    exact h.placed_congr hgroup hnames ht'
  merged := by
    intro id r hr
    obtain ⟨key, short, hi, hr, hp⟩ := h.merged ((hmerged id).symm.trans hr)
    refine ⟨key, short, by rwa [hbucket], by rwa [hbucket], ?_⟩
    rwa [precedes_congr (hfull r) (hfull id)]

theorem SameUpTo.tablesOrdered {hide : TypeEntry → TypeEntry} (h : SameUpTo hide m m')
    (hm : m.TablesOrdered) : m'.TablesOrdered := by
  have hgroup? : ∀ key, m'.group? key = m.group? key := fun key => by
    rw [Model.group?, h.groups, Model.group?]
  exact ⟨h.groups ▸ hm.groups, fun hg => hm.named ((hgroup? _).symm.trans hg),
    fun hg => hm.anonymous ((hgroup? _).symm.trans hg)⟩

theorem SameUpTo.wellFormed {hide : TypeEntry → TypeEntry} (h : SameUpTo hide m m')
    (hm : m.WellFormed) (hgroup : ∀ t, (hide t).group = t.group)
    (hfull : ∀ t, (hide t).fullName = t.fullName)
    (hmerged : ∀ t, (hide t).mergedInto = t.mergedInto)
    (hnames : ∀ {key name id}, m.named? key name = some id →
      (m'.types[id]?).map (fun t => (t.name, t.qualified)) =
        (m.types[id]?).map fun t => (t.name, t.qualified)) : m'.WellFormed :=
  hm.congr (h.tablesOrdered hm.tablesOrdered) h.find? h.named? h.bucket (h.map_getElem? hgroup)
    (h.fullNameOf hfull) (h.mergedInto? hmerged) hnames

end Congr

theorem WellFormed.setProperties {m : Model} (h : m.WellFormed) (id : TypeId) (ps : List Property) :
    (m.setProperties id ps).WellFormed :=
  h.amend (fun _ => rfl) (fun _ => rfl) (fun _ _ _ _ => ⟨rfl, rfl, rfl⟩) (fun _ _ _ hr => .inl hr)

theorem WellFormed.setKind {m : Model} (h : m.WellFormed) (id : TypeId) (kind : TypeKind) :
    (m.setKind id kind).WellFormed :=
  h.amend (fun _ => rfl) (fun _ => rfl) (fun _ _ _ _ => ⟨rfl, rfl, rfl⟩) (fun _ _ _ hr => .inl hr)

end Model

end SchemaCompiler
