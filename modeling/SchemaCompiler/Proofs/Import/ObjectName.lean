import SchemaCompiler.Proofs.Import.Edit
import SchemaCompiler.Proofs.Import.Growth
import SchemaCompiler.Proofs.Model.ChosenName
import SchemaCompiler.Proofs.Model.Ties

/-! Where the names of objects come from. An object lies under a named type along the properties that it
and the objects around it are declared under. Unless overrides name it, it is called after them, by its
short name, by its full name, or by its short name with a number. -/

namespace SchemaCompiler

namespace Naming

/-- The full name of the object under the type `root` along `path`, whose first property is the innermost. -/
def longName (root : String) : List String → String
  | [] => root
  | property :: path => longName root path ++ typeName property

/-- The short name of that object: the full name directly under the type, and else the name that comes of
its own property. -/
def shortName (root : String) : List String → String
  | [] => root
  | [property] => root ++ typeName property
  | property :: _ => typeName property

end Naming

/-- The type and the property that an object is declared under. -/
def TypeEntry.declared? (t : TypeEntry) : Option (TypeId × String) :=
  match t.kind with
  | .anonymous parent property => some (parent, property)
  | _ => none

theorem TypeEntry.isSome_declared? (t : TypeEntry) : t.declared?.isSome = t.isAnonymous := by
  cases hk : t.kind <;> simp [declared?, isAnonymous, hk]

namespace Model

variable {m m' : Model} {key : GroupKey} {id parent : TypeId} {annotations : Annotations}
  {N : GroupKey → String → Prop}

def declared? (m : Model) (id : TypeId) : Option (TypeId × String) :=
  (m.types[id]?).bind TypeEntry.declared?

/-- The object `id` lies under the named type `root` along the properties `path`. -/
inductive Descends (m : Model) : TypeId → TypeId → List String → Prop
  | top {id root : TypeId} {property : String} (h : m.declared? id = some (root, property))
    (hroot : m.declared? root = none) : Descends m id root [property]
  | under {id parent root : TypeId} {property : String} {path : List String}
    (h : m.declared? id = some (parent, property)) (hparent : Descends m parent root path) :
    Descends m id root (property :: path)

theorem Descends.exists_above {id root : TypeId} {path : List String} (hdescends : m.Descends id root path)
    {property : String} (h : m.declared? id = some (parent, property)) :
    ∃ above, path = property :: above := by
  cases hdescends with
  | top hid | under hid =>
    obtain ⟨-, rfl⟩ := Prod.mk.inj (Option.some.inj (hid.symm.trans h))
    exact ⟨_, rfl⟩

theorem Descends.declared?_root {id root : TypeId} {path : List String} (h : m.Descends id root path) :
    m.declared? root = none := by
  induction h with
  | top _ hroot => exact hroot
  | under _ _ ih => exact ih

/-- What the naming of objects starts from. Named types have names of `N`, and each object is filed under
what its property makes of the full name of the type around it. -/
structure Derived (N : GroupKey → String → Prop) (m : Model) : Prop where
  indexed : ∀ {id}, id ∈ m.index.map Registration.id → ∃ key name, m.named? key name = some id
  named : ∀ {key name id}, m.named? key name = some id →
    N key name ∧ m.fullNameOf id = name ∧ m.declared? id = none
  filed : ∀ {key short id}, id ∈ m.bucket key short → ∃ parent property,
    m.declared? id = some (parent, property) ∧ parent < id ∧ m.groupOf? parent = some key ∧
      m.fullNameOf id = m.fullNameOf parent ++ Naming.typeName property ∧
        short = if (m.declared? parent).isSome then Naming.typeName property else m.fullNameOf id

/-- What is settled about a type when it is registered, and its naming starts from. -/
def origin? (m : Model) (id : TypeId) : Option (String × GroupKey × Option (TypeId × String)) :=
  (m.types[id]?).map fun t => (t.fullName, t.group, t.declared?)

theorem eq_of_origin? {name : String} {declared : Option (TypeId × String)}
    (h : m.origin? id = some (name, key, declared)) :
    m.fullNameOf id = name ∧ m.groupOf? id = some key ∧ m.declared? id = declared := by
  obtain ⟨t, ht, heq⟩ := Option.map_eq_some_iff.mp h
  obtain ⟨rfl, rfl, rfl⟩ : t.fullName = name ∧ t.group = key ∧ t.declared? = declared := by
    simpa using heq
  rw [fullNameOf, groupOf?, declared?, ht]
  exact ⟨rfl, rfl, rfl⟩

section Origin

variable (h : m'.origin? id = m.origin? id)

include h

theorem fullNameOf_of_origin : m'.fullNameOf id = m.fullNameOf id := by
  have hmap := congrArg (Option.map Prod.fst) h
  rw [origin?, origin?, Option.map_map, Option.map_map] at hmap
  exact congrArg (Option.getD · "") hmap

theorem groupOf?_of_origin : m'.groupOf? id = m.groupOf? id := by
  have hmap := congrArg (Option.map fun o => o.2.1) h
  rwa [origin?, origin?, Option.map_map, Option.map_map] at hmap

theorem declared?_of_origin : m'.declared? id = m.declared? id := by
  have hbind := congrArg (Option.bind · fun o => o.2.2) h
  simpa [origin?, declared?, Option.bind_map, Function.comp_def] using hbind

end Origin

/-- A type that is added, or changed in what naming does not start from, makes no difference to others. -/
theorem Derived.filed_congr (hd : m.Derived N) (h : m.WellFormed)
    (horigin : ∀ id, id < m.types.size → m'.origin? id = m.origin? id) {short : String}
    (hid : id ∈ m.bucket key short) : ∃ parent property,
      m'.declared? id = some (parent, property) ∧ parent < id ∧ m'.groupOf? parent = some key ∧
        m'.fullNameOf id = m'.fullNameOf parent ++ Naming.typeName property ∧
          short = if (m'.declared? parent).isSome then Naming.typeName property else m'.fullNameOf id := by
  obtain ⟨parent, property, hdeclared, hlt, hgroup, hfull, hshort⟩ := hd.filed hid
  have hid' := horigin id (h.lt_size hid)
  have hparent := horigin parent (hlt.trans (h.lt_size hid))
  refine ⟨parent, property, (declared?_of_origin hid').trans hdeclared, hlt,
    (groupOf?_of_origin hparent).trans hgroup, ?_, ?_⟩
  · rw [fullNameOf_of_origin hid', fullNameOf_of_origin hparent, hfull]
  · rw [declared?_of_origin hparent, fullNameOf_of_origin hid', hshort]

theorem Derived.named_congr (hd : m.Derived N) (h : m.WellFormed)
    (horigin : ∀ id, id < m.types.size → m'.origin? id = m.origin? id) {name : String}
    (hid : m.named? key name = some id) :
    N key name ∧ m'.fullNameOf id = name ∧ m'.declared? id = none := by
  obtain ⟨hname, hfull, hdeclared⟩ := hd.named hid
  have hsame := horigin id (h.named_lt hid)
  exact ⟨hname, (fullNameOf_of_origin hsame).trans hfull, (declared?_of_origin hsame).trans hdeclared⟩

theorem Derived.congr (hd : m.Derived N) (h : m.WellFormed)
    (horigin : ∀ id, id < m.types.size → m'.origin? id = m.origin? id) (hindex : m'.index = m.index)
    (hnamed : ∀ key name, m'.named? key name = m.named? key name)
    (hbucket : ∀ key short, m'.bucket key short = m.bucket key short) : m'.Derived N where
  indexed := fun hid => by
    rw [hindex] at hid
    simpa only [hnamed] using hd.indexed hid
  named := fun hid => hd.named_congr h horigin ((hnamed _ _).symm.trans hid)
  filed := fun hid => hd.filed_congr h horigin (hbucket _ _ ▸ hid)

theorem origin?_push {t : TypeEntry} (h : m'.types = m.types.push t) (id : TypeId) :
    m'.origin? id = if id = m.types.size then some (t.fullName, t.group, t.declared?)
      else m.origin? id := by
  rw [origin?, h, Array.getElem?_push]
  by_cases hid : id = m.types.size <;> simp [hid, origin?]

theorem origin?_push_old {t : TypeEntry} (h : m'.types = m.types.push t) (id : TypeId)
    (hid : id < m.types.size) : m'.origin? id = m.origin? id := by
  rw [origin?_push h, if_neg (Nat.ne_of_lt hid)]

theorem Derived.registerNamed (hd : m.Derived N) (h : m.WellFormed) {group : GroupKey} {name : String}
    {kind : TypeKind} (description : Option String) (hname : N group name)
    (hkind : ∀ parent property, kind ≠ .anonymous parent property) :
    (m.registerNamed group name kind description).2.Derived N := by
  cases hf : m.find? group (group.qualify name) with
  | some id => rwa [registerNamed_known hf]
  | none =>
    have htypes := types_registerNamed_new hf kind description
    have hnamed := named?_registerNamed_new hf kind description
    have hdeclared : (namedEntry group name kind description).declared? = none := by
      cases kind with
      | anonymous parent property => exact absurd rfl (hkind parent property)
      | _ => rfl
    refine ⟨fun {id} hid => ?_, fun {key name' id} hid => ?_, fun {key short id} hid => ?_⟩
    · rw [registerNamed_new hf] at hid
      rcases List.mem_append.mp (List.map_append ▸ hid) with hid | hid
      · obtain ⟨key, name', hid⟩ := hd.indexed hid
        exact ⟨key, name', h.named?_change hid (.registerNamed group name kind description)⟩
      · obtain rfl := List.mem_singleton.mp hid
        exact ⟨group, name, by rw [hnamed, if_pos ⟨rfl, rfl⟩]⟩
    · rw [hnamed] at hid
      split at hid
      · next heq =>
        obtain ⟨rfl, rfl⟩ := heq
        obtain rfl := Option.some.inj hid
        refine ⟨hname, ?_, ?_⟩
        · rw [fullNameOf, htypes, Array.getElem?_push, if_pos rfl]
          rfl
        · rw [declared?, htypes, Array.getElem?_push, if_pos rfl]
          exact hdeclared
      · exact hd.named_congr h (origin?_push_old htypes) hid
    · rw [bucket_registerNamed] at hid
      exact hd.filed_congr h (origin?_push_old htypes) hid

/-- A type that is no object is called by its full name. -/
theorem Derived.name_eq (hd : m.Derived N) (h : m.WellFormed) {t : TypeEntry} (ht : m.types[id]? = some t)
    (hdeclared : t.declared? = none) :
    m.named? t.group t.name = some id ∧ t.fullName = t.name ∧ N t.group t.name := by
  have hnone : m.declared? id = none := by rw [declared?, ht, Option.bind_some, hdeclared]
  rcases h.placed ht with hid | ⟨short, hid⟩
  · obtain ⟨hname, hfull, -⟩ := hd.named hid
    rw [fullNameOf, ht] at hfull
    exact ⟨hid, hfull, hname⟩
  · obtain ⟨parent, property, hsome, -⟩ := hd.filed hid
    rw [hnone] at hsome
    cases hsome

theorem Derived.registerAnonymous (hd : m.Derived N) (h : m.WellFormed) (parent : TypeId)
    (property : String) (description : Option String) :
    (m.registerAnonymous parent property none description).2.Derived N := by
  cases hp : m.types[parent]? with
  | none => rwa [registerAnonymous_orphan hp]
  | some above =>
    have htypes := types_registerAnonymous_new hp property none description
    have hlt : parent < m.types.size := (Array.getElem?_eq_some_iff.mp hp).1
    have hnamed := named?_registerAnonymous m parent property none description
    refine ⟨fun {id} hid => ?_, fun {key name id} hid => ?_, fun {key short id} hid => ?_⟩
    · rw [index_registerAnonymous] at hid
      simpa only [hnamed] using hd.indexed hid
    · rw [hnamed] at hid
      exact hd.named_congr h (origin?_push_old htypes) hid
    · rw [mem_bucket_registerAnonymous hp] at hid
      rcases hid with hid | ⟨rfl, rfl, rfl⟩
      · exact hd.filed_congr h (origin?_push_old htypes) hid
      · have hnew := origin?_push htypes m.types.size
        have hparent := origin?_push_old htypes parent hlt
        have habove : m.fullNameOf parent = above.fullName := by rw [fullNameOf, hp]; rfl
        rw [if_pos rfl] at hnew
        obtain ⟨hfull, -, hdeclared⟩ := eq_of_origin? hnew
        refine ⟨parent, property, hdeclared, hlt, ?_, ?_, ?_⟩
        · rw [groupOf?_of_origin hparent, groupOf?, hp]
          rfl
        · rw [hfull, fullNameOf_of_origin hparent, habove]
          rfl
        · rw [declared?_of_origin hparent, hfull, declared?, hp, Option.bind_some,
            above.isSome_declared?, objectEntry, Option.getD_none, Option.isSome_none, Bool.or_false]
          cases hobject : above.isAnonymous with
          | true => rfl
          | false =>
            have hnone : above.declared? = none :=
              Option.not_isSome_iff_eq_none.mp (by rw [above.isSome_declared?, hobject]; simp)
            rw [(hd.name_eq h hp hnone).2.1]

theorem Derived.edit (hd : m.Derived N) (h : m.WellFormed)
    (hnames : ∀ name, ¬annotations.GivesTypeName name) {e : Change}
    (he : Importer.Edit annotations N m e) : (m.change e).Derived N := by
  cases he with
  | register description hname hkind => exact hd.registerNamed h description hname hkind
  | @declare parent property typeName description hgiven =>
    obtain rfl : typeName = none :=
      Option.eq_none_iff_forall_ne_some.mpr fun name hname => hnames name (hgiven name hname)
    exact hd.registerAnonymous h parent property description
  | @settle a target hmem =>
    obtain ⟨key, name, ha⟩ := hd.indexed hmem
    refine hd.congr h (fun id _ => ?_) rfl (fun _ _ => rfl) fun _ _ => rfl
    rw [origin?, change, getElem?_setKind, origin?]
    split
    · next hid =>
      -- Only a named type can have got a target, and that it is none of the objects remains.
      subst hid
      have hdeclared := (hd.named ha).2.2
      cases ht : m.types[id]? with
      | none => rfl
      | some t =>
        rw [declared?, ht, Option.bind_some] at hdeclared
        simp only [Option.map_some, hdeclared]
        rfl
    · rfl
  | @fill a ps _ =>
    refine hd.congr h (fun id _ => ?_) rfl (fun _ _ => rfl) fun _ _ => rfl
    exact map_getElem?_amend (f := fun t => { t with properties := Property.sort ps }) (fun _ => rfl) id

theorem derived_empty : Derived N {} where
  indexed := by simp
  named := by simp [named?, group?, Table.get?]
  filed := by simp [bucket, group?, Table.get?]

theorem derived_of_edits (hnames : ∀ name, ¬annotations.GivesTypeName name)
    (h : Importer.Edits annotations N {} m) : m.WellFormed ∧ m.Derived N :=
  h.induction (P := fun m => m.WellFormed ∧ m.Derived N)
    (fun {_ e} hm he => ⟨hm.1.change e, hm.2.edit hm.1 hnames he⟩) ⟨wellFormed_empty, derived_empty⟩

theorem WellFormed.origin?_finalize (h : m.WellFormed) (id : TypeId) :
    m.finalize.origin? id = m.origin? id :=
  h.map_finalize (fun _ => rfl) id

theorem Derived.finalize (hd : m.Derived N) (h : m.WellFormed) : m.finalize.Derived N :=
  hd.congr h (fun id _ => h.origin?_finalize id) h.index_finalize h.named?_finalize h.bucket_finalize

/-- The type `root` that an object lies under, and what the path from there makes of its names. -/
structure LiesUnder (m : Model) (N : GroupKey → String → Prop) (key : GroupKey) (id : TypeId)
    (root : TypeEntry) (path : List String) : Prop where
  descends : ∃ i, m.named? key root.name = some i ∧ m.types[i]? = some root ∧ m.Descends id i path
  name : N key root.name
  short : id ∈ m.bucket key (Naming.shortName root.name path)
  long : m.fullNameOf id = Naming.longName root.name path

/-- Every object lies under a named type of its group, and its names come of the path from there. -/
theorem Derived.exists_liesUnder (hd : m.Derived N) (h : m.WellFormed) (hid : m.Filed key id) :
    ∃ root path, m.LiesUnder N key id root path := by
  induction id using Nat.strongRecOn with
  | ind id ih =>
    obtain ⟨short, hid⟩ := hid
    obtain ⟨parent, property, hdeclared, hlt, hgroup, hfull, rfl⟩ := hd.filed hid
    obtain ⟨t, ht, rfl⟩ := Option.map_eq_some_iff.mp hgroup
    rcases h.placed ht with hparent | hparent
    · have hnone := (hd.named hparent).2.2
      rw [declared?, ht, Option.bind_some] at hnone
      obtain ⟨hnamed, heq, hname⟩ := hd.name_eq h ht hnone
      have hroot : m.fullNameOf parent = t.name := by rw [← heq, fullNameOf, ht]; rfl
      have hnone := (hd.named hparent).2.2
      rw [hnone, hfull, hroot] at hid
      rw [hroot] at hfull
      exact ⟨t, [property], ⟨parent, hnamed, ht, .top hdeclared hnone⟩, hname, hid, hfull⟩
    · obtain ⟨root, path, ⟨i, hnamed, hi, hdescends⟩, hname, -, hlong⟩ := ih parent hlt hparent
      obtain ⟨short, hparent⟩ := hparent
      obtain ⟨_, _, hsome, -⟩ := hd.filed hparent
      rw [hsome] at hid
      refine ⟨root, property :: path, ⟨i, hnamed, hi, .under hdeclared hdescends⟩, hname, ?_, ?_⟩
      · cases hdescends <;> exact hid
      · rw [hfull, hlong, Naming.longName]

end Model

namespace Source

open Naming (shortName longName)

variable {s : Source} {annotations : Annotations} {m : Model} {id : TypeId} {t root : TypeEntry}
  {path : List String}

/-- A type has a name of the source, or is an object that lies under such a type. -/
abbrev Names (s : Source) (group : GroupKey) (name : String) : Prop := (group, name) ∈ s.names

theorem exists_derived (h : s.compile annotations = .ok m)
    (hnames : ∀ name, ¬annotations.GivesTypeName name) :
    ∃ m₀ : Model, m = m₀.finalize ∧ m₀.WellFormed ∧ m₀.Derived s.Names := by
  obtain ⟨m₀, hedits, rfl⟩ := s.exists_edits h
  exact ⟨m₀, rfl, Model.derived_of_edits hnames hedits⟩

/-- Where overrides name no types, a type that is no object bears a name of the source. -/
theorem names_of_undeclared (h : s.compile annotations = .ok m)
    (hnames : ∀ name, ¬annotations.GivesTypeName name) (ht : m.types[id]? = some t)
    (hdeclared : t.declared? = none) : s.Names t.group t.name := by
  obtain ⟨m₀, rfl, hwf, hderived⟩ := exists_derived h hnames
  exact ((hderived.finalize hwf).name_eq hwf.finalize ht hdeclared).2.2

/-- An object lies under a named type along its property and others. -/
theorem liesUnder_of_declared (h : s.compile annotations = .ok m)
    (hnames : ∀ name, ¬annotations.GivesTypeName name) (ht : m.types[id]? = some t) {parent : TypeId}
    {property : String} (hdeclared : t.declared? = some (parent, property)) :
    ∃ root above, m.LiesUnder s.Names t.group id root (property :: above) := by
  obtain ⟨m₀, rfl, hwf, hderived⟩ := exists_derived h hnames
  have hsome : m₀.finalize.declared? id = some (parent, property) := by
    rw [Model.declared?, ht, Option.bind_some, hdeclared]
  rcases hwf.finalize.placed ht with hid | hid
  · have hnone := ((hderived.finalize hwf).named hid).2.2
    rw [hsome] at hnone
    cases hnone
  · obtain ⟨root, path, hunder⟩ := (hderived.finalize hwf).exists_liesUnder hwf.finalize hid
    obtain ⟨i, -, -, hdescends⟩ := hunder.descends
    obtain ⟨above, rfl⟩ := hdescends.exists_above hsome
    exact ⟨root, above, hunder⟩

/-- An object that stands for itself bears a name that is chosen among those that come of its path. -/
theorem choice_of_liesUnder (h : s.compile annotations = .ok m)
    (hnames : ∀ name, ¬annotations.GivesTypeName name) {key : GroupKey}
    (hunder : m.LiesUnder s.Names key id root path) (ht : m.types[id]? = some t)
    (hlive : t.mergedInto = none) : Choice (shortName root.name path) (longName root.name path) t.name := by
  obtain ⟨m₀, rfl, hwf, -⟩ := exists_derived h hnames
  have hshort := hunder.short
  rw [hwf.bucket_finalize] at hshort
  have hchoice := hwf.choice_finalize hshort ht hlive
  rwa [← Model.fullNameOf_of_origin (hwf.origin?_finalize id), hunder.long] at hchoice

/-- Some type of the group bears the short name of each object. -/
theorem exists_short (h : s.compile annotations = .ok m)
    (hnames : ∀ name, ¬annotations.GivesTypeName name) {key : GroupKey}
    (hunder : m.LiesUnder s.Names key id root path) : ∃ (i : TypeId) (t : TypeEntry),
      m.types[i]? = some t ∧ t.group = key ∧ t.name = shortName root.name path ∧ t.mergedInto = none := by
  obtain ⟨m₀, rfl, hwf, -⟩ := exists_derived h hnames
  have hshort := hunder.short
  rw [hwf.bucket_finalize] at hshort
  exact hwf.exists_short hshort

end Source

end SchemaCompiler
