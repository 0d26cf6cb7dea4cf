import SchemaCompiler.Proofs.Model.View

/-! What a group uses. The view of a group lists the other groups, the wrappers and the names of the base
module that occur in its live types, at any depth, and nothing else. -/

namespace SchemaCompiler

namespace TypeExpr

/-- A part of an expression, at any depth. -/
inductive PartOf (part : TypeExpr) : TypeExpr → Prop
  | whole : PartOf part part
  | item {item} (h : PartOf part item) : PartOf part (.list item)
  | value {value} (h : PartOf part value) : PartOf part (.map value)
  | member {members e} (he : e ∈ members) (h : PartOf part e) : PartOf part (.union members)

/-- The wrapper that an expression begins with. -/
def wrapper? : TypeExpr → Option String
  | bareList => some "List"
  | list _ => some "List"
  | bareMap => some "Dict"
  | map _ => some "Dict"
  | union _ => some "Union"
  | _ => none

variable {part : TypeExpr}

theorem partOf_list {item : TypeExpr} : part.PartOf (.list item) ↔ part = .list item ∨ part.PartOf item := by
  constructor
  · intro h
    cases h with
    | whole => exact .inl rfl
    | item h => exact .inr h
  · rintro (rfl | h)
    · exact .whole
    · exact .item h

theorem partOf_map {value : TypeExpr} : part.PartOf (.map value) ↔ part = .map value ∨ part.PartOf value := by
  constructor
  · intro h
    cases h with
    | whole => exact .inl rfl
    | value h => exact .inr h
  · rintro (rfl | h)
    · exact .whole
    · exact .value h

theorem partOf_union {members : List TypeExpr} :
    part.PartOf (.union members) ↔ part = .union members ∨ ∃ e ∈ members, part.PartOf e := by
  constructor
  · intro h
    cases h with
    | whole => exact .inl rfl
    | member he h => exact .inr ⟨_, he, h⟩
  · rintro (rfl | ⟨e, he, h⟩)
    · exact .whole
    · exact .member he h

mutual

/-- The leaves of an expression are its parts that begin with no wrapper. -/
theorem mem_leaves_iff : ∀ e : TypeExpr, part ∈ e.leaves ↔ part.PartOf e ∧ part.wrapper? = none
  | .primitive _ | .wellKnown _ | .type _ | .ref _ => by
    refine List.mem_singleton.trans ?_
    constructor
    · rintro rfl
      exact ⟨.whole, rfl⟩
    · rintro ⟨⟨⟩, -⟩
      rfl
  | .bareList | .bareMap => by
    refine ⟨fun h => absurd h List.not_mem_nil, ?_⟩
    rintro ⟨⟨⟩, h⟩
    cases h
  | .list item => by
    rw [leaves, mem_leaves_iff item, partOf_list]
    refine and_congr_left fun hleaf => ⟨.inr, fun h => h.resolve_left ?_⟩
    rintro rfl
    cases hleaf
  | .map value => by
    rw [leaves, mem_leaves_iff value, partOf_map]
    refine and_congr_left fun hleaf => ⟨.inr, fun h => h.resolve_left ?_⟩
    rintro rfl
    cases hleaf
  | .union members => by
    rw [leaves, mem_allLeaves_iff members, partOf_union]
    refine and_congr_left fun hleaf => ⟨.inr, fun h => h.resolve_left ?_⟩
    rintro rfl
    cases hleaf

theorem mem_allLeaves_iff : ∀ es : List TypeExpr,
    part ∈ allLeaves es ↔ (∃ e ∈ es, part.PartOf e) ∧ part.wrapper? = none
  | [] => by simp [allLeaves]
  | e :: es => by
    rw [allLeaves, List.mem_append, mem_leaves_iff e, mem_allLeaves_iff es, ← or_and_right,
      List.exists_mem_cons_iff]

end

mutual

theorem mem_generics_iff {name : String} : ∀ e : TypeExpr,
    name ∈ e.generics ↔ ∃ part : TypeExpr, part.PartOf e ∧ part.wrapper? = some name
  | .primitive _ | .wellKnown _ | .type _ | .ref _ => by
    refine ⟨fun h => absurd h List.not_mem_nil, ?_⟩
    rintro ⟨part, ⟨⟩, h⟩
    cases h
  | .bareList | .bareMap => by
    rw [generics, List.mem_singleton]
    constructor
    · rintro rfl
      exact ⟨_, .whole, rfl⟩
    · rintro ⟨part, ⟨⟩, h⟩
      exact (Option.some.inj h).symm
  | .list item => by
    rw [generics, List.mem_cons, mem_generics_iff item]
    simp only [partOf_list, or_and_right, exists_or, exists_eq_left, wrapper?, Option.some_inj, eq_comm]
  | .map value => by
    rw [generics, List.mem_cons, mem_generics_iff value]
    simp only [partOf_map, or_and_right, exists_or, exists_eq_left, wrapper?, Option.some_inj, eq_comm]
  | .union members => by
    rw [generics, List.mem_cons, mem_allGenerics_iff members]
    simp only [partOf_union, or_and_right, exists_or, exists_eq_left, wrapper?, Option.some_inj, eq_comm]

theorem mem_allGenerics_iff {name : String} : ∀ es : List TypeExpr, name ∈ allGenerics es ↔
    ∃ part : TypeExpr, (∃ e ∈ es, part.PartOf e) ∧ part.wrapper? = some name
  | [] => by simp [allGenerics]
  | e :: es => by
    rw [allGenerics, List.mem_append, mem_generics_iff e, mem_allGenerics_iff es]
    simp only [List.exists_mem_cons_iff, or_and_right, exists_or]

end

end TypeExpr

namespace Model

/-- A type of the group `key` that stands for itself. -/
def LiveIn (m : Model) (key : GroupKey) (t : TypeEntry) : Prop :=
  ∃ u : TypeId, m.types[u]? = some t ∧ t.group = key ∧ t.mergedInto = none

/-- `part` occurs in what a live type of the group is a synonym of, or in the type of one of its
properties. -/
def Uses (m : Model) (key : GroupKey) (part : TypeExpr) : Prop :=
  ∃ t, m.LiveIn key t ∧
    ((∃ target, t.kind = .synonym target ∧ part.PartOf target) ∨ ∃ p ∈ t.properties, part.PartOf p.type)

/-- A type of the group `k` is mentioned in the group `key`, by itself or by a name. -/
def Reaches (m : Model) (key k : GroupKey) : Prop :=
  (∃ id, m.Uses key (.type id) ∧ m.groupOf? (m.resolve id) = some k) ∨
    ∃ q, m.Uses key (.ref q) ∧ GroupKey.of q = k

/-- The view lists what the live types of its group use, each thing once and in order. -/
structure Records (m : Model) (key : GroupKey) (view : FinalizedGroup) : Prop where
  refs : ∀ k, k ∈ view.refs ↔ k ≠ key ∧ m.Reaches key k
  generics : ∀ name, name ∈ view.generics ↔ ∃ part, m.Uses key part ∧ part.wrapper? = some name
  baseTypes : ∀ name, name ∈ view.baseTypes ↔ (∃ w : WellKnown, m.Uses key (.wellKnown w) ∧ w.name = name) ∨
    ∃ t info, m.LiveIn key t ∧ t.kind = .apiResource info ∧ scopeName info.namespaced = name
  refs_increasing : view.refs.Pairwise fun a b => compare a b = .lt
  generics_increasing : view.generics.Pairwise fun a b => compare a b = .lt
  baseTypes_increasing : view.baseTypes.Pairwise fun a b => compare a b = .lt

variable {m : Model} {key : GroupKey} {types : List TypeId}

theorem foreignGroup?_eq_some_iff {leaf : TypeExpr} {k : GroupKey} :
    m.foreignGroup? key leaf = some k ↔ k ≠ key ∧
      ((∃ id, leaf = .type id ∧ m.groupOf? (m.resolve id) = some k) ∨
        ∃ q, leaf = .ref q ∧ GroupKey.of q = k) := by
  cases leaf with
  | type id =>
    rw [foreignGroup?, Option.filter_eq_some_iff, and_comm]
    simp
  | ref q =>
    rw [foreignGroup?]
    by_cases hq : GroupKey.of q = key
    · simp [hq, eq_comm]
    · simp only [beq_iff_eq, hq, if_false, Option.some_inj]
      constructor
      · rintro rfl
        exact ⟨hq, .inr ⟨q, rfl, rfl⟩⟩
      · rintro ⟨-, ⟨-, ⟨⟩, -⟩ | ⟨q', heq, rfl⟩⟩
        rw [TypeExpr.ref.inj heq]
  | _ => simp [foreignGroup?]

theorem mem_baseNamesOf {u : TypeId} {name : String} : name ∈ m.baseNamesOf u ↔
    (∃ w : WellKnown, .wellKnown w ∈ m.leavesOf u ∧ w.name = name) ∨ ∃ (t : TypeEntry) (info : ApiResource),
      m.types[u]? = some t ∧ t.kind = .apiResource info ∧ scopeName info.namespaced = name := by
  have hresource : ∀ t : TypeEntry, ∀ info, t.apiResource? = some info ↔ t.kind = .apiResource info := by
    intro t info
    rw [TypeEntry.apiResource?]
    cases t.kind <;> simp
  rw [baseNamesOf, List.mem_append, or_comm]
  refine or_congr ?_ ?_
  · rw [List.mem_filterMap]
    constructor
    · rintro ⟨leaf, hleaf, hname⟩
      cases leaf with
      | wellKnown w => exact ⟨w, hleaf, Option.some.inj hname⟩
      | _ => cases hname
    · rintro ⟨w, hw, rfl⟩
      exact ⟨_, hw, rfl⟩
  · simp only [Option.mem_toList, Option.map_eq_some_iff, Option.bind_eq_some_iff, hresource]
    constructor
    · rintro ⟨info, ⟨t, ht, hkind⟩, hname⟩
      exact ⟨t, info, ht, hkind, hname⟩
    · rintro ⟨t, info, ht, hkind, hname⟩
      exact ⟨info, ⟨t, ht, hkind⟩, hname⟩

section ListsLive

variable (h : m.ListsLive key types)

include h

theorem ListsLive.liveIn_iff {t : TypeEntry} :
    m.LiveIn key t ↔ ∃ u ∈ types, m.types[u]? = some t := by
  constructor
  · rintro ⟨u, ht, hgroup, hlive⟩
    refine ⟨u, (h.live u).mpr ⟨?_, ?_⟩, ht⟩
    · rw [groupOf?, ht, Option.map_some, hgroup]
    · rw [isLive_iff, mergedInto?, ht, Option.bind_some, hlive]
  · rintro ⟨u, hu, ht⟩
    obtain ⟨hgroup, hlive⟩ := (h.live u).mp hu
    rw [groupOf?, ht, Option.map_some, Option.some_inj] at hgroup
    rw [isLive_iff, mergedInto?, ht, Option.bind_some] at hlive
    exact ⟨u, ht, hgroup, hlive⟩

theorem ListsLive.uses_iff {part : TypeExpr} :
    m.Uses key part ↔ ∃ u ∈ types, ∃ e ∈ m.exprsOf u, part.PartOf e := by
  have hexprs : ∀ t : TypeEntry, ((∃ target, t.kind = .synonym target ∧ part.PartOf target) ∨
      ∃ p ∈ t.properties, part.PartOf p.type) ↔ ∃ e ∈ t.exprs, part.PartOf e := by
    intro t
    simp only [mem_exprs_iff, or_and_right, exists_or]
    refine or_congr_right ⟨?_, ?_⟩
    · rintro ⟨p, hp, hpart⟩
      exact ⟨p.type, ⟨p, hp, rfl⟩, hpart⟩
    · rintro ⟨e, ⟨p, hp, rfl⟩, hpart⟩
      exact ⟨p, hp, hpart⟩
  simp only [Uses, hexprs, h.liveIn_iff]
  constructor
  · rintro ⟨t, ⟨u, hu, ht⟩, e, he, hpart⟩
    exact ⟨u, hu, e, by rwa [exprsOf, ht], hpart⟩
  · rintro ⟨u, hu, e, he, hpart⟩
    cases ht : m.types[u]? with
    | none => simp [exprsOf, ht] at he
    | some t => exact ⟨t, ⟨u, hu, ht⟩, e, by rwa [exprsOf, ht] at he, hpart⟩

/-- The leaves of its types are what a group uses without a wrapper. -/
theorem ListsLive.mem_leavesOf_iff (leaf : TypeExpr) (hleaf : leaf.wrapper? = none) :
    (∃ u ∈ types, leaf ∈ m.leavesOf u) ↔ m.Uses key leaf := by
  simp only [h.uses_iff, leavesOf, List.mem_flatMap, TypeExpr.mem_leaves_iff, hleaf, and_true]

theorem ListsLive.records : m.Records key (m.viewOf key types) where
  refs := by
    intro k
    simp only [viewOf, mem_setOf, List.mem_flatMap, List.mem_filterMap, foreignGroup?_eq_some_iff, Reaches,
      ← h.mem_leavesOf_iff (.type _) rfl, ← h.mem_leavesOf_iff (.ref _) rfl]
    constructor
    · rintro ⟨u, hu, leaf, hleaf, hne, ⟨id, rfl, hid⟩ | ⟨q, rfl, hq⟩⟩
      · exact ⟨hne, .inl ⟨id, ⟨u, hu, hleaf⟩, hid⟩⟩
      · exact ⟨hne, .inr ⟨q, ⟨u, hu, hleaf⟩, hq⟩⟩
    · rintro ⟨hne, ⟨id, ⟨u, hu, hleaf⟩, hid⟩ | ⟨q, ⟨u, hu, hleaf⟩, hq⟩⟩
      · exact ⟨u, hu, .type id, hleaf, hne, .inl ⟨id, rfl, hid⟩⟩
      · exact ⟨u, hu, .ref q, hleaf, hne, .inr ⟨q, rfl, hq⟩⟩
  generics := by
    intro name
    simp only [viewOf, mem_setOf, List.mem_flatMap, TypeExpr.mem_generics_iff, h.uses_iff]
    constructor
    · rintro ⟨u, hu, e, he, part, hpart, hname⟩
      exact ⟨part, ⟨u, hu, e, he, hpart⟩, hname⟩
    · rintro ⟨part, ⟨u, hu, e, he, hpart⟩, hname⟩
      exact ⟨u, hu, e, he, part, hpart, hname⟩
  baseTypes := by
    intro name
    simp only [viewOf, mem_setOf, List.mem_flatMap, mem_baseNamesOf,
      ← h.mem_leavesOf_iff (.wellKnown _) rfl]
    constructor
    · rintro ⟨u, hu, ⟨w, hw, hname⟩ | ⟨t, info, ht, hkind, hname⟩⟩
      · exact .inl ⟨w, ⟨u, hu, hw⟩, hname⟩
      · exact .inr ⟨t, info, h.liveIn_iff.mpr ⟨u, hu, ht⟩, hkind, hname⟩
    · rintro (⟨w, ⟨u, hu, hw⟩, hname⟩ | ⟨t, info, hlive, hkind, hname⟩)
      · exact ⟨u, hu, .inl ⟨w, hw, hname⟩⟩
      · obtain ⟨u, hu, ht⟩ := h.liveIn_iff.mp hlive
        exact ⟨u, hu, .inr ⟨t, info, ht, hkind, hname⟩⟩
  refs_increasing := setOf_ordered _
  generics_increasing := setOf_ordered _
  baseTypes_increasing := setOf_ordered _

end ListsLive

end Model

end SchemaCompiler
