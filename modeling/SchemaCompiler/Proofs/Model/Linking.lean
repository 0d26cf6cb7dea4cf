import SchemaCompiler.Model.Reference
import SchemaCompiler.Proofs.Model.Independence

/-! References by name and by number. Types that have a name of their own may mention a registered
type either way. Objects are compared when their group is finalized, and what they mention is left as
it is; nothing else that finalizing does depends on which way was taken. -/

namespace SchemaCompiler

namespace TypeExpr

variable {find : QualifiedName → Option TypeId}

mutual

/-- The expression with the numbers of the types that `find` knows instead of their names. -/
def linked (find : QualifiedName → Option TypeId) : TypeExpr → TypeExpr
  | ref q => ((find q).map type).getD (ref q)
  | list item => list (linked find item)
  | map value => map (linked find value)
  | union members => union (allLinked find members)
  | e => e

def allLinked (find : QualifiedName → Option TypeId) : List TypeExpr → List TypeExpr
  | [] => []
  | e :: es => linked find e :: allLinked find es

end

/-- One name of a type that `find` knows became its number, or the other way round. -/
inductive Relinks (find : QualifiedName → Option TypeId) : TypeExpr → TypeExpr → Prop
  | toNumber {q : QualifiedName} {id : TypeId} (h : find q = some id) : Relinks find (ref q) (type id)
  | toName {q : QualifiedName} {id : TypeId} (h : find q = some id) : Relinks find (type id) (ref q)
  | list {e e' : TypeExpr} (h : Relinks find e e') : Relinks find (list e) (list e')
  | map {e e' : TypeExpr} (h : Relinks find e e') : Relinks find (map e) (map e')
  | union {before after : List TypeExpr} {e e' : TypeExpr} (h : Relinks find e e') :
    Relinks find (union (before ++ e :: after)) (union (before ++ e' :: after))

theorem allLinked_eq (find : QualifiedName → Option TypeId) (es : List TypeExpr) :
    allLinked find es = es.map (linked find) := by
  induction es with
  | nil => rfl
  | cons e es ih => rw [allLinked, ih, List.map_cons]

theorem Relinks.linked_eq {e e' : TypeExpr} (h : Relinks find e e') :
    e'.linked find = e.linked find := by
  induction h with
  | toNumber h => simp [linked, h]
  | toName h => simp [linked, h]
  | list _ ih => rw [linked, linked, ih]
  | map _ ih => rw [linked, linked, ih]
  | union _ ih => simp only [linked, allLinked_eq, List.map_append, List.map_cons, ih]

mutual

theorem generics_linked (find : QualifiedName → Option TypeId) :
    ∀ e : TypeExpr, (e.linked find).generics = e.generics
  | primitive _ => rfl
  | wellKnown _ => rfl
  | type _ => rfl
  | ref q => by cases h : find q <;> simp [linked, h, generics]
  | bareList => rfl
  | list e => by rw [linked, generics, generics, generics_linked find e]
  | bareMap => rfl
  | map e => by rw [linked, generics, generics, generics_linked find e]
  | union es => by rw [linked, generics, generics, allGenerics_linked find es]

theorem allGenerics_linked (find : QualifiedName → Option TypeId) :
    ∀ es : List TypeExpr, allGenerics (allLinked find es) = allGenerics es
  | [] => rfl
  | e :: es => by
    rw [allLinked, allGenerics, allGenerics, generics_linked find e, allGenerics_linked find es]

end

section Leaves

variable {β : Type} {f : TypeExpr → Option β}

mutual

/-- Whatever takes a name for the type behind it finds the same on both sides. -/
theorem filterMap_linked (hf : ∀ {q id}, find q = some id → f (ref q) = f (type id)) :
    ∀ e : TypeExpr, (e.linked find).leaves.filterMap f = e.leaves.filterMap f
  | primitive _ => rfl
  | wellKnown _ => rfl
  | type _ => rfl
  | ref q => by
    cases h : find q with
    | none => simp [linked, h]
    | some id => simp [linked, h, leaves, List.filterMap_cons, hf h]
  | bareList => rfl
  | list e => by rw [linked, leaves, leaves, filterMap_linked hf e]
  | bareMap => rfl
  | map e => by rw [linked, leaves, leaves, filterMap_linked hf e]
  | union es => by rw [linked, leaves, leaves, filterMap_allLinked hf es]

theorem filterMap_allLinked (hf : ∀ {q id}, find q = some id → f (ref q) = f (type id)) :
    ∀ es : List TypeExpr, (allLeaves (allLinked find es)).filterMap f = (allLeaves es).filterMap f
  | [] => rfl
  | e :: es => by
    rw [allLinked, allLeaves, allLeaves, List.filterMap_append, List.filterMap_append,
      filterMap_linked hf e, filterMap_allLinked hf es]

end

end Leaves

end TypeExpr

section Entries

variable {find : QualifiedName → Option TypeId}

def TypeKind.linked (find : QualifiedName → Option TypeId) : TypeKind → TypeKind
  | .synonym target => .synonym (target.linked find)
  | kind => kind

def Property.linked (find : QualifiedName → Option TypeId) (p : Property) : Property :=
  { p with type := p.type.linked find }

namespace TypeEntry

def linked (find : QualifiedName → Option TypeId) (t : TypeEntry) : TypeEntry :=
  { t with kind := t.kind.linked find, properties := t.properties.map (Property.linked find) }

/-- One reference is replaced, in what the type is a synonym of or in the type of a property. -/
inductive Relinks (find : QualifiedName → Option TypeId) (t : TypeEntry) : TypeEntry → Prop
  | synonym {e e' : TypeExpr} (hkind : t.kind = .synonym e) (h : e.Relinks find e') :
    Relinks find t { t with kind := .synonym e' }
  | property {before after : List Property} {p : Property} {e' : TypeExpr}
    (hproperties : t.properties = before ++ p :: after) (h : p.type.Relinks find e') :
    Relinks find t { t with properties := before ++ { p with type := e' } :: after }

theorem Relinks.linked_eq {t t' : TypeEntry} (h : t.Relinks find t') :
    t'.linked find = t.linked find := by
  cases h with
  | synonym hkind h => simp [linked, hkind, TypeKind.linked, h.linked_eq]
  | property hproperties h => simp [linked, hproperties, Property.linked, h.linked_eq]

theorem exprs_linked (find : QualifiedName → Option TypeId) (t : TypeEntry) :
    (t.linked find).exprs = t.exprs.map (TypeExpr.linked find) := by
  cases hk : t.kind <;> simp [exprs, linked, hk, TypeKind.linked, Property.linked, Function.comp_def]

theorem apiResource?_linked (find : QualifiedName → Option TypeId) (t : TypeEntry) :
    (t.linked find).apiResource? = t.apiResource? := by
  cases hk : t.kind <;> simp [apiResource?, linked, hk, TypeKind.linked]

end TypeEntry

end Entries

namespace Model

variable {m m' : Model} {find : QualifiedName → Option TypeId} {key : GroupKey} {g : Group}
  {x : TypeId}

/-- The type that is registered under a name. -/
def lookup? (m : Model) (q : QualifiedName) : Option TypeId := m.named? (GroupKey.of q) q.name

/-- One reference in a type that has a name of its own is replaced. -/
def Relinks (m m' : Model) : Prop :=
  ∃ key name id t t', m.named? key name = some id ∧ m.types[id]? = some t ∧
    t.Relinks m.lookup? t' ∧ m' = m.amend id fun _ => t'

/-! What finalizing writes to an entry. -/

/-- The entry of `i` with the name that `names` give it at last. -/
def renamed (names : List (TypeId × String)) (i : TypeId) (t : TypeEntry) : TypeEntry :=
  names.foldl (fun t e => if i = e.1 then { t with name := e.2 } else t) t

theorem getElem?_assignNames (m : Model) (names : List (TypeId × String)) (i : TypeId) :
    (m.assignNames names).types[i]? = (m.types[i]?).map (renamed names i) := by
  induction names generalizing m with
  | nil => cases ht : m.types[i]? <;> simp [assignNames, ht, renamed]
  | cons e names ih =>
    have hcons : m.assignNames (e :: names) =
        (m.amend e.1 fun t => { t with name := e.2 }).assignNames names := rfl
    rw [hcons, ih, getElem?_amend]
    by_cases he : i = e.1 <;> cases ht : m.types[i]? <;> simp [he, renamed]

theorem linked_renamed (names : List (TypeId × String)) (i : TypeId) (t : TypeEntry) :
    (renamed names i t).linked find = renamed names i (t.linked find) := by
  induction names generalizing t with
  | nil => rfl
  | cons e names ih =>
    simp only [renamed, List.foldl_cons] at ih ⊢
    rw [ih]
    by_cases he : i = e.1 <;> simp [he, TypeEntry.linked]

/-- The entry of `i` with the full name that it takes over once it was merged. -/
def shared (m : Model) (g : Group) (i : TypeId) (t : TypeEntry) : TypeEntry :=
  if m.isLive i = true then t
  else if i ∈ g.objects then
    { t with qualified := ((m.types[m.resolve i]?).map TypeEntry.qualified).getD "" }
  else t

theorem linked_shared (m : Model) (g : Group) (i : TypeId) (t : TypeEntry) :
    (m.shared g i t).linked find = m.shared g i (t.linked find) := by
  rw [shared, shared]
  split
  · rfl
  · split <;> rfl

/-- `m'` is `m` but for how types with a name of their own refer to the types that `find` knows. -/
structure Linked (find : QualifiedName → Option TypeId) (m m' : Model) : Prop extends
    SameUpTo (TypeEntry.linked find) m m' where
  source : m.WellFormed
  target : m'.WellFormed
  objects : ∀ {k i}, m.Filed k i → m'.types[i]? = m.types[i]?

section Linked

variable (h : Linked find m m')

include h

theorem Linked.groupOf? (i : TypeId) : m'.groupOf? i = m.groupOf? i :=
  h.map_getElem? (fun _ => rfl) i

theorem Linked.fullNameOf (i : TypeId) : m'.fullNameOf i = m.fullNameOf i :=
  h.toSameUpTo.fullNameOf (fun _ => rfl) i

theorem Linked.mergedInto? (i : TypeId) : m'.mergedInto? i = m.mergedInto? i :=
  h.toSameUpTo.mergedInto? (fun _ => rfl) i

theorem Linked.resolve (i : TypeId) : m'.resolve i = m.resolve i :=
  resolve_congr h.size_eq h.mergedInto? i

theorem Linked.isLive (i : TypeId) : m'.isLive i = m.isLive i := by
  rw [Bool.eq_iff_iff, isLive_iff, isLive_iff, h.mergedInto?]

theorem Linked.group? (k : GroupKey) : m'.group? k = m.group? k := by
  rw [Model.group?, h.groups, Model.group?]

theorem Linked.structureOf (hx : m.Filed key x) : m'.structureOf x = m.structureOf x := by
  rw [Model.structureOf, h.objects hx, funext h.resolve, Model.structureOf]

/-- Whatever is written to the entries in the same way. -/
theorem Linked.write {m₁ m₁' : Model} {w : TypeId → TypeEntry → TypeEntry}
    (hw : ∀ i t, (w i t).linked find = w i (t.linked find)) (hwf : m₁.WellFormed)
    (hwf' : m₁'.WellFormed) (hgroups : m₁.groups = m.groups) (hgroups' : m₁'.groups = m'.groups)
    (hindex : m₁.index = m.index) (hindex' : m₁'.index = m'.index)
    (htypes : ∀ i : TypeId, m₁.types[i]? = (m.types[i]?).map (w i))
    (htypes' : ∀ i : TypeId, m₁'.types[i]? = (m'.types[i]?).map (w i)) : Linked find m₁ m₁' where
  groups := by rw [hgroups', hgroups, h.groups]
  index := by rw [hindex', hindex, h.index]
  entries := by
    intro i
    have hentries := congrArg (Option.map (w i)) (h.entries i)
    simp only [Option.map_map, Function.comp_def, ← hw] at hentries
    rw [htypes, htypes', Option.map_map, Option.map_map]
    exact hentries
  source := hwf
  target := hwf'
  objects := by
    rintro k i ⟨short, hs⟩
    rw [Model.bucket, Model.group?, hgroups, ← Model.group?, ← Model.bucket] at hs
    rw [htypes, htypes', h.objects ⟨short, hs⟩]

theorem Linked.standIn {members : List TypeId} (hfiled : ∀ i ∈ members, m.Filed key i)
    (i : TypeId) : m'.standIn members i = m.standIn members i := by
  by_cases hi : i ∈ members
  · refine standIn_correspond (f := fun i => i) (by simp) (fun i _ => h.isLive i) (fun i hi j hj => ?_)
      (fun i _ j _ => ?_) hi
    · rw [h.structureOf (hfiled i hi), h.structureOf (hfiled j hj)]
    · exact precedes_congr (h.fullNameOf i) (h.fullNameOf j)
  · rw [standIn_of_not fun hn => hi hn.1, standIn_of_not fun hn => hi hn.1]

theorem Linked.mergeBucket (short : String) :
    Linked find (m.mergeBucket (m.bucket key short)) (m'.mergeBucket (m.bucket key short)) := by
  have hbucket := h.bucket key short
  obtain ⟨hm, -⟩ := h.source.mergeBucket fun i (hi : i ∈ m.bucket key short) => hi
  obtain ⟨hm', -⟩ := h.target.mergeBucket fun i (hi : i ∈ m.bucket key short) => by rwa [hbucket]
  refine h.write (w := fun i t => if m.standIn (m.bucket key short) i = i then t
      else { t with mergedInto := some (m.standIn (m.bucket key short) i) }) (fun i t => ?_)
    hm.wellFormed hm'.wellFormed hm.groups hm'.groups hm.index hm'.index
    (fun i => getElem?_mergeBucket i) fun i => ?_
  · split <;> rfl
  · rw [getElem?_mergeBucket, h.standIn fun i hi => ⟨short, hi⟩]

theorem Linked.merging (hg : m.group? key = some g) : Linked find (m.merging g) (m'.merging g) := by
  have hstep : ∀ m₁ m₂, Linked find m₁ m₂ ∧ MergesTo g.objects m m₁ → ∀ b ∈ Table.values g.anonymous,
      Linked find (m₁.mergeBucket b) (m₂.mergeBucket b) ∧ MergesTo g.objects m (m₁.mergeBucket b) := by
    rintro m₁ m₂ ⟨hl, hm⟩ b hb
    have hnext := h.source.mergeBucket_objects hg hm hb
    obtain ⟨short, rfl⟩ := h.source.mem_values hg hb
    have hmerged : Linked find (m₁.mergeBucket (m₁.bucket key short))
        (m₂.mergeBucket (m₁.bucket key short)) := hl.mergeBucket short
    rw [hm.bucket] at hmerged
    exact ⟨hmerged, hm.trans hnext⟩
  have hmerging := mergeRounds_correspond
    (R := fun m₁ m₂ => Linked find m₁ m₂ ∧ MergesTo g.objects m m₁)
    (List.forall₂_same.mpr fun b hb m₁ m₂ hR => hstep m₁ m₂ hR b hb)
    (fun m₁ m₂ hR => List.countP_congr fun i _ => by rw [hR.1.isLive]) g.objects.length
    ⟨h, MergesTo.refl h.source _⟩
  exact hmerging.1

theorem Linked.classesOf {members : List TypeId} (hfiled : ∀ i ∈ members, m.Filed key i)
    (hmem : ∀ i ∈ members, m.resolve i ∈ members) :
    m'.classesOf members = m.classesOf members := by
  have hclass : ∀ r ∈ setOf (members.map m.resolve), m'.classOf members r = m.classOf members r := by
    intro r hr
    obtain ⟨i, hi, rfl⟩ := List.mem_map.mp (mem_setOf.mp hr)
    have hstructure := h.structureOf (hfiled _ (hmem i hi))
    simp only [classOf, h.resolve, h.fullNameOf, hstructure]
  rw [Model.classesOf, Model.classesOf, funext h.resolve]
  congr 1
  exact List.map_congr_left hclass

theorem Linked.namings (hg : m.group? key = some g) : m'.namings g = m.namings g := by
  have hwf := (h.source.merging hg).wellFormed
  refine h.source.namings_congr hg fun short => ?_
  exact (h.merging hg).classesOf (fun i hi => ⟨short, hi⟩) fun i hi => hwf.resolve_mem hi

theorem Linked.reconcile (hg : m.group? key = some g) :
    Linked find (m.reconcile g) (m'.reconcile g) := by
  have hg' : m'.group? key = some g := (h.group? key).trans hg
  have hmerging := h.merging hg
  have hrenames := h.source.reconcile_renames hg
  have hrenames' := h.target.reconcile_renames hg'
  have hqualified : ∀ i, ((m'.merging g).types[i]?).map TypeEntry.qualified =
      ((m.merging g).types[i]?).map TypeEntry.qualified := hmerging.map_getElem? fun _ => rfl
  refine hmerging.write (w := fun i t => renamed (m.namings g) i ((m.merging g).shared g i t))
    (fun i t => ?_) (h.source.reconcile hg) (h.target.reconcile hg') hrenames.groups
    hrenames'.groups hrenames.index hrenames'.index (fun i => ?_) fun i => ?_
  · rw [linked_renamed, linked_shared]
  · rw [reconcile_eq, getElem?_assignNames, h.source.getElem?_mergeEquals hg, Option.map_map]
    rfl
  · rw [reconcile_eq, getElem?_assignNames, h.target.getElem?_mergeEquals hg', h.namings hg,
      hmerging.isLive, hmerging.resolve, hqualified, Option.map_map]
    rfl

/-! The view. -/

theorem Linked.flatMap_exprs {β : Type} {f : TypeExpr → List β} (hf : ∀ e, f (e.linked find) = f e)
    (u : TypeId) : (m'.exprsOf u).flatMap f = (m.exprsOf u).flatMap f := by
  have hone : ∀ m : Model, (m.exprsOf u).flatMap f =
      ((((m.types[u]?).map (TypeEntry.linked find)).map TypeEntry.exprs).getD []).flatMap f := by
    intro m
    rw [exprsOf]
    cases m.types[u]? with
    | none => rfl
    | some t => simp [TypeEntry.exprs_linked, List.flatMap_map, hf]
  rw [hone, hone, h.entries]

theorem Linked.filterMap_leavesOf {β : Type} {f : TypeExpr → Option β}
    (hf : ∀ {q id}, find q = some id → f (.ref q) = f (.type id)) (u : TypeId) :
    (m'.leavesOf u).filterMap f = (m.leavesOf u).filterMap f := by
  rw [leavesOf, leavesOf, List.filterMap_flatMap, List.filterMap_flatMap]
  exact h.flatMap_exprs (TypeExpr.filterMap_linked hf) u

theorem Linked.baseNamesOf (u : TypeId) : m'.baseNamesOf u = m.baseNamesOf u := by
  have hresource := congrArg (Option.bind · id)
    (h.map_getElem? (TypeEntry.apiResource?_linked find) u)
  rw [Option.bind_map, Option.bind_map] at hresource
  have hleaves := h.filterMap_leavesOf (f := TypeExpr.wellKnownName?) (fun _ => rfl) u
  rw [Model.baseNamesOf, hleaves, Model.baseNamesOf]
  congr 3

end Linked

/-- A registered type is in the group of its name and stands for itself. -/
theorem WellFormed.of_lookup? (h : m.WellFormed) {q : QualifiedName} (hq : m.lookup? q = some x) :
    m.groupOf? x = some (GroupKey.of q) ∧ m.resolve x = x := by
  obtain ⟨t, ht, hgroup, -, -, hmerged⟩ := h.named hq
  constructor
  · rw [groupOf?, ht, Option.map_some, hgroup]
  · refine resolve_of_live ?_
    rw [mergedInto?, ht, Option.bind_some, hmerged]

theorem WellFormed.localTarget?_ref (h : m.WellFormed) {q : QualifiedName}
    (hq : m.lookup? q = some x) (key : GroupKey) :
    m.localTarget? key (.ref q) = m.localTarget? key (.type x) := by
  obtain ⟨hgroup, hself⟩ := h.of_lookup? hq
  by_cases hk : GroupKey.of q = key
  · rw [lookup?, hk] at hq
    simp [localTarget?, hself, hgroup, hk, hq]
  · simp [localTarget?, hself, hgroup, hk]

theorem WellFormed.foreignGroup?_ref (h : m.WellFormed) {q : QualifiedName}
    (hq : m.lookup? q = some x) (key : GroupKey) :
    m.foreignGroup? key (.ref q) = m.foreignGroup? key (.type x) := by
  obtain ⟨hgroup, hself⟩ := h.of_lookup? hq
  by_cases hk : GroupKey.of q = key <;>
    simp [foreignGroup?, hself, hgroup, hk, Option.filter_some]

theorem Linked.lookup? (h : Linked find m m') : m'.lookup? = m.lookup? :=
  funext fun q => h.named? (GroupKey.of q) q.name

theorem Linked.corresponds (h : Linked find m m') (hfind : find = m.lookup?) (key : GroupKey) :
    Corresponds id key m m' := by
  have hlocal : m'.localTarget? key = m.localTarget? key := by
    funext leaf
    cases leaf with
    | type x => rw [localTarget?, localTarget?, h.groupOf?, h.resolve]
    | ref q => rw [localTarget?, localTarget?, h.named?]
    | _ => rfl
  have hforeign : m'.foreignGroup? key = m.foreignGroup? key := by
    funext leaf
    cases leaf with
    | type x => rw [foreignGroup?, foreignGroup?, h.groupOf?, h.resolve]
    | _ => rfl
  subst hfind
  refine ⟨h.source, h.target, h.size_eq, fun {u} => ?_, fun _ _ huv => huv, fun u _ => ?_,
    fun u _ => ?_, fun u _ => ?_, fun u _ => ?_⟩
  · simp only [id, exists_eq_right, h.target.mem_liveTypes, h.source.mem_liveTypes, h.groupOf?,
      h.isLive]
  · rw [List.map_id, dependencies, id, hlocal, h.filterMap_leavesOf fun hq =>
      h.source.localTarget?_ref hq key, dependencies]
  · rw [id, hforeign, h.filterMap_leavesOf fun hq => h.source.foreignGroup?_ref hq key]
  · rw [id, h.flatMap_exprs (TypeExpr.generics_linked _)]
  · rw [id, h.baseNamesOf]

theorem Linked.viewOf (h : Linked find m m') (hfind : find = m.lookup?)
    (hnames : m.DistinctNames key) :
    m'.viewOf key (m'.dependencyOrder key) = m.viewOf key (m.dependencyOrder key) := by
  have hview := (h.corresponds hfind key).viewOf hnames fun u _ => h.map_getElem? (fun _ => rfl) u
  rw [hview, List.map_id]
  rfl

theorem Linked.setFinalized (h : Linked find m m') (hg : m.group? key = some g)
    (view : FinalizedGroup) :
    Linked find (m.setFinalized key g view) (m'.setFinalized key g view) where
  groups := by rw [Model.setFinalized, h.groups, Model.setFinalized]
  index := h.index
  entries := h.entries
  source := h.source.setFinalized hg
  target := h.target.setFinalized ((h.group? key).trans hg)
  objects := by
    rintro k i ⟨short, hs⟩
    rw [bucket_setFinalized hg] at hs
    exact h.objects ⟨short, hs⟩

theorem Linked.finalizeGroup (h : Linked find m m') (hfind : find = m.lookup?) (key : GroupKey) :
    Linked find (m.finalizeGroup key) (m'.finalizeGroup key) := by
  cases hg : m.group? key with
  | none => rwa [finalizeGroup_absent hg, finalizeGroup_absent ((h.group? key).trans hg)]
  | some g =>
    have hreconcile := h.reconcile hg
    have hgroup := h.source.group?_reconcile hg
    have hfound : find = (m.reconcile g).lookup? := by
      funext q
      rw [hfind, Model.lookup?, Model.lookup?, Model.named?, Model.named?, hgroup]
    rw [finalizeGroup_eq hg, finalizeGroup_eq ((h.group? key).trans hg),
      hreconcile.viewOf hfound (h.source.distinctNames_reconcile hg)]
    exact hreconcile.setFinalized ((hgroup key).trans hg) _

theorem Linked.foldl (h : Linked find m m') (hfind : find = m.lookup?) (turns : List GroupKey) :
    Linked find (turns.foldl Model.finalizeGroup m) (turns.foldl Model.finalizeGroup m') := by
  induction turns generalizing m m' with
  | nil => exact h
  | cons key turns ih =>
    refine ih (h.finalizeGroup hfind key) ?_
    funext q
    rw [hfind, Model.lookup?, Model.lookup?, h.source.named?_finalizeGroup]

theorem Linked.refl (h : m.WellFormed) : Linked find m m :=
  ⟨SameUpTo.refl _ m, h, h, fun _ => rfl⟩

theorem Linked.trans {m₁ m₂ m₃ : Model} (h : Linked find m₁ m₂) (h' : Linked find m₂ m₃) :
    Linked find m₁ m₃ where
  toSameUpTo := h.toSameUpTo.trans h'.toSameUpTo
  source := h.source
  target := h'.target
  objects := by
    rintro k i ⟨short, hs⟩
    rw [← h.objects ⟨short, hs⟩]
    rw [← h.bucket] at hs
    exact h'.objects ⟨short, hs⟩

theorem Relinks.linked (hr : m.Relinks m') (h : m.WellFormed) : Linked m.lookup? m m' := by
  obtain ⟨key, name, i, t, t', hi, ht, hentry, rfl⟩ := hr
  have hsame : SameUpTo (TypeEntry.linked m.lookup?) m (m.amend i fun _ => t') := by
    refine ⟨rfl, rfl, fun j => ?_⟩
    rw [getElem?_amend]
    by_cases hj : j = i
    · rw [if_pos hj, hj, ht, Option.map_some, Option.map_some, Option.map_some, hentry.linked_eq]
    · rw [if_neg hj]
  have hwf : (m.amend i fun _ => t').WellFormed :=
    hsame.wellFormed h (fun _ => rfl) (fun _ => rfl) (fun _ => rfl) fun _ =>
      hsame.map_getElem? (fun _ => rfl) _
  refine ⟨hsame, h, hwf, ?_⟩
  rintro k j ⟨short, hs⟩
  have hj : j ≠ i := by
    rintro rfl
    exact h.apart hi hs
  rw [getElem?_amend, if_neg hj]

theorem linked_of_relinks (h : m.WellFormed) (hr : Relation.ReflTransGen Relinks m m') :
    Linked m.lookup? m m' := by
  induction hr with
  | refl => exact .refl h
  | tail _ hr ih =>
    have hnext := hr.linked ih.target
    rw [ih.lookup?] at hnext
    exact ih.trans hnext

end Model

end SchemaCompiler
