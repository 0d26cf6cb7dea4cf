import SchemaCompiler.Proofs.Inference

/-! The order of definitions of custom resources. They are registered by group and kind, so their order
decides one thing: which definition is compiled of several that share group and kind. It is the first one
that has a version to compile. -/

namespace SchemaCompiler

namespace Importer

variable {i : Importer} {r x : Root} {roots : List Root}

def registerRoots (i : Importer) (roots : List Root) : Importer :=
  roots.foldl (fun i r => (i.registerRoot r.group r.name r.kind r.schema).2) i

/-- Whether `x` is registered under the name of `r`. -/
def Root.sharesName (r x : Root) : Bool := x.group == r.group && x.name == r.name

theorem Root.sharesName_iff : r.sharesName x = true ↔ x.group = r.group ∧ x.name = r.name := by
  rw [sharesName, Bool.and_eq_true, beq_iff_eq, beq_iff_eq]

theorem Root.sharesName_comm (r x : Root) : r.sharesName x = x.sharesName r := by
  rw [Bool.eq_iff_iff, sharesName_iff, sharesName_iff, eq_comm, eq_comm (a := x.name)]

/-- The first of the roots of each name. -/
def firstRoots : List Root → List Root
  | [] => []
  | r :: rest => r :: (firstRoots rest).filter (!r.sharesName ·)

theorem firstRoots_sublist (roots : List Root) : (firstRoots roots).Sublist roots := by
  induction roots with
  | nil => exact .slnil
  | cons r rest ih => exact (List.filter_sublist.trans ih).cons_cons r

theorem firstRoots_apart (roots : List Root) :
    (firstRoots roots).Pairwise fun r x => r.sharesName x = false := by
  induction roots with
  | nil => exact .nil
  | cons r rest ih =>
    refine List.pairwise_cons.mpr ⟨fun x hx => ?_, ih.filter _⟩
    simpa using (List.mem_filter.mp hx).2

theorem mem_firstRoots : x ∈ firstRoots roots ↔ roots.find? x.sharesName = some x := by
  induction roots with
  | nil => simp [firstRoots]
  | cons r rest ih =>
    rw [firstRoots, List.mem_cons, List.mem_filter, ih, List.find?_cons, r.sharesName_comm]
    cases hshares : x.sharesName r with
    | true => simp [eq_comm]
    | false =>
      have hne : x ≠ r := by
        rintro rfl
        simp [Root.sharesName] at hshares
      simp [hne]

/-- Whether a type is registered under the name of `r`. -/
def Knows (i : Importer) (r : Root) : Prop := ∃ id, i.model.find? r.group (r.group.qualify r.name) = some id

theorem knows_registerRoot (i : Importer) (r : Root) :
    (i.registerRoot r.group r.name r.kind r.schema).2.Knows x ↔ r.sharesName x = true ∨ i.Knows x := by
  rw [Root.sharesName_iff]
  cases hfind : i.model.find? r.group (r.group.qualify r.name) with
  | some id =>
    rw [registerRoot_known hfind]
    refine (or_iff_right_of_imp ?_).symm
    rintro ⟨hgroup, hname⟩
    exact ⟨id, by rw [hgroup, hname, hfind]⟩
  | none =>
    have hmodel : (i.registerRoot r.group r.name r.kind r.schema).2.model =
        (i.model.registerNamed r.group r.name r.kind r.schema.description).2 := by
      rw [registerRoot_new hfind]
      rfl
    rw [Knows, hmodel, Model.find?_registerNamed_new hfind, Knows]
    by_cases hsame : x.group = r.group ∧ x.name = r.name
    · simp [hsame]
    · simp only [hsame, if_false, false_or]

/-- Roots that are registered under a known name need not be registered. -/
theorem registerRoots_filter (h : i.Knows r) (roots : List Root) :
    i.registerRoots (roots.filter (!r.sharesName ·)) = i.registerRoots roots := by
  induction roots generalizing i with
  | nil => rfl
  | cons x rest ih =>
    have hnext := ih ((knows_registerRoot i x).mpr (.inr h))
    cases hshares : r.sharesName x with
    | true =>
      -- `x` is dropped on the left, and finds its name known on the right.
      obtain ⟨hgroup, hname⟩ := Root.sharesName_iff.mp hshares
      obtain ⟨id, hid⟩ := h
      rw [← hgroup, ← hname] at hid
      rw [registerRoot_known hid] at hnext
      rw [List.filter_cons_of_neg (by simp [hshares]), hnext, registerRoots, registerRoots, List.foldl_cons,
        registerRoot_known hid]
    | false =>
      rw [List.filter_cons_of_pos (by simp [hshares])]
      exact hnext

/-- Only the first root of each name counts. -/
theorem registerRoots_firstRoots (i : Importer) (roots : List Root) :
    i.registerRoots (firstRoots roots) = i.registerRoots roots := by
  induction roots generalizing i with
  | nil => rfl
  | cons r rest ih =>
    have hknown : (i.registerRoot r.group r.name r.kind r.schema).2.Knows r :=
      (knows_registerRoot i r).mpr (.inl (Root.sharesName_iff.mpr ⟨rfl, rfl⟩))
    exact (registerRoots_filter hknown _).trans (ih _)

end Importer

namespace CustomResource

open Importer

variable {resources resources' : List CustomResource} {group kind : String} {x y : Root}

theorem foldl_register (i : Importer) (resources : List CustomResource) :
    resources.foldl register i = i.registerRoots (resources.filterMap root?) := by
  induction resources generalizing i with
  | nil => rfl
  | cons r resources ih =>
    rw [List.foldl_cons, ih]
    cases hr : r.root? with
    | none => rw [List.filterMap_cons_none hr, register_none hr]
    | some x =>
      rw [List.filterMap_cons_some hr, register_some hr]
      rfl

theorem registered_eq (resources : List CustomResource) :
    registered resources = ({} : Importer).registerRoots (firstRoots (roots resources)) := by
  rw [registered, foldl_register, registerRoots_firstRoots, roots]

theorem root?_name {r : CustomResource} (hr : r.root? = some x) :
    x.group = ⟨r.group, none⟩ ∧ x.name = r.names.kind := by
  obtain ⟨v, -, hx⟩ := Option.bind_eq_some_iff.mp hr
  obtain ⟨schema, -, rfl⟩ := Option.map_eq_some_iff.mp hx
  exact ⟨rfl, rfl⟩

/-- The root of the first definition of a group and kind that has a version to compile. -/
def firstRoot? (resources : List CustomResource) (group kind : String) : Option Root :=
  (resources.filter fun r => r.group == group && r.names.kind == kind).findSome? root?

theorem firstRoot?_eq (resources : List CustomResource) (group kind : String) :
    firstRoot? resources group kind =
      (resources.filterMap root?).find? fun x => x.group == ⟨group, none⟩ && x.name == kind := by
  induction resources with
  | nil => rfl
  | cons r resources ih =>
    rw [firstRoot?] at ih ⊢
    rw [List.filter_cons]
    cases hr : r.root? with
    | none =>
      rw [List.filterMap_cons_none hr, ← ih]
      split
      · rw [List.findSome?_cons, hr]
      · rfl
    | some x =>
      obtain ⟨hgroup, hname⟩ := root?_name hr
      have hnamed : (x.group == ⟨group, none⟩ && x.name == kind) =
          (r.group == group && r.names.kind == kind) := by
        rw [hgroup, hname, Bool.eq_iff_iff]
        simp
      rw [List.filterMap_cons_some hr, List.find?_cons, hnamed, ← ih]
      cases r.group == group && r.names.kind == kind with
      | true => rw [if_pos rfl, List.findSome?_cons, hr]
      | false => rw [if_neg Bool.false_ne_true]

/-! The order of registration. -/

theorem order_eq_compareLex : order =
    compareLex (compareOn CustomResource.group) (compareOn fun r => r.names.kind) := rfl

instance : Std.TransCmp order := by
  rw [order_eq_compareLex]
  infer_instance

/-- Sorting leaves definitions of one group and kind in their order. -/
theorem filter_sorted (resources : List CustomResource) (group kind : String) :
    (sorted resources).filter (fun r => r.group == group && r.names.kind == kind) =
      resources.filter fun r => r.group == group && r.names.kind == kind := by
  let named := fun r : CustomResource => r.group == group && r.names.kind == kind
  have hnamed : ∀ {r}, r ∈ resources.filter named → r.group = group ∧ r.names.kind = kind := by
    intro r hr
    simpa [named] using (List.mem_filter.mp hr).2
  have hequal : (resources.filter named).Pairwise fun a b => (order a b != .gt) = true := by
    have hself : ∀ s : String, compare s s = .eq := fun _ => Std.ReflCmp.compare_self
    refine List.pairwise_of_forall_mem_list fun a ha b hb => ?_
    rw [order, (hnamed ha).1, (hnamed ha).2, (hnamed hb).1, (hnamed hb).2, hself, hself]
    rfl
  have hsublist : (resources.filter named).Sublist (sorted resources) :=
    List.sublist_mergeSort (ne_gt_trans order) (ne_gt_total order) hequal List.filter_sublist
  -- They stand in the sorted list in their order, and it has no others like them.
  have hlength : ((sorted resources).filter named).length = (resources.filter named).length :=
    ((List.mergeSort_perm resources _).filter named).length_eq
  have hkept := hsublist.filter named
  simp only [List.filter_filter, Bool.and_self] at hkept
  exact (hkept.eq_of_length hlength.symm).symm

/-- The order of roots as they are registered. -/
def rootOrder : Root → Root → Ordering :=
  compareLex (compareOn fun x => x.group.group) (compareOn Root.name)

instance : Std.TransCmp rootOrder := by
  rw [rootOrder]
  infer_instance

theorem roots_pairwise (resources : List CustomResource) :
    (roots resources).Pairwise fun x y => rootOrder x y = .lt ∨ x.sharesName y = true := by
  have hsorted : (sorted resources).Pairwise fun a b => (order a b != .gt) = true :=
    pairwise_sorted order resources
  refine List.pairwise_filterMap.mpr (hsorted.imp fun {a b} hle x hx y hy => ?_)
  obtain ⟨hxgroup, hxname⟩ := root?_name hx
  obtain ⟨hygroup, hyname⟩ := root?_name hy
  have horder : rootOrder x y = order a b := by
    rw [rootOrder, order_eq_compareLex, compareLex, compareLex]
    simp only [compareOn, hxgroup, hxname, hygroup, hyname]
  rw [horder]
  cases hab : order a b with
  | lt => exact .inl rfl
  | eq =>
    obtain ⟨hgroup, hkind⟩ := Ordering.then_eq_eq.mp hab
    rw [Root.sharesName_iff, hxgroup, hxname, hygroup, hyname, Std.LawfulEqOrd.eq_of_compare hgroup,
      Std.LawfulEqOrd.eq_of_compare hkind]
    exact .inr ⟨rfl, rfl⟩
  | gt => simp [hab] at hle

theorem firstRoots_pairwise (resources : List CustomResource) :
    (firstRoots (roots resources)).Pairwise fun x y => rootOrder x y = .lt := by
  have hordered := (roots_pairwise resources).sublist (firstRoots_sublist _)
  refine hordered.imp₂ (fun x y hxy hapart => hxy.resolve_right ?_) (firstRoots_apart _)
  rw [hapart]
  exact Bool.false_ne_true

theorem mem_firstRoots_roots :
    x ∈ firstRoots (roots resources) ↔ firstRoot? resources x.group.group x.name = some x := by
  have hfirst : firstRoot? resources x.group.group x.name =
      (roots resources).find? fun y => y.group == ⟨x.group.group, none⟩ && y.name == x.name := by
    rw [roots, ← firstRoot?_eq, firstRoot?, firstRoot?, filter_sorted]
  have hgroup : x ∈ roots resources → x.group = ⟨x.group.group, none⟩ := by
    intro hx
    obtain ⟨r, -, hr⟩ := List.mem_filterMap.mp hx
    rw [(root?_name hr).1]
  rw [mem_firstRoots, hfirst]
  constructor
  · intro hfind
    rwa [← hgroup (List.mem_of_find?_eq_some hfind)]
  · intro hfind
    rwa [← hgroup (List.mem_of_find?_eq_some hfind)] at hfind

/-- What is registered depends on the first root of each group and kind alone. -/
theorem registered_congr (hfirst : ∀ group kind,
    firstRoot? resources group kind = firstRoot? resources' group kind) :
    registered resources = registered resources' := by
  have hnodup : ∀ resources, (firstRoots (roots resources)).Nodup := by
    refine fun resources => (firstRoots_pairwise resources).imp fun {x y} hlt heq => ?_
    have hself : rootOrder y y = .eq := Std.ReflCmp.compare_self
    rw [heq, hself] at hlt
    cases hlt
  have hmem : ∀ x, x ∈ firstRoots (roots resources) ↔ x ∈ firstRoots (roots resources') := by
    intro x
    rw [mem_firstRoots_roots, mem_firstRoots_roots, hfirst]
  have hperm := (List.perm_ext_iff_of_nodup (hnodup resources) (hnodup resources')).mpr hmem
  have hsame : firstRoots (roots resources) = firstRoots (roots resources') := by
    refine hperm.eq_of_pairwise (fun x y _ _ hxy hyx => ?_) (firstRoots_pairwise _) (firstRoots_pairwise _)
    rw [Std.OrientedCmp.gt_of_lt hyx] at hxy
    cases hxy
  rw [registered_eq, registered_eq, hsame]

/-- Definitions may come in any order, if of those that share group and kind the first one with a version
to compile stays the same, or is followed by one that declares the same. -/
theorem compile_perm (hperm : resources.Perm resources') (hfirst : ∀ group kind x y,
      firstRoot? resources group kind = some x → firstRoot? resources' group kind = some y → x = y)
    (annotations : Annotations) (config : Config) :
    compile resources annotations config = compile resources' annotations config := by
  have hnone : ∀ group kind, firstRoot? resources group kind = none ↔
      firstRoot? resources' group kind = none := by
    intro group kind
    simp only [firstRoot?, List.findSome?_eq_none_iff, (hperm.filter _).mem_iff]
  have hsame : registered resources = registered resources' := by
    refine registered_congr fun group kind => ?_
    cases hx : firstRoot? resources group kind with
    | none => exact ((hnone group kind).mp hx).symm
    | some x =>
      cases hy : firstRoot? resources' group kind with
      | none =>
        rw [(hnone group kind).mpr hy] at hx
        cases hx
      | some y => rw [hfirst group kind x y hx hy]
  exact congrArg (finish · (settings annotations config)) hsame

/-- A resource without properties. -/
def plainResource (kind plural : String) : CustomResource where
  kind := "CustomResourceDefinition"
  group := "apps"
  names := { kind, plural }
  scope := "Namespaced"
  versions := [{ name := "v1", schema := some {} }]

/-- Resources of different kinds. -/
theorem compile_perm_widget_gadget :
    let widget := plainResource "Widget" "widgets"
    let gadget := plainResource "Gadget" "gadgets"
    [widget, gadget].Perm [gadget, widget] ∧ (∀ group kind x y,
      firstRoot? [widget, gadget] group kind = some x → firstRoot? [gadget, widget] group kind = some y →
        x = y) ∧
      compile [widget, gadget] [] {} = compile [gadget, widget] [] {} := by
  intro widget gadget
  have hperm : [widget, gadget].Perm [gadget, widget] := List.Perm.swap _ _ _
  have hfirst : ∀ group kind x y, firstRoot? [widget, gadget] group kind = some x →
      firstRoot? [gadget, widget] group kind = some y → x = y := by
    intro group kind x y hx hy
    have hsame : firstRoot? [widget, gadget] group kind = firstRoot? [gadget, widget] group kind := by
      cases hwidget : (widget.group == group && widget.names.kind == kind) with
      | false => simp [firstRoot?, List.filter, hwidget]
      | true =>
        have hkind : gadget.names.kind ≠ kind := by
          rw [← (by simpa using hwidget : widget.group = group ∧ widget.names.kind = kind).2]
          decide
        have hgadget : (gadget.group == group && gadget.names.kind == kind) = false := by simp [hkind]
        simp [firstRoot?, List.filter, hwidget, hgadget]
    rw [hsame, hy] at hx
    exact (Option.some.inj hx).symm
  exact ⟨hperm, hfirst, compile_perm hperm hfirst [] {}⟩

/-- Of two definitions of a widget the first is compiled. -/
theorem compile_swap_ne :
    let first := plainResource "Widget" "widgets"
    let second := plainResource "Widget" "gadgets"
    [first, second].Perm [second, first] ∧ ∃ m m',
      compile [first, second] [] {} = .ok m ∧ compile [second, first] [] {} = .ok m' ∧
        (m.types[0]?).map TypeEntry.kind =
          some (.apiResource ⟨"apps/v1", "Widget", true, some "widgets"⟩) ∧
        (m'.types[0]?).map TypeEntry.kind =
          some (.apiResource ⟨"apps/v1", "Widget", true, some "gadgets"⟩) := by
  intro first second
  have hsorted : ∀ a b, order a b = .eq → sorted [a, b] = [a, b] := by
    intro a b hab
    refine List.mergeSort_of_pairwise ?_
    simp [hab]
  have hkind : ∀ resources k, (compile resources [] {}).toOption.bind
      (fun m => (m.types[0]?).map TypeEntry.kind) = some k →
        ∃ m, compile resources [] {} = .ok m ∧ (m.types[0]?).map TypeEntry.kind = some k := by
    intro resources k h
    cases hc : compile resources [] {} with
    | ok m =>
      rw [hc] at h
      exact ⟨m, rfl, h⟩
    | error e =>
      rw [hc] at h
      cases h
  have hfirst := hkind [first, second] (.apiResource ⟨"apps/v1", "Widget", true, some "widgets"⟩) (by
    rw [compile, ← sorted, hsorted _ _ (by decide)]
    decide)
  have hsecond := hkind [second, first] (.apiResource ⟨"apps/v1", "Widget", true, some "gadgets"⟩) (by
    rw [compile, ← sorted, hsorted _ _ (by decide)]
    decide)
  obtain ⟨m, hm, hplural⟩ := hfirst
  obtain ⟨m', hm', hplural'⟩ := hsecond
  exact ⟨List.Perm.swap _ _ _, m, m', hm, hm', hplural, hplural'⟩

end CustomResource

end SchemaCompiler
