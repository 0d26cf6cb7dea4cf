import SchemaCompiler.Proofs.Model.View

/-! The turn of a group. A group's view is made when the group has its turn, from the model as it is
then. The groups that follow leave alone all that the view is made from, so it is the view that the
finalized model would give. -/

namespace SchemaCompiler

namespace Model

variable {m : Model} {key : GroupKey} {view : FinalizedGroup}

/-- The model that the group `key` had its turn in, and the model that the turn left. -/
theorem WellFormed.exists_turn (h : m.WellFormed) (hkey : key ∈ m.keys) :
    ∃ (before : Model) (g : Group), before.WellFormed ∧ before.group? key = some g ∧
      Spares key (before.finalizeGroup key) m.finalize ∧
      m.finalize.finalized? key = some
        ((before.reconcile g).viewOf key ((before.reconcile g).dependencyOrder key)) := by
  obtain ⟨before, g, hbefore, hg, -, hafter⟩ := h.finalized_group hkey
  refine ⟨before, g, hbefore, hg, hafter, ?_⟩
  rw [hafter.finalized?, finalizeGroup_eq hg, finalized?, group?_setFinalized, if_pos rfl]
  rfl

theorem viewOf_congr {m' : Model} {types : List TypeId} (hm : m.WellFormed) (hm' : m'.WellFormed)
    (hgroup : ∀ u, m'.groupOf? u = m.groupOf? u)
    (htypes : ∀ u : TypeId, u ∈ types → m'.types[u]? = m.types[u]?) :
    m'.viewOf key types = m.viewOf key types := by
  -- Of a type that is mentioned only the group matters, and redirects do not leave it.
  have hforeign : m'.foreignGroup? key = m.foreignGroup? key := by
    funext e
    cases e with
    | type id =>
      have hid : m'.groupOf? (m'.resolve id) = m.groupOf? (m.resolve id) := by
        rw [hm'.groupOf?_resolve, hm.groupOf?_resolve, hgroup]
      rw [foreignGroup?, hid, foreignGroup?]
    | _ => rfl
  have hexprs : ∀ u ∈ types, m'.exprsOf u = m.exprsOf u := by
    intro u hu
    rw [exprsOf, htypes u hu, exprsOf]
  have hleaves : ∀ u ∈ types, m'.leavesOf u = m.leavesOf u := by
    intro u hu
    rw [leavesOf, hexprs u hu, leavesOf]
  have hrefs : types.flatMap (fun u => (m'.leavesOf u).filterMap (m'.foreignGroup? key)) =
      types.flatMap fun u => (m.leavesOf u).filterMap (m.foreignGroup? key) :=
    List.flatMap_congr fun u hu => by rw [hleaves u hu, hforeign]
  have hgenerics : types.flatMap (fun u => (m'.exprsOf u).flatMap TypeExpr.generics) =
      types.flatMap fun u => (m.exprsOf u).flatMap TypeExpr.generics :=
    List.flatMap_congr fun u hu => by rw [hexprs u hu]
  have hbase : types.flatMap m'.baseNamesOf = types.flatMap m.baseNamesOf :=
    List.flatMap_congr fun u hu => by rw [baseNamesOf, htypes u hu, hleaves u hu, baseNamesOf]
  rw [viewOf, hrefs, hgenerics, hbase, viewOf]

/-- Right after finalizing, the view of a group is made from the model as it is. -/
theorem WellFormed.view_eq_viewOf (h : m.WellFormed) (hkey : key ∈ m.keys)
    (hview : m.finalize.finalized? key = some view) :
    view = m.finalize.viewOf key view.types := by
  obtain ⟨before, g, hbefore, hg, hafter, hmade⟩ := h.exists_turn hkey
  have hreconcile := hbefore.reconcile hg
  have hlive := (hreconcile.leavesFirst_dependencyOrder key).mem
  obtain rfl := Option.some.inj (hmade.symm.trans hview)
  rw [finalizeGroup_eq hg] at hafter
  refine (viewOf_congr hreconcile h.finalize hafter.groupOf? fun u hu => ?_).symm
  exact hafter.types u ((hlive u).mp hu).1

/-- Right after finalizing, what a type of a group refers to stands before it or leads back to it. -/
theorem WellFormed.view_before (h : m.WellFormed) (hkey : key ∈ m.keys)
    (hview : m.finalize.finalized? key = some view) {u v : TypeId} (hu : u ∈ view.types)
    (huv : m.finalize.Refers key u v) (hne : v ≠ u) :
    [v, u].Sublist view.types ∨ Relation.TransGen (m.finalize.Refers key) v u := by
  obtain ⟨before, g, hbefore, hg, hafter, hmade⟩ := h.exists_turn hkey
  have hgroup := (hbefore.group?_reconcile hg key).trans hg
  have hrefers : m.finalize.Refers key = (before.reconcile g).Refers key := by
    rw [hafter.refers (hbefore.finalizeGroup key), finalizeGroup_eq hg, refers_setFinalized hgroup]
  obtain rfl := Option.some.inj (hmade.symm.trans hview)
  rw [hrefers] at huv ⊢
  exact ((hbefore.reconcile hg).leavesFirst_dependencyOrder key).before u hu v huv hne

end Model

end SchemaCompiler
