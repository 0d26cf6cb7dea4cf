import SchemaCompiler.Proofs.Emission.Reference
import SchemaCompiler.Proofs.Import.Changes

/-! Items that lie within each other. In its module, an item lies directly within those alone that stand
after it, so that items can lie within themselves only by way of another module. -/

namespace SchemaCompiler

open Relation (TransGen ReflTransGen)

/-- The item that lies within a type as it is spelled, with no box, list or map around it. -/
def TypeText.inline? : TypeText → Option TypeId
  | item id _ boxed => if boxed then none else some id
  | foreign id _ _ => some id
  | _ => none

/-- The types that an item is made of. -/
def ItemBody.texts : ItemBody → List TypeText
  | synonym target => [target]
  | record fields _ => fields.map Field.type

namespace Emission

variable {m : Model} {apiModule : String} {key : GroupKey} {view : FinalizedGroup}
  {current id u v : TypeId}

/-- The item `v` lies directly within the item `u`. -/
def Contains (m : Model) (apiModule : String) (u v : TypeId) : Prop :=
  ∃ key view item text, m.finalized? key = some view ∧ item ∈ groupItems m apiModule view ∧
    item.id = u ∧ text ∈ item.body.texts ∧ text.inline? = some v

/-- Where an item stands in its module. -/
def place (m : Model) (u : TypeId) : Nat :=
  (((m.groupOf? u).bind m.finalized?).map (·.types.idxOf u)).getD 0

theorem place_eq (hu : m.groupOf? u = some key) (hview : m.finalized? key = some view) :
    place m u = view.types.idxOf u := by
  simp [place, hu, hview]

/-- An item is made of the expressions in its type. -/
theorem mem_texts {s : Spelling} {t : TypeEntry} {text : TypeText}
    (h : text ∈ (s.itemBody current t).texts) : ∃ e ∈ t.exprs, text = s.typeText current true e := by
  have hfield : text ∈ (t.properties.map (s.field current)).map Field.type →
      ∃ e ∈ t.exprs, text = s.typeText current true e := by
    rw [List.map_map, List.mem_map]
    rintro ⟨p, hp, rfl⟩
    exact ⟨p.type, List.mem_append_right _ (List.mem_map_of_mem hp), rfl⟩
  rw [Spelling.itemBody] at h
  cases hkind : t.kind with
  | synonym target =>
    rw [hkind] at h
    exact ⟨target, by simp [TypeEntry.exprs, hkind], List.mem_singleton.mp h⟩
  | resource => rw [hkind] at h; exact hfield h
  | apiResource info => rw [hkind] at h; exact hfield h
  | anonymous parent property => rw [hkind] at h; exact hfield h

/-- What lies within a type is a registered type, spelled by name. -/
theorem inline?_typeText {s : Spelling} {direct : Bool} {e : TypeExpr}
    (h : (s.typeText current direct e).inline? = some v) :
    ∃ id, (s.namedText current direct id).inline? = some v := by
  cases e with
  | primitive p => cases p <;> cases h
  | type id => exact ⟨id, h⟩
  | ref q =>
    rw [Spelling.typeText, Spelling.refText] at h
    split at h
    · exact ⟨_, h⟩
    · cases h
  | union members =>
    rw [Spelling.typeText] at h
    split at h <;> cases h
  | _ => cases h

theorem isBackEdge_eq_false {s : Spelling} (hv : v ∈ s.placed) (hu : u ∈ s.placed) :
    s.isBackEdge v u = false ↔ s.placed.idxOf v < s.placed.idxOf u := by
  have hidx : ∀ {w : TypeId}, w ∈ s.placed → s.placed.idxOf? w = some (s.placed.idxOf w) := by
    intro w hw
    cases h : s.placed.idxOf? w with
    | none => exact absurd hw (List.idxOf?_eq_none_iff.mp h)
    | some n => rw [List.idxOf_eq_getD_idxOf?, h, Option.getD_some]
  rw [Spelling.isBackEdge, hidx hv, hidx hu]
  exact decide_eq_false_iff_not.trans Nat.not_le

/-- The step: what lies within an item of the same group stands before it. -/
theorem idxOf_lt_of_namedText (h : m.Finished) (hview : m.finalized? key = some view)
    (hcurrent : current ∈ view.types) (hv : m.groupOf? v = some key)
    (htext : ((spelling m apiModule view).namedText current true id).inline? = some v) :
    view.types.idxOf v < view.types.idxOf current := by
  cases ht : m.types[m.resolve id]? with
  | none =>
    rw [namedText_absent h.wellFormed ht] at htext
    cases htext
  | some t =>
    rw [namedText_listed h hview hcurrent ht] at htext
    split at htext
    · rw [TypeText.inline?] at htext
      split at htext
      · cases htext
      · next hunboxed =>
        obtain rfl := Option.some.inj htext
        have hplaced : m.resolve id ∈ view.types :=
          ((h.lists hview).live _).mpr ⟨hv, Model.isLive_iff.mpr (h.wellFormed.mergedInto?_resolve id)⟩
        have hback : (spelling m apiModule view).isBackEdge (m.resolve id) current = false := by
          rw [Bool.true_and, Bool.or_eq_true, not_or] at hunboxed
          exact Bool.eq_false_iff.mpr hunboxed.2
        exact (isBackEdge_eq_false hplaced hcurrent).mp hback
    · next hother =>
      obtain rfl := Option.some.inj htext
      rw [Model.groupOf?, ht, Option.map_some] at hv
      exact absurd (Option.some.inj hv) hother

theorem Contains.place_lt (h : m.Finished) (huv : Contains m apiModule u v)
    (hgroup : m.groupOf? v = m.groupOf? u) : place m v < place m u := by
  obtain ⟨key, view, item, text, hview, hitem, rfl, htext, hv⟩ := huv
  obtain ⟨hplaced, t, -, hbody⟩ := mem_groupItems.mp hitem
  rw [hbody] at htext
  obtain ⟨e, -, rfl⟩ := mem_texts htext
  obtain ⟨id, hid⟩ := inline?_typeText hv
  have hu : m.groupOf? item.id = some key := (((h.lists hview).live _).mp hplaced).1
  have hvu := hgroup.trans hu
  rw [place_eq hu hview, place_eq hvu hview]
  exact idxOf_lt_of_namedText h hview hplaced hvu hid

/-- Along a path of items, each directly within the one before, there is a step into another group, or
else the last stands before the first. -/
theorem crosses_or_place_lt (h : m.Finished) (huv : TransGen (Contains m apiModule) u v) :
    (∃ a b, ReflTransGen (Contains m apiModule) u a ∧ Contains m apiModule a b ∧
      ReflTransGen (Contains m apiModule) b v ∧ m.groupOf? a ≠ m.groupOf? b) ∨
      m.groupOf? v = m.groupOf? u ∧ place m v < place m u := by
  induction huv with
  | @single v huv =>
    by_cases hgroup : m.groupOf? v = m.groupOf? u
    · exact .inr ⟨hgroup, huv.place_lt h hgroup⟩
    · exact .inl ⟨u, v, .refl, huv, .refl, fun hn => hgroup hn.symm⟩
  | @tail v w hpath hvw ih =>
    -- Once the path has left the group there is nothing more to say of where its items stand.
    rcases ih with ⟨a, b, hua, hab, hbv, hne⟩ | ⟨hvu, hlt⟩
    · exact .inl ⟨a, b, hua, hab, hbv.tail hvw, hne⟩
    · by_cases hgroup : m.groupOf? w = m.groupOf? v
      · exact .inr ⟨hgroup.trans hvu, (hvw.place_lt h hgroup).trans hlt⟩
      · exact .inl ⟨v, w, hpath.to_reflTransGen, hvw, .refl, fun hn => hgroup hn.symm⟩

/-- Whatever is compiled, an item that lies within itself does so by way of an item of another group. -/
theorem compiled_contains_crosses (hm : Compiled m) (apiModule : String)
    (hcycle : TransGen (Contains m apiModule) u u) :
    ∃ a b, ReflTransGen (Contains m apiModule) u a ∧ Contains m apiModule a b ∧
      ReflTransGen (Contains m apiModule) b u ∧ m.groupOf? a ≠ m.groupOf? b := by
  obtain ⟨cs, -, rfl⟩ := hm.exists_changes
  rcases crosses_or_place_lt (Model.finished_finalize cs) hcycle with hcrosses | ⟨-, hlt⟩
  · exact hcrosses
  · exact absurd hlt (Nat.lt_irrefl _)

end Emission

/-! A deployment and a pod that have each other. -/

namespace MutualOwners

open Importer
open Emission (Contains groupItems compiled_contains_crosses)

def apps : GroupKey := ⟨"apps", some "v1"⟩

def core : GroupKey := ⟨"core", some "v1"⟩

def deployment : Schema where
  properties := [("pod", .toReference "#/definitions/io.k8s.api.core.v1.Pod")]

def pod : Schema where
  properties := [("owner", .toReference "#/definitions/io.k8s.api.apps.v1.Deployment")]

def document : OpenApiDocument where
  definitions := [
    ("io.k8s.api.apps.v1.Deployment", deployment),
    ("io.k8s.api.core.v1.Pod", pod)]

/-- The import of the document before its queue is read. -/
def registered : Importer :=
  let i : Importer := {}
  let i := (i.define "io.k8s.api.apps.v1.Deployment" ⟨"Deployment", "apps", some "v1"⟩
    deployment).enqueue 0 deployment
  (i.define "io.k8s.api.core.v1.Pod" ⟨"Pod", "core", some "v1"⟩ pod).enqueue 1 pod

/-- The model of the document before it is finalized. -/
def model : Model :=
  (registered.model.setProperties 0 [{ name := "pod", type := .type 1, required := false }]).setProperties
    1 [{ name := "owner", type := .type 0, required := false }]

theorem compile_eq : document.compile [] = .ok model.finalize := by
  have hordered : Table.Ordered document.definitions := by
    show document.definitions.Pairwise _
    decide
  have hdeployment := hordered.get?_of_mem (.head _)
  have hpod := hordered.get?_of_mem (.tail _ (.head _))
  have himports : Imports (document.settings []) {} (Table.keys document.schemas) [.type 0, .type 1]
      registered :=
    .cons (importRef_record (q := ⟨"Deployment", "apps", some "v1"⟩) (by decide) rfl
      (by decide) (by decide) hdeployment rfl rfl) (.cons (importRef_record
        (q := ⟨"Pod", "core", some "v1"⟩) (by decide) (by decide)
          (by decide) (by decide) hpod rfl (by decide)) (.nil _))
  have hempties := Empties.read (c := document.settings []) (i := registered) rfl
    (importBody_single (p := ⟨0, deployment⟩) (e := .type 1) rfl rfl (by decide) rfl
      (importProperty_reference (toReference_shape _) (importRef_known (by decide))))
    (.read rfl (importBody_single (p := ⟨1, pod⟩) (e := .type 0) rfl rfl (by decide) rfl
      (importProperty_reference (toReference_shape _) (importRef_known (by decide)))) (.done rfl))
  exact himports.importKeys_eq.trans (hempties.finish_eq (by decide))

def deploymentItem : Item :=
  ⟨0, "Deployment", none, .record [⟨"pod", .foreign 1 "core_v1" "Pod", true, none, none⟩] none⟩

def podItem : Item :=
  ⟨1, "Pod", none, .record [⟨"owner", .foreign 0 "apps_v1" "Deployment", true, none, none⟩] none⟩

theorem contains_itself : TransGen (Contains model.finalize "k8s_models") 0 0 := by
  have happs : model.finalize.finalized? apps = some { types := [0], refs := [core] } := by
    decide +kernel
  have hcore : model.finalize.finalized? core = some { types := [1], refs := [apps] } := by
    decide +kernel
  have hdeployment : Contains model.finalize "k8s_models" 0 1 :=
    ⟨apps, _, deploymentItem, _, happs, by decide +kernel, rfl, List.mem_singleton_self _, rfl⟩
  have hpod : Contains model.finalize "k8s_models" 1 0 :=
    ⟨core, _, podItem, _, hcore, by decide +kernel, rfl, List.mem_singleton_self _, rfl⟩
  exact .tail (.single hdeployment) hpod

/-- Each of the two leads into the group of the other. -/
theorem crosses : Compiled model.finalize ∧ TransGen (Contains model.finalize "k8s_models") 0 0 ∧
    ∃ a b, ReflTransGen (Contains model.finalize "k8s_models") 0 a ∧
      Contains model.finalize "k8s_models" a b ∧
        ReflTransGen (Contains model.finalize "k8s_models") b 0 ∧
          model.finalize.groupOf? a ≠ model.finalize.groupOf? b :=
  ⟨.document compile_eq, contains_itself,
    compiled_contains_crosses (.document compile_eq) "k8s_models" contains_itself⟩

/-- There are documents that are compiled to items without a finite size. -/
theorem not_finite : ¬∀ m apiModule u, Compiled m → ¬TransGen (Contains m apiModule) u u :=
  fun hfinite => hfinite _ _ _ (.document compile_eq) contains_itself

end MutualOwners

end SchemaCompiler
