import Mathlib.Data.List.Induction
import SchemaCompiler.Proofs.Model.LeastMerge

/-! Models that types have been registered in, and nothing else. Every type stands for itself and has its
full name, and there are no groups and no buckets but for types. -/

namespace SchemaCompiler

/-- No group is finalized. -/
def Change.Registers : Change → Prop
  | .finalizeGroup _ => False
  | .finalize => False
  | _ => True

namespace Model

variable {m m' : Model} {key : GroupKey} {t : TypeEntry}

structure Unfinalized (m : Model) : Prop where
  wellFormed : m.WellFormed
  live : ∀ i, m.mergedInto? i = none
  qualified : ∀ {i : TypeId} {t}, m.types[i]? = some t → t.qualified = t.group.qualify t.fullName
  inhabited : ∀ {key g}, m.group? key = some g → ∃ i, m.groupOf? i = some key
  filled : ∀ {key g short}, m.group? key = some g → Table.get? short g.anonymous ≠ some []

theorem unfinalized_empty : Unfinalized {} where
  wellFormed := wellFormed_empty
  live := by simp [mergedInto?]
  qualified := by simp
  inhabited := by simp [group?, Table.get?]
  filled := by simp [group?, Table.get?]

theorem Unfinalized.amend (h : m.Unfinalized) {id : TypeId} {f : TypeEntry → TypeEntry}
    (hgroup : ∀ t, (f t).group = t.group) (hmerged : ∀ t, (f t).mergedInto = t.mergedInto)
    (hnames : ∀ t, (f t).fullName = t.fullName ∧ (f t).qualified = t.qualified)
    (hwf : (m.amend id f).WellFormed) : (m.amend id f).Unfinalized where
  wellFormed := hwf
  live := fun i => (mergedInto?_amend hmerged i).trans (h.live i)
  qualified := by
    intro i t ht
    rw [getElem?_amend] at ht
    split at ht
    · obtain ⟨s, hs, rfl⟩ := Option.map_eq_some_iff.mp ht
      rw [(hnames s).1, (hnames s).2, hgroup]
      exact h.qualified hs
    · exact h.qualified ht
  inhabited := by
    intro key g hg
    obtain ⟨i, hi⟩ := h.inhabited hg
    exact ⟨i, (groupOf?_amend hgroup i).trans hi⟩
  filled := h.filled

/-- Adding a type to a group, and to one of its tables. -/
theorem Unfinalized.push (h : m.Unfinalized) (hwf : m'.WellFormed) (htypes : m'.types = m.types.push t)
    (hlive : t.mergedInto = none) (hqualified : t.qualified = t.group.qualify t.fullName)
    (hgroup : ∀ key g, m'.group? key = some g → key = t.group ∨ m.group? key = some g)
    (hstocked : m'.Stocked) : m'.Unfinalized where
  wellFormed := hwf
  live := fun i => (mergedInto?_push htypes hlive i).trans (by simp [h.live])
  qualified := by
    intro i s hs
    rw [htypes, Array.getElem?_push] at hs
    split at hs
    · obtain rfl := Option.some.inj hs
      exact hqualified
    · exact h.qualified hs
  inhabited := by
    intro key g hg
    rcases hgroup key g hg with rfl | hg
    · exact ⟨m.types.size, by rw [groupOf?_push htypes, if_pos rfl]⟩
    · obtain ⟨i, hi⟩ := h.inhabited hg
      obtain ⟨s, hs, -⟩ := Option.map_eq_some_iff.mp hi
      have hlt := (Array.getElem?_eq_some_iff.mp hs).1
      exact ⟨i, by rw [groupOf?_push htypes, if_neg (Nat.ne_of_lt hlt), hi]⟩
  filled := hstocked _ _ _

theorem Unfinalized.stocked (h : m.Unfinalized) : m.Stocked := fun _ _ _ => h.filled

theorem Unfinalized.registerNamed (h : m.Unfinalized) (group : GroupKey) (name : String)
    (kind : TypeKind) (description : Option String) :
    (m.registerNamed group name kind description).2.Unfinalized := by
  cases hf : m.find? group (group.qualify name) with
  | some id => rwa [registerNamed_known hf]
  | none =>
    refine h.push (h.wellFormed.registerNamed group name kind description)
      (types_registerNamed_new hf kind description) rfl rfl (fun key g hg => ?_)
      (h.stocked.registerNamed group name kind description)
    rw [registerNamed_new hf, group?_alterGroup] at hg
    by_cases hk : key = group
    · exact .inl hk
    · rw [if_neg hk] at hg
      exact .inr hg

theorem Unfinalized.registerAnonymous (h : m.Unfinalized) (parent : TypeId) (property : String)
    (typeName description : Option String) :
    (m.registerAnonymous parent property typeName description).2.Unfinalized := by
  cases hp : m.types[parent]? with
  | none => rwa [registerAnonymous_orphan hp]
  | some above =>
    refine h.push (h.wellFormed.registerAnonymous parent property typeName description)
      (types_registerAnonymous_new hp property typeName description) rfl rfl (fun key g hg => ?_)
      (h.stocked.registerAnonymous parent property typeName description)
    rw [registerAnonymous_new hp, group?_alterGroup] at hg
    by_cases hk : key = (objectEntry above parent property typeName description).group
    · exact .inl hk
    · rw [if_neg hk] at hg
      exact .inr hg

theorem Unfinalized.change (h : m.Unfinalized) {c : Change} (hc : c.Registers) :
    (m.change c).Unfinalized := by
  cases c with
  | registerNamed group name kind description => exact h.registerNamed group name kind description
  | registerAnonymous parent property typeName description =>
    exact h.registerAnonymous parent property typeName description
  | setProperties id properties =>
    exact h.amend (f := fun t => { t with properties := Property.sort properties }) (fun _ => rfl)
      (fun _ => rfl) (fun _ => ⟨rfl, rfl⟩) (h.wellFormed.setProperties id properties)
  | setKind id kind =>
    exact h.amend (f := fun t => { t with kind }) (fun _ => rfl) (fun _ => rfl)
      (fun _ => ⟨rfl, rfl⟩) (h.wellFormed.setKind id kind)
  | finalizeGroup k => exact hc.elim
  | finalize => exact hc.elim

theorem unfinalized_ofChanges {cs : List Change} (hcs : ∀ c ∈ cs, c.Registers) :
    (ofChanges cs).Unfinalized := by
  induction cs using List.reverseRecOn with
  | nil => exact unfinalized_empty
  | append_singleton cs c ih =>
    rw [ofChanges_append]
    have hbefore := ih fun c hc => hcs c (List.mem_append_left _ hc)
    exact hbefore.change (hcs c (List.mem_append_right _ (List.mem_singleton.mpr rfl)))

end Model

end SchemaCompiler
