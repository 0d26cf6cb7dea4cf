import SchemaCompiler.CustomResource
import SchemaCompiler.Proofs.Gathering

/-! The definitions in manifests. They stand at the ends of all ways through the items of lists, and are read
in the order of the documents and items. Nothing else in a document does any harm, but what should be read
and cannot be read leaves no definition at all. -/

namespace SchemaCompiler.CustomResource

variable {ε : Type} {read : Value → Except ε CustomResource} {v : Value}

/-- The items of a list of definitions; of anything else none. -/
def listed (v : Value) : List Value :=
  match v.get? "items" with
  | some (.seq items) => if listKinds.contains (kindOf v) then items else []
  | _ => []

/-- At the place `p` of the tree `v` stands a definition, with the tree `w`. -/
inductive HoldsAt : Value → List Nat → Value → Prop
  | here {v : Value} (hkind : kindOf v = ownKind) : HoldsAt v [] v
  | item {v u w : Value} {i : Nat} {p : List Nat} (hi : (listed v)[i]? = some u) (h : HoldsAt u p w) :
    HoldsAt v (i :: p) w

/-- What comes of reading what stands at a place of the documents. It is a definition, or a document that
could not be had. -/
inductive ReadAt (read : Value → Except ε CustomResource) (documents : List (Except ε Value)) :
    List Nat → Except ε CustomResource → Prop
  | document {i : Nat} {e : ε} (hi : documents[i]? = some (.error e)) : ReadAt read documents [i] (.error e)
  | definition {i : Nat} {v w : Value} {p : List Nat} (hi : documents[i]? = some (.ok v))
    (h : HoldsAt v p w) : ReadAt read documents (i :: p) (read w)

theorem beq_text_iff {k : Value} {s : String} : (k == .text s) = true ↔ k = .text s := by
  cases k with
  | text t =>
    rw [show (Value.text t == .text s) = (t == s) from rfl, beq_iff_eq, Value.text.injEq]
  | _ => exact iff_of_false Bool.false_ne_true (by simp)

theorem collectUnder_eq (entries : List (Value × Value)) :
    collectUnder read entries = match (Value.map entries).get? "items" with
      | some (.seq items) => collectAll read items
      | _ => .ok [] := by
  induction entries with
  | nil => rfl
  | cons e rest ih =>
    obtain ⟨k, v⟩ := e
    have hself : (Value.text "items" == .text "items") = true := beq_text_iff.mpr rfl
    rw [collectUnder.eq_def, Value.get?, List.find?_cons]
    simp only
    split
    · rw [hself]
      rfl
    · next hseq =>
      rw [hself]
      split
      · next items hv => exact (hseq items (Option.some.inj hv)).elim
      · rfl
    · next hkey _ =>
      have hother : (k == .text "items") = false := by
        rw [← Bool.not_eq_true]
        exact fun h => hkey (beq_text_iff.mp h)
      rw [hother]
      exact ih

theorem collectAll_eq (vs : List Value) : collectAll read vs = List.flatten <$> vs.mapM (collect read) := by
  induction vs with
  | nil => rfl
  | cons v vs ih =>
    rw [collectAll, ih, List.mapM_cons]
    simp

theorem listed_own (h : kindOf v = ownKind) : listed v = [] := by
  rw [listed, h]
  split <;> rfl

theorem collect_eq (v : Value) : collect read v =
    if kindOf v = ownKind then (read v).map ([·]) else collectAll read (listed v) := by
  have hother : kindOf .null ≠ ownKind := by decide
  cases v with
  | map entries =>
    rw [collect]
    simp only [beq_iff_eq]
    split
    · rfl
    · rw [collectUnder_eq, listed]
      cases listKinds.contains (kindOf (.map entries)) with
      | true =>
        simp only [if_true]
        split <;> rfl
      | false =>
        simp only [Bool.false_eq_true, if_false]
        split <;> rfl
  | _ => exact (if_neg hother).symm

theorem sizeOf_listed {u : Value} (h : u ∈ listed v) : sizeOf u < sizeOf v := by
  rw [listed] at h
  split at h
  · next items hitems =>
    have hu : u ∈ items := by
      split at h
      · exact h
      · cases h
    have hlt := List.sizeOf_lt_of_mem hu
    cases v with
    | map entries =>
      obtain ⟨⟨k, w⟩, hfind, rfl⟩ := Option.map_eq_some_iff.mp hitems
      have hmem := List.sizeOf_lt_of_mem (List.mem_of_find?_eq_some hfind)
      simp only [Prod.mk.sizeOf_spec, Value.seq.sizeOf_spec, Value.map.sizeOf_spec] at hmem hlt ⊢
      omega
    | _ => cases hitems
  · cases h

theorem gathers_collect (v : Value) :
    Gathers (fun p o => ∃ w, HoldsAt v p w ∧ read w = o) (collect read v) := by
  rw [collect_eq]
  split
  · next hkind =>
    refine (Gathers.single (read v)).congr fun p o => ?_
    constructor
    · rintro ⟨rfl, rfl⟩
      exact ⟨v, .here hkind, rfl⟩
    · rintro ⟨w, hw, rfl⟩
      cases hw with
      | here => exact ⟨rfl, rfl⟩
      | item hi =>
        rw [listed_own hkind] at hi
        cases hi
  · next hkind =>
    rw [collectAll_eq]
    refine (gathers_items fun u hu => gathers_collect u).congr fun p o => ?_
    constructor
    · rintro ⟨i, u, q, hi, rfl, w, hw, rfl⟩
      exact ⟨w, .item hi hw, rfl⟩
    · rintro ⟨w, hw, rfl⟩
      cases hw with
      | here h => exact absurd h hkind
      | item hi hw => exact ⟨_, _, _, hi, rfl, w, hw, rfl⟩
termination_by v
decreasing_by exact sizeOf_listed hu

theorem gathers_ofDocuments (documents : List (Except ε Value)) :
    Gathers (ReadAt read documents) (ofDocuments read documents) := by
  have hone : ∀ document ∈ documents, Gathers (fun p o => match document with
      | .ok v => ∃ w, HoldsAt v p w ∧ read w = o
      | .error e => p = [] ∧ o = .error e) (document >>= collect read) := by
    intro document _
    cases document with
    | ok v => exact gathers_collect v
    | error e => exact .single (.error e)
  rw [ofDocuments, bind_pure_comp]
  refine (gathers_items hone).congr fun p o => ?_
  constructor
  · rintro ⟨i, document, q, hi, rfl, hq⟩
    cases document with
    | ok v =>
      obtain ⟨w, hw, rfl⟩ := hq
      exact .definition hi hw
    | error e =>
      obtain ⟨rfl, rfl⟩ := hq
      exact .document hi
  · intro h
    cases h with
    | document hi => exact ⟨_, _, [], hi, rfl, rfl, rfl⟩
    | definition hi hw => exact ⟨_, _, _, hi, rfl, _, hw, rfl⟩

theorem ofDocuments_other (hkind : kindOf v ≠ ownKind) (hlisted : listed v = [])
    (before after : List (Except ε Value)) :
    ofDocuments read (before ++ .ok v :: after) = ofDocuments read (before ++ after) := by
  have hnone : (Except.ok v >>= collect read) = .ok [] := by
    refine (collect_eq v).trans ?_
    rw [if_neg hkind, hlisted, collectAll]
  rw [ofDocuments, ofDocuments, List.mapM_append, List.mapM_append, List.mapM_cons, hnone]
  cases before.mapM (fun document => document >>= collect read) with
  | error e => rfl
  | ok found =>
    cases after.mapM (fun document => document >>= collect read) with
    | error e => rfl
    | ok more => simp [bind, Except.bind, pure, Except.pure]

/-- If all documents can be had, and all definitions that stand in them be read, the definitions are
returned in the order of their places, which are all different. Otherwise there is the first failure in
this order, and nothing else. A document that neither is a definition nor lists anything may as well be
left out. -/
theorem ofDocuments_readAt (read : Value → Except ε CustomResource) (documents : List (Except ε Value)) :
    (∀ resources, ofDocuments read documents = .ok resources ↔
      ∃ found : List (List Nat × CustomResource), found.Pairwise (fun a b => a.1 < b.1) ∧
        (∀ p o, ReadAt read documents p o ↔ ∃ r, (p, r) ∈ found ∧ o = .ok r) ∧
        found.map Prod.snd = resources) ∧
    (∀ e, ofDocuments read documents = .error e ↔
      ∃ p, ReadAt read documents p (.error e) ∧
        ∀ q o, q < p → ReadAt read documents q o → ∃ r, o = .ok r) ∧
    ∀ before v after, documents = before ++ .ok v :: after → kindOf v ≠ ownKind → listed v = [] →
      ofDocuments read documents = ofDocuments read (before ++ after) := by
  have hgathers : Gathers (ReadAt read documents) (ofDocuments read documents) :=
    gathers_ofDocuments documents
  refine ⟨fun _ => hgathers.ok_iff, fun _ => hgathers.error_iff, ?_⟩
  rintro before v after rfl hkind hlisted
  exact ofDocuments_other hkind hlisted before after

end SchemaCompiler.CustomResource
