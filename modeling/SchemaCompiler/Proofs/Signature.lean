import SchemaCompiler.Signature

/-! Signatures without hints, where no property beyond those of a type is allowed. An object that one of them
fits has properties that no other signature admits, so that the order of signatures decides between those
with hints alone. -/

namespace SchemaCompiler.Signature

variable {s t : Signature} {table table' : List Signature} {config : InferenceConfig} {property : String}
  {names : List String}

/-- No names fit both signatures without strangers. -/
def Excludes (s t : Signature) : Prop := ¬(s.keys ⊆ t.fields ∧ t.keys ⊆ s.fields)

/-- A table in which every two signatures exclude each other, unless both need a hint. -/
def Unambiguous (table : List Signature) : Prop :=
  table.Pairwise fun s t => s.hints = [] ∨ t.hints = [] → s.Excludes t

instance (s t : Signature) : Decidable (s.Excludes t) := inferInstanceAs (Decidable ¬(_ ∧ _))

instance (table : List Signature) : Decidable (Unambiguous table) :=
  inferInstanceAs (Decidable (List.Pairwise _ table))

theorem unambiguous_all : Unambiguous all := by decide

theorem Excludes.symm (h : s.Excludes t) : t.Excludes s := fun hboth => h hboth.symm

theorem isHinted_iff : s.isHinted property = true ↔
    s.hints = [] ∨ ∃ h ∈ s.hints, Text.occursIn h.toList (property.toList.map Char.toLower) = true := by
  rw [isHinted, Bool.or_eq_true, List.isEmpty_iff, List.any_eq_true]

/-- What is known of names that a signature applies to. -/
theorem applies_strict (hstrict : config.maxUnknownFields = 0)
    (h : s.applies config property names = true) :
    s.isHinted property = true ∧ s.keys ⊆ names ∧ names ⊆ s.fields := by
  rw [applies, fits, hstrict, Bool.and_eq_true, Bool.and_eq_true, Bool.and_eq_true, List.all_eq_true,
    decide_eq_true_eq, Nat.le_zero, strangers, List.countP_eq_zero] at h
  obtain ⟨-, ⟨hhinted, hkeys⟩, hfields⟩ := h
  exact ⟨hhinted, fun k hk => List.contains_iff_mem.mp (hkeys k hk),
    fun n hn => by simpa using hfields n hn⟩

theorem Excludes.not_applies (h : s.Excludes t) (hstrict : config.maxUnknownFields = 0)
    (hs : s.applies config property names = true) : t.applies config property names = false := by
  rw [← Bool.not_eq_true]
  intro ht
  obtain ⟨-, hskeys, hsfields⟩ := applies_strict hstrict hs
  obtain ⟨-, htkeys, htfields⟩ := applies_strict hstrict ht
  exact h ⟨fun k hk => htfields (hskeys hk), fun k hk => hsfields (htkeys hk)⟩

/-- A signature without hints that applies is the only one that does. -/
theorem Unambiguous.filter_applies (h : Unambiguous table) (hstrict : config.maxUnknownFields = 0)
    (hmem : s ∈ table) (hhints : s.hints = []) (hs : s.applies config property names = true) :
    table.filter (·.applies config property names) = [s] := by
  obtain ⟨before, after, rfl⟩ := List.append_of_mem hmem
  obtain ⟨-, hrest, hbefore⟩ := List.pairwise_append.mp h
  obtain ⟨hafter, -⟩ := List.pairwise_cons.mp hrest
  have hnone : ∀ {others : List Signature}, (∀ t ∈ others, t.applies config property names = false) →
      others.filter (·.applies config property names) = [] :=
    fun hothers => List.filter_eq_nil_iff.mpr fun t ht => by simp [hothers t ht]
  rw [List.filter_append, List.filter_cons, if_pos hs, hnone, hnone, List.nil_append]
  · exact fun t ht => (hafter t ht (.inl hhints)).not_applies hstrict hs
  · intro t ht
    have hexcludes : t.Excludes s := hbefore t ht s List.mem_cons_self (.inr hhints)
    exact hexcludes.symm.not_applies hstrict hs

/-- If no more than one signature applies, it does not matter where it stands. -/
theorem find?_perm {p : Signature → Bool} (hperm : table'.Perm table)
    (hone : (table.filter p).length ≤ 1) : table'.find? p = table.find? p := by
  have hfiltered : table'.filter p = table.filter p := by
    have hkept := hperm.filter p
    cases heq : table.filter p with
    | nil => rwa [heq, List.perm_nil] at hkept
    | cons s rest =>
      obtain rfl : rest = [] := by simpa [heq] using hone
      rwa [heq, List.perm_singleton] at hkept
  rw [← List.head?_filter, ← List.head?_filter, hfiltered]

/-- What is inferred says which signature applies. -/
theorem qualifiedName_inj (hs : s ∈ all) (ht : t ∈ all) (h : s.qualifiedName = t.qualifiedName) :
    s = t := by
  have hall : ∀ s ∈ all, ∀ t ∈ all, s.name = t.name → s = t := by decide
  exact hall s hs t ht (congrArg QualifiedName.name h)

/-- Where no property beyond those of a type is allowed, a signature without hints that applies to an object
is the only one, with or without hints. So the order of signatures does not matter where such a signature
decides, or where the property that declares the object contains no hint. -/
theorem infer_unambiguous (config : InferenceConfig) (hstrict : config.maxUnknownFields = 0)
    (property : String) (schema : Schema) :
    (∀ s ∈ all, s.hints = [] → s.applies config property (schema.properties.map Prod.fst) = true →
      all.filter (·.applies config property (schema.properties.map Prod.fst)) = [s]) ∧
    ((∃ s ∈ all, s.hints = [] ∧ infer config property schema = some s.qualifiedName) ∨
      (∀ s ∈ all, ∀ h ∈ s.hints, Text.occursIn h.toList (property.toList.map Char.toLower) = false) →
      ∀ table, table.Perm all →
        inferFrom table config property schema = infer config property schema) := by
  let names := schema.properties.map Prod.fst
  have honly : ∀ s ∈ all, s.hints = [] → s.applies config property names = true →
      all.filter (·.applies config property names) = [s] :=
    fun s hs hhints => unambiguous_all.filter_applies hstrict hs hhints
  refine ⟨honly, fun hcase table hperm => ?_⟩
  by_cases hoff : (!config.enabled || names.isEmpty) = true
  · rw [infer, inferFrom, inferFrom, if_pos hoff, if_pos hoff]
  have hone : (all.filter (·.applies config property names)).length ≤ 1 := by
    rcases hcase with ⟨s, hs, hhints, hinfer⟩ | hfree
    · rw [infer, inferFrom, if_neg hoff] at hinfer
      obtain ⟨t, hfind, hname⟩ := Option.map_eq_some_iff.mp hinfer
      obtain rfl := qualifiedName_inj (List.mem_of_find?_eq_some hfind) hs hname
      have happlies : t.applies config property names = true := by simpa using List.find?_some hfind
      exact Nat.le_of_eq (congrArg List.length (honly t hs hhints happlies))
    · cases hfilter : all.filter (·.applies config property names) with
      | nil => simp
      | cons s rest =>
        obtain ⟨hs, happlies⟩ := List.mem_filter.mp (hfilter ▸ List.mem_cons_self)
        obtain ⟨hhinted, -⟩ := applies_strict hstrict happlies
        have hhints : s.hints = [] := by
          refine (isHinted_iff.mp hhinted).resolve_right ?_
          rintro ⟨h, hh, hoccurs⟩
          rw [hfree s hs h hh] at hoccurs
          cases hoccurs
        rw [← hfilter]
        exact Nat.le_of_eq (congrArg List.length (honly s hs hhints happlies))
  rw [infer, inferFrom, inferFrom, if_neg hoff, if_neg hoff, find?_perm hperm hone]

def tolerationSchema : Schema where
  properties := [("effect", {}), ("key", {}), ("operator", {})]

/-- A toleration is one whichever signature is tried first. -/
theorem infer_unambiguous_toleration :
    ({} : InferenceConfig).maxUnknownFields = 0 ∧
      (∀ s ∈ all, ∀ h ∈ s.hints, Text.occursIn h.toList ("tolerations".toList.map Char.toLower) = false) ∧
      infer {} "tolerations" tolerationSchema = some ⟨"Toleration", "core", some "v1"⟩ ∧
      inferFrom all.reverse {} "tolerations" tolerationSchema = infer {} "tolerations" tolerationSchema := by
  have hfree : ∀ s ∈ all, ∀ h ∈ s.hints,
      Text.occursIn h.toList ("tolerations".toList.map Char.toLower) = false := by decide
  have hsame := (infer_unambiguous {} rfl "tolerations" tolerationSchema).2 (.inr hfree)
  exact ⟨rfl, hfree, by decide, hsame all.reverse (List.reverse_perm all)⟩

end SchemaCompiler.Signature
