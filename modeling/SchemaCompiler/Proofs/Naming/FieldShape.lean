import Mathlib.Data.List.DropRight
import SchemaCompiler.Proofs.Naming.Identifier

/-! What field names look like. They are words of lower-case letters and digits with one underscore between
each two, and one more at the end if something marks them. A name of this form is its own field name. -/

namespace SchemaCompiler.Naming

variable {c : Char} {ws : List (List Char)}

/-- The part of a name that its field is named after. A dollar sign in front is left out. -/
def withoutDollar (name : String) : List Char :=
  match name.toList with
  | '$' :: rest => rest
  | cs => cs

theorem filter_withoutDollar (name : String) :
    (withoutDollar name).filter (·.isAlphanum) = name.toList.filter (·.isAlphanum) := by
  rw [withoutDollar]
  split
  · next rest hname =>
    rw [hname]
    rfl
  · rfl

theorem lower_or_digit (h : c.isAlphanum = true) (hupper : c.isUpper = false) :
    c.isLower = true ∨ c.isDigit = true := by
  rw [isAlphanum_eq, hupper, Bool.false_or, Bool.or_eq_true] at h
  exact h

/-- A lower-case letter or digit of ASCII, or an underscore. -/
def IsFieldChar (c : Char) : Prop := c.isLower = true ∨ c.isDigit = true ∨ c = '_'

instance (c : Char) : Decidable (IsFieldChar c) := inferInstanceAs (Decidable (_ ∨ _))

theorem IsFieldChar.not_isUpper (h : IsFieldChar c) : ¬c.isUpper = true := by
  rcases h with hlower | hdigit | rfl
  · intro hupper
    cases (not_isLower_of_isUpper hupper).symm.trans hlower
  · intro hupper
    simpa [isAlpha_eq, hupper] using not_isAlpha_of_isDigit hdigit
  · decide

theorem IsFieldChar.isAlphanum (h : IsFieldChar c) (hne : c ≠ '_') : c.isAlphanum = true := by
  rcases h with hlower | hdigit | heq
  · exact isAlphanum_of_isLower hlower
  · exact isAlphanum_of_isDigit hdigit
  · exact absurd heq hne

theorem isFieldChar_spelled {name : String} (h : c ∈ spellWords (words name.toList)) : IsFieldChar c := by
  rcases mem_spellWords h with rfl | hc
  · exact .inr (.inr rfl)
  · rw [flatten_words, List.mem_map] at hc
    obtain ⟨d, hd, rfl⟩ := hc
    have halphanum := (List.mem_filter.mp hd).2
    rcases lower_or_digit (isAlphanum_toLower halphanum) (not_isUpper_toLower halphanum)
      with hlower | hdigit
    · exact .inl hlower
    · exact .inr (.inl hdigit)

theorem isFieldChar_marked (h : ∀ c ∈ spellWords ws, IsFieldChar c) (marked : Bool) :
    ∀ c ∈ spellWords ws ++ (if marked then ['_'] else []), IsFieldChar c := by
  intro c hc
  rcases List.mem_append.mp hc with hc | hc
  · exact h c hc
  · cases marked with
    | false => cases hc
    | true => exact .inr (.inr (List.mem_singleton.mp hc))

/-! One underscore stands between two words. -/

/-- No underscore follows another one. -/
def Spaced (cs : List Char) : Prop := ¬['_', '_'] <:+: cs

theorem spaced_append {w rest : List Char} (hw : '_' ∉ w) (h : Spaced rest) : Spaced (w ++ rest) := by
  induction w with
  | nil => exact h
  | cons c w ih =>
    intro hinfix
    rcases List.infix_cons_iff.mp hinfix with hprefix | hinfix
    · exact hw ((List.cons_prefix_cons.mp hprefix).1 ▸ List.mem_cons_self)
    · exact ih (fun hmem => hw (List.mem_cons_of_mem _ hmem)) hinfix

theorem spellWords_cons_cons (w v : List Char) (ws : List (List Char)) :
    spellWords (w :: v :: ws) = w ++ '_' :: spellWords (v :: ws) := by
  rw [spellWords, spellWords, List.intercalate_cons_cons, List.append_assoc]
  rfl

theorem head_spellWords_cons (c : Char) (w : List Char) (ws : List (List Char)) :
    ∃ rest, spellWords ((c :: w) :: ws) = c :: rest := by
  cases ws with
  | nil => exact ⟨w, by simp [spellWords]⟩
  | cons v ws => exact ⟨_, spellWords_cons_cons (c :: w) v ws⟩

theorem spaced_spellWords (hfull : ∀ w ∈ ws, w ≠ [] ∧ '_' ∉ w) (marked : Bool) :
    Spaced (spellWords ws ++ if marked then ['_'] else []) := by
  have hmark : Spaced (if marked then ['_'] else []) := fun hinfix => by
    have hlength := hinfix.length_le
    cases marked <;> simp at hlength
  induction ws with
  | nil => exact hmark
  | cons w ws ih =>
    obtain ⟨⟨-, hletters⟩, hrest⟩ := List.forall_mem_cons.mp hfull
    cases ws with
    | nil => simpa [spellWords] using spaced_append hletters hmark
    | cons v ws =>
      obtain ⟨d, v', rfl⟩ := List.exists_cons_of_ne_nil (hrest v List.mem_cons_self).1
      have hd : d ≠ '_' := fun heq => (hrest _ List.mem_cons_self).2 (by simp [heq])
      obtain ⟨rest, hspelled⟩ := head_spellWords_cons d v' ws
      have hnext := ih hrest
      rw [spellWords_cons_cons, List.append_assoc, List.cons_append]
      refine spaced_append hletters fun hinfix => ?_
      rcases List.infix_cons_iff.mp hinfix with hprefix | hinfix
      · rw [hspelled] at hprefix
        exact hd (List.cons_prefix_cons.mp (List.cons_prefix_cons.mp hprefix).2).1.symm
      · exact hnext hinfix

theorem filter_spellWords (hfull : ∀ w ∈ ws, w ≠ [] ∧ '_' ∉ w) :
    (spellWords ws).filter (· != '_') = ws.flatten := by
  have hword : ∀ w ∈ ws, w.filter (· != '_') = w := by
    refine fun w hw => List.filter_eq_self.mpr fun c hc => ?_
    have hne : c ≠ '_' := fun heq => (hfull w hw).2 (heq ▸ hc)
    simpa using hne
  induction ws with
  | nil => rfl
  | cons w ws ih =>
    obtain ⟨hw, hrest⟩ := List.forall_mem_cons.mp hword
    have hnext := ih (List.forall_mem_cons.mp hfull).2 hrest
    cases ws with
    | nil => simpa [spellWords] using hw
    | cons v ws =>
      rw [spellWords_cons_cons, List.filter_append, hw, List.filter_cons_of_neg (by decide), hnext]
      rfl

/-! Reading the words of a field name. -/

theorem splitWords_lower {previous : Option Char} {cs : List Char}
    (h : ∀ c ∈ cs, IsFieldChar c) : splitWords previous cs = cs.splitOn '_' := by
  induction cs generalizing previous with
  | nil => rfl
  | cons c rest ih =>
    obtain ⟨hc, hrest⟩ := List.forall_mem_cons.mp h
    rw [List.splitOn_cons_eq_if_modifyHead]
    by_cases hmark : c = '_'
    · rw [hmark, splitWords_separator not_alphanum_underscore, ih hrest]
      rfl
    · have hopens : (c.isUpper && previous.any (opensWord · rest)) = false := by simp [hc.not_isUpper]
      rw [splitWords_letter (hc.isAlphanum hmark) hopens, toLower_of_not_isUpper hc.not_isUpper,
        ih hrest, if_neg (by simpa using hmark)]

theorem words_spellWords (hfull : ∀ w ∈ ws, w ≠ [] ∧ '_' ∉ w)
    (hchars : ∀ c ∈ spellWords ws, IsFieldChar c) (marked : Bool) :
    words (spellWords ws ++ if marked then ['_'] else []) = ws := by
  have hkept : ws.filter (!·.isEmpty) = ws :=
    List.filter_eq_self.mpr fun w hw => by simpa using (hfull w hw).1
  rw [words, splitWords_lower (isFieldChar_marked hchars marked)]
  cases ws using List.reverseRecOn with
  | nil => cases marked <;> decide
  | append_singleton ws w =>
    have hletters : ∀ v ∈ ws ++ [w], '_' ∉ v := fun v hv => (hfull v hv).2
    cases marked with
    | false =>
      rw [if_neg Bool.false_ne_true, List.append_nil, spellWords,
        List.splitOn_intercalate '_' hletters (List.concat_ne_nil _ _), hkept]
    | true =>
      -- The underscore at the end is followed by one more word, which is empty.
      have hlast : spellWords (ws ++ [w]) ++ ['_'] = ['_'].intercalate (ws ++ [w] ++ [[]]) := by
        rw [intercalate_concat, spellWords, intercalate_concat]
        simp
      have hall : ∀ v ∈ ws ++ [w] ++ [[]], '_' ∉ v := by
        rw [List.forall_mem_append]
        exact ⟨hletters, by simp⟩
      rw [if_pos rfl, hlast, List.splitOn_intercalate '_' hall (by simp), List.filter_append, hkept]
      simp

/-- The end of a field name says whether it is marked. -/
theorem rdropWhile_spelled (hfull : ∀ w ∈ ws, w ≠ [] ∧ '_' ∉ w) (marked : Bool) :
    (spellWords ws ++ if marked then ['_'] else []).rdropWhile (· == '_') = spellWords ws := by
  have hself : (spellWords ws).rdropWhile (· == '_') = spellWords ws := by
    cases heq : spellWords ws using List.reverseRecOn with
    | nil => rfl
    | append_singleton cs c =>
      have hc : c ≠ '_' := fun hmark => spellWords_ne_concat hfull cs (by rw [heq, hmark])
      exact List.rdropWhile_concat_neg _ _ _ (by simpa using hc)
  cases marked with
  | false => simpa using hself
  | true => exact (List.rdropWhile_concat_pos _ _ _ rfl).trans hself

theorem getLast?_spelled (hfull : ∀ w ∈ ws, w ≠ [] ∧ '_' ∉ w) (marked : Bool) :
    (spellWords ws ++ if marked then ['_'] else []).getLast? = some '_' ↔ marked = true := by
  cases marked with
  | false =>
    refine iff_of_false (fun hlast => ?_) Bool.false_ne_true
    obtain ⟨cs, hcs⟩ := List.getLast?_eq_some_iff.mp hlast
    exact spellWords_ne_concat hfull cs (by simpa using hcs)
  | true => simp

/-! Field names. -/

section Shape

variable (name : String)

theorem toList_fieldName : (fieldName name).toList =
    spellWords (words name.toList) ++ if isMarked name then ['_'] else [] := by
  rw [fieldName_eq, String.toList_ofList]

theorem isMarked_iff : isMarked name = true ↔ name.toList.head? = some '$' ∨
    isReserved (String.ofList (spellWords (words name.toList))) = true := by
  rw [isMarked, Bool.or_eq_true, beq_iff_eq]

theorem isFieldChar_fieldName : ∀ c ∈ (fieldName name).toList, IsFieldChar c := by
  rw [toList_fieldName]
  exact isFieldChar_marked (fun c => isFieldChar_spelled) _

theorem head_fieldName (h : ∃ c ∈ withoutDollar name, c.isAlphanum = true) :
    (fieldName name).toList.head? ≠ some '_' := by
  obtain ⟨c, hc, halphanum⟩ := h
  have hmem : c ∈ name.toList.filter (·.isAlphanum) :=
    filter_withoutDollar name ▸ List.mem_filter.mpr ⟨hc, halphanum⟩
  obtain ⟨d, hd⟩ := Option.isSome_iff_exists.mp
    (List.find?_isSome.mpr ⟨c, (List.mem_filter.mp hmem).1, halphanum⟩)
  rw [toList_fieldName, List.head?_append, head_spellWords, hd]
  intro hhead
  exact ne_underscore (isAlphanum_toLower (List.find?_some hd)) (Option.some.inj hhead)

theorem not_reserved_fieldName : isReserved (fieldName name) = false := by
  rw [fieldName_eq]
  cases hmarked : isMarked name with
  | true => exact not_reserved_of_mem (c := '_') (by simp) (by decide)
  | false =>
    have hreserved := (Bool.or_eq_false_iff.mp hmarked).2
    simpa using hreserved

variable {name}

/-- A field name says its own words, and is marked if its property is. -/
theorem fieldName_fieldName (h : name.toList.head? ≠ some '$') :
    fieldName (fieldName name) = fieldName name := by
  have hwords : words (fieldName name).toList = words name.toList := by
    rw [toList_fieldName]
    exact words_spellWords (fun w => word_full) (fun c => isFieldChar_spelled) _
  have hplain : (fieldName name).toList.head? ≠ some '$' := by
    intro hhead
    have hchar := isFieldChar_fieldName name '$' (List.mem_of_head? hhead)
    revert hchar
    decide
  refine fieldName_inj.mpr ⟨hwords, ?_⟩
  rw [isMarked, isMarked, hwords, beq_eq_false_iff_ne.mpr hplain, beq_eq_false_iff_ne.mpr h]

end Shape

/-- A field name consists of lower-case letters, digits and underscores, with no two underscores in a row, and
with none in front if its property has any letter or digit. Without the underscores it is the letters and
digits of the property. It ends in an underscore just where the property begins with a dollar sign, or it
would be a reserved word otherwise, so that it never is one. If no dollar sign was in front, the name is its
own field name. -/
theorem fieldName_shape (name : String) :
    (∀ c ∈ (fieldName name).toList, c.isLower = true ∨ c.isDigit = true ∨ c = '_') ∧
    ((∃ c ∈ withoutDollar name, c.isAlphanum = true) → (fieldName name).toList.head? ≠ some '_') ∧
    ¬['_', '_'] <:+: (fieldName name).toList ∧
    (fieldName name).toList.filter (· != '_') =
      ((withoutDollar name).filter (·.isAlphanum)).map Char.toLower ∧
    ((fieldName name).toList.getLast? = some '_' ↔ name.toList.head? = some '$' ∨
      isReserved (String.ofList ((fieldName name).toList.rdropWhile (· == '_'))) = true) ∧
    isReserved (fieldName name) = false ∧
    (name.toList.head? ≠ some '$' → fieldName (fieldName name) = fieldName name) := by
  have hfull : ∀ w ∈ words name.toList, w ≠ [] ∧ '_' ∉ w := fun w => word_full
  have hspaced : Spaced (fieldName name).toList := by
    rw [toList_fieldName]
    exact spaced_spellWords hfull _
  have hletters : (fieldName name).toList.filter (· != '_') =
      ((withoutDollar name).filter (·.isAlphanum)).map Char.toLower := by
    rw [toList_fieldName, List.filter_append, filter_spellWords hfull, flatten_words, filter_withoutDollar]
    cases isMarked name <;> simp
  have hlast : (fieldName name).toList.getLast? = some '_' ↔ name.toList.head? = some '$' ∨
      isReserved (String.ofList ((fieldName name).toList.rdropWhile (· == '_'))) = true := by
    rw [toList_fieldName, rdropWhile_spelled hfull, getLast?_spelled hfull, isMarked_iff]
  exact ⟨isFieldChar_fieldName name, head_fieldName name, hspaced, hletters, hlast,
    not_reserved_fieldName name, fieldName_fieldName⟩

end SchemaCompiler.Naming
