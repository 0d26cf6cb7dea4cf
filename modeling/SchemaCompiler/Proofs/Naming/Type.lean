import Mathlib.Data.List.Basic
import Mathlib.Data.List.Find
import Mathlib.Tactic.Choose
import SchemaCompiler.Naming.Type
import SchemaCompiler.Proofs.Naming.Letter

/-! The letters of type names. A type name is put together from pieces that begin with no lower-case
letter of ASCII. Of a property name of ASCII letters, digits and separators it keeps letters and digits
alone, and it begins as they begin. -/

namespace SchemaCompiler.Naming

variable {c : Char} {cs word : List Char}

/-! Capitals of single characters. -/

theorem find?_expandingCapitals (h : c.toNat < 128) :
    Text.expandingCapitals.find? (fun p => p.1 == c.toNat) = none := by
  have hfar : ∀ p ∈ Text.expandingCapitals, 128 ≤ p.1 := by decide
  rw [List.find?_eq_none]
  intro p hp
  have hp := hfar p hp
  rw [beq_iff_eq]
  omega

/-- Of ASCII the first run has the lower-case letters, and the others have nothing. -/
theorem find?_caseRuns (h : c.toNat < 128) : Text.caseRuns.find? (fun r => r.has c.toNat) =
    if c.isLower then some ⟨0x61, 0x7A, 1, -32⟩ else none := by
  have hfar : ∀ r ∈ Text.caseRuns.tail, 128 ≤ r.first := by decide +kernel
  have hnone : Text.caseRuns.tail.find? (fun r => r.has c.toNat) = none := by
    rw [List.find?_eq_none]
    intro r hr
    have hr := hfar r hr
    simp only [Text.CaseRun.has, Bool.and_eq_true, decide_eq_true_eq]
    omega
  have hfirst : (Text.CaseRun.mk 0x61 0x7A 1 (-32)).has c.toNat = c.isLower := by
    rw [Bool.eq_iff_iff, isLower_iff]
    simp [Text.CaseRun.has, Nat.mod_one]
  have hcons : Text.caseRuns = ⟨0x61, 0x7A, 1, -32⟩ :: Text.caseRuns.tail := rfl
  rw [hcons, List.find?_cons, hfirst, hnone]
  cases c.isLower <;> rfl

theorem uppercase_ascii (h : c.toNat < 128) : Text.uppercase c = [c.toUpper] := by
  rw [Text.uppercase, find?_expandingCapitals h, find?_caseRuns h]
  by_cases hlower : c.isLower = true
  · have hshift : ((c.toNat : Int) + -32).toNat = c.toNat - 32 := by omega
    rw [if_pos hlower, toUpper_of_isLower hlower]
    simp only [hshift]
  · rw [if_neg hlower, toUpper_of_not_isLower hlower]

/-- A character may have several capitals at once, or one some way off, or be its own. -/
theorem uppercase_cases (c : Char) :
    (∃ p ∈ Text.expandingCapitals, Text.uppercase c = p.2.map Char.ofNat) ∨
    (∃ r ∈ Text.caseRuns, r.first ≤ c.toNat ∧ c.toNat ≤ r.last ∧
      Text.uppercase c = [Char.ofNat (c.toNat + r.shift).toNat]) ∨
    Text.uppercase c = [c] := by
  rw [Text.uppercase]
  split
  · next capitals h => exact .inl ⟨_, List.mem_of_find?_eq_some h, rfl⟩
  · split
    · next r h =>
      have hhas : r.has c.toNat = true := List.find?_some (p := fun r : Text.CaseRun => r.has c.toNat) h
      rw [Text.CaseRun.has, Bool.and_eq_true, Bool.and_eq_true] at hhas
      obtain ⟨⟨hfirst, hlast⟩, -⟩ := hhas
      exact .inr (.inl ⟨r, List.mem_of_find?_eq_some h, by simpa using hfirst, by simpa using hlast, rfl⟩)
    · exact .inr (.inr rfl)

theorem not_isLower_of_lt (h : 122 < c.toNat) : c.isLower = false ∧ c ≠ 'V' ∧ c ≠ 'B' := by
  refine ⟨?_, ?_, ?_⟩
  · rw [← Bool.not_eq_true, isLower_iff]
    omega
  · rintro rfl
    revert h
    decide
  · rintro rfl
    revert h
    decide

theorem not_isLower_ofNat {n : Nat} (h : 122 < n) :
    (Char.ofNat n).isLower = false ∧ Char.ofNat n ≠ 'V' ∧ Char.ofNat n ≠ 'B' := by
  by_cases hvalid : n.isValidChar
  · refine not_isLower_of_lt ?_
    rwa [Char.ofNat, dif_pos hvalid]
  · rw [Char.ofNat, dif_neg hvalid]
    decide

/-- What the capitals of characters beyond ASCII begin with. -/
theorem head_uppercase {d : Char} (hc : 128 ≤ c.toNat) (h : (Text.uppercase c).head? = some d) :
    d.isLower = false ∧ d ≠ 'V' ∧ d ≠ 'B' := by
  have hlist : ∀ p ∈ Text.expandingCapitals, ∀ n ∈ p.2.head?,
      (Char.ofNat n).isLower = false ∧ Char.ofNat n ≠ 'V' ∧ Char.ofNat n ≠ 'B' := by
    decide
  have hruns : ∀ r ∈ Text.caseRuns, (r.last : Int) < 128 ∨ r.first + r.shift = 0x53 ∧ r.first = r.last ∨
      r.first + r.shift = 0x49 ∧ r.first = r.last ∨ 122 < r.first + r.shift := by
    decide +kernel
  rcases uppercase_cases c with ⟨p, hp, heq⟩ | ⟨r, hr, hfirst, hlast, heq⟩ | heq
  · rw [heq, List.head?_map] at h
    obtain ⟨n, hn, rfl⟩ := Option.map_eq_some_iff.mp h
    exact hlist p hp n hn
  · rw [heq] at h
    obtain rfl := Option.some.inj h
    rcases hruns r hr with hlow | ⟨hshift, hone⟩ | ⟨hshift, hone⟩ | hhigh
    · omega
    · rw [show (c.toNat + r.shift).toNat = 0x53 by omega]
      decide
    · rw [show (c.toNat + r.shift).toNat = 0x49 by omega]
      decide
    · exact not_isLower_ofNat (by omega)
  · rw [heq] at h
    obtain rfl := Option.some.inj h
    exact not_isLower_of_lt (by omega)

theorem uppercase_ne_nil (c : Char) : Text.uppercase c ≠ [] := by
  have hlist : ∀ p ∈ Text.expandingCapitals, p.2 ≠ [] := by decide
  rcases uppercase_cases c with ⟨p, hp, heq⟩ | ⟨r, -, -, -, heq⟩ | heq <;> rw [heq]
  · simpa using hlist p hp
  · simp
  · simp

/-! Words. -/

/-- A word of a type name in one of the three ways that it may be spelled. -/
inductive Spelled (word : List Char) : Prop
  | short (h : byteLength word ≤ 3) (heq : typeWord word = word.map Char.toUpper)
  | acronym {a rest : List Char} (ha : a ∈ acronyms) (hstart : a <+: lowered word)
    (heq : typeWord word = a.map Char.toUpper ++ capitalize rest) (hrest : rest = word.drop a.length)
  | word (h : 3 < byteLength word) (heq : typeWord word = capitalize word)

theorem spelled (word : List Char) : Spelled word := by
  by_cases hshort : byteLength word ≤ 3
  · exact .short hshort (by rw [typeWord, if_pos hshort])
  · cases hfind : acronyms.find? fun a => a.isPrefixOf (lowered word) with
    | some a =>
      have hstart : a.isPrefixOf (lowered word) = true :=
        List.find?_some (p := fun a : List Char => a.isPrefixOf (lowered word)) hfind
      exact .acronym (List.mem_of_find?_eq_some hfind) (List.isPrefixOf_iff_prefix.mp hstart)
        (by rw [typeWord, if_neg hshort, hfind]) rfl
    | none => exact .word (Nat.lt_of_not_le hshort) (by rw [typeWord, if_neg hshort, hfind])

/-- A word that is spelled with a capital of its own is one of ASCII or begins otherwise than `Vec` and
`Box` do. -/
theorem head_capitalize {d : Char} {rest : List Char}
    (h : (capitalize (c :: rest)).head? = some d) :
    d.isLower = false ∧ (128 ≤ c.toNat → d ≠ 'V' ∧ d ≠ 'B') := by
  obtain ⟨u, us, hupper⟩ := List.exists_cons_of_ne_nil (uppercase_ne_nil c)
  rw [capitalize, hupper] at h
  obtain rfl := Option.some.inj h
  have hhead : (Text.uppercase c).head? = some u := by rw [hupper]; rfl
  by_cases hc : c.toNat < 128
  · rw [uppercase_ascii hc] at hupper
    obtain ⟨rfl, -⟩ := List.cons.inj hupper
    exact ⟨not_isLower_toUpper c, fun hlarge => absurd hc (Nat.not_lt.mpr hlarge)⟩
  · have hlarge := head_uppercase (Nat.le_of_not_lt hc) hhead
    exact ⟨hlarge.1, fun _ => hlarge.2⟩

theorem acronym_capitals {a : List Char} (ha : a ∈ acronyms) :
    ∃ u us, a.map Char.toUpper = u :: us ∧ (∀ c ∈ u :: us, c.isUpper = true) ∧ u ≠ 'V' ∧ u ≠ 'B' := by
  rcases List.mem_cons.mp ha with rfl | ha
  · exact ⟨'T', ['L', 'S'], by decide, by simp, by decide, by decide⟩
  · rcases List.mem_cons.mp ha with rfl | ha
    · exact ⟨'I', ['P', 'A', 'M'], by decide, by simp, by decide, by decide⟩
    · obtain rfl := List.mem_singleton.mp ha
      exact ⟨'A', ['P', 'I'], by decide, by simp, by decide, by decide⟩

/-- A word begins with no lower-case letter of ASCII. -/
theorem head_typeWord {d : Char} (h : (typeWord word).head? = some d) : d.isLower = false := by
  cases spelled word with
  | short _ heq =>
    rw [heq, List.head?_map] at h
    obtain ⟨c, -, rfl⟩ := Option.map_eq_some_iff.mp h
    exact not_isLower_toUpper c
  | acronym ha _ heq _ =>
    obtain ⟨u, us, hcapitals, hupper, -⟩ := acronym_capitals ha
    rw [heq, hcapitals] at h
    obtain rfl := Option.some.inj h
    exact not_isLower_of_isUpper (hupper _ List.mem_cons_self)
  | word hlong heq =>
    cases word with
    | nil => cases hlong
    | cons c rest =>
      rw [heq] at h
      exact (head_capitalize h).1

/-- No word is spelled as a type of the standard library with a name of three letters. -/
theorem typeWord_ne {d : Char} {rest : List Char} (hd : d = 'V' ∨ d = 'B')
    (hrest : rest = ['e', 'c'] ∨ rest = ['o', 'x']) : typeWord word ≠ d :: rest := by
  intro hne
  cases spelled word with
  | short _ heq =>
    obtain ⟨e, more, rfl, he⟩ : ∃ e more, rest = e :: more ∧ e.isLower = true := by
      rcases hrest with rfl | rfl
      · exact ⟨'e', ['c'], rfl, by decide⟩
      · exact ⟨'o', ['x'], rfl, by decide⟩
    rw [heq] at hne
    have hmem : e ∈ word.map Char.toUpper := by simp [hne]
    obtain ⟨c, -, rfl⟩ := List.mem_map.mp hmem
    rw [not_isLower_toUpper] at he
    cases he
  | acronym ha _ heq _ =>
    obtain ⟨u, us, hcapitals, -, hv, hb⟩ := acronym_capitals ha
    rw [heq, hcapitals] at hne
    rcases hd with rfl | rfl
    · exact hv (List.cons.inj hne).1
    · exact hb (List.cons.inj hne).1
  | word hlong heq =>
    cases word with
    | nil => cases hlong
    | cons c word =>
      rw [heq] at hne
      have hhead : d.isLower = false ∧ (128 ≤ c.toNat → d ≠ 'V' ∧ d ≠ 'B') :=
        head_capitalize (show (capitalize (c :: word)).head? = some d by rw [hne]; rfl)
      by_cases hc : c.toNat < 128
      · rw [capitalize, uppercase_ascii hc] at hne
        obtain ⟨-, rfl⟩ := List.cons.inj hne
        have hsize : c.utf8Size = 1 := Char.utf8Size_eq_one_iff.mpr (by
          rw [UInt32.le_iff_toNat_le]
          exact Nat.le_of_lt_succ hc)
        rcases hrest with rfl | rfl <;> simp [byteLength, hsize] at hlong <;> exact absurd hlong (by decide)
      · obtain ⟨hv, hb⟩ := hhead.2 (Nat.le_of_not_lt hc)
        rcases hd with rfl | rfl
        · exact hv rfl
        · exact hb rfl

/-! Names as words put together. -/

theorem typeLetters_eq (name : List Char) :
    ∃ ws : List (List Char), typeLetters name = ws.flatMap typeWord := by
  have hsegment : ∀ segment, ∃ ws : List (List Char), segmentName segment = ws.flatMap typeWord := by
    intro segment
    rw [segmentName]
    split
    · exact ⟨[], rfl⟩
    · exact ⟨[singular (dropDollars segment)], (List.flatMap_singleton _ _).symm⟩
  rw [typeLetters]
  split
  · next word _ => exact ⟨[singular word], (List.flatMap_singleton _ _).symm⟩
  · choose ws hws using hsegment
    refine ⟨(segments (dropDollars name)).flatMap ws, ?_⟩
    rw [List.flatMap_assoc, ← funext hws]

theorem head_flatMap_typeWord {d : Char} {ws : List (List Char)}
    (h : (ws.flatMap typeWord).head? = some d) : d.isLower = false := by
  induction ws with
  | nil => cases h
  | cons w ws ih =>
    rw [List.flatMap_cons, List.head?_append] at h
    cases hw : (typeWord w).head? with
    | none =>
      rw [hw] at h
      exact ih h
    | some e =>
      rw [hw] at h
      obtain rfl := Option.some.inj h
      exact head_typeWord hw

/-- A text whose letters after the first are lower-case ones does not go beyond what stands before the
words, or else it is one of them. -/
theorem append_words_eq {d : Char} {start rest : List Char} {ws : List (List Char)}
    (hrest : ∀ c ∈ rest, c.isLower = true) (h : start ++ ws.flatMap typeWord = d :: rest) :
    start = d :: rest ∨ start = [] ∧ ∃ w ∈ ws, typeWord w = d :: rest := by
  have hend : ∀ {pre : List Char} {vs : List (List Char)}, pre ++ vs.flatMap typeWord = rest →
      pre = rest := by
    intro pre vs hpre
    cases hvs : vs.flatMap typeWord with
    | nil => rwa [hvs, List.append_nil] at hpre
    | cons e more =>
      have hlower := head_flatMap_typeWord (congrArg List.head? hvs)
      rw [hrest e (by simp [← hpre, hvs])] at hlower
      cases hlower
  cases start with
  | cons e pre =>
    obtain ⟨rfl, hpre⟩ := List.cons.inj h
    exact .inl (by rw [hend hpre])
  | nil =>
    refine .inr ⟨rfl, ?_⟩
    induction ws with
    | nil => cases h
    | cons w ws ih =>
      cases hw : typeWord w with
      | nil =>
        rw [List.flatMap_cons, hw] at h
        obtain ⟨v, hv, heq⟩ := ih h
        exact ⟨v, List.mem_cons_of_mem _ hv, heq⟩
      | cons e pre =>
        rw [List.flatMap_cons, hw] at h
        obtain ⟨rfl, hpre⟩ := List.cons.inj h
        exact ⟨w, List.mem_cons_self, by rw [hw, hend hpre]⟩

/-! Property names of ASCII. -/

theorem not_isSeparator (h : c.isAlphanum = true) : isSeparator c = false :=
  of_alphanum (P := fun c => isSeparator c = false) (by decide) h

/-- Letters and digits with separators, after dollar signs. -/
def isPlain (property : String) : Bool :=
  (dropDollars property.toList).all fun c => c.isAlphanum || isSeparator c

theorem flatten_segments (name : List Char) :
    (segments name).flatten = name.filter (!isSeparator ·) := by
  have hfilter : ∀ ws : List (List Char), (ws.filter (!·.isEmpty)).flatten = ws.flatten := by
    intro ws
    induction ws with
    | nil => rfl
    | cons w ws ih => cases w <;> simp [ih]
  rw [segments, hfilter]
  induction name with
  | nil => rfl
  | cons c name ih =>
    rw [List.splitOnP_cons_eq_if_modifyHead]
    by_cases hc : isSeparator c = true
    · rw [if_pos hc, List.flatten_cons, List.nil_append, ih, List.filter_cons_of_neg (by simp [hc])]
    · obtain ⟨w, ws, hws⟩ := List.exists_cons_of_ne_nil (List.splitOnP_ne_nil isSeparator name)
      rw [if_neg hc, List.filter_cons_of_pos (by simp [hc]), ← ih, hws]
      rfl

/-- Where dollar signs are at the front alone, each segment makes a word. -/
theorem typeLetters_eq_flatMap {name : List Char} (h : '$' ∉ dropDollars name) :
    typeLetters name = (segments (dropDollars name)).flatMap fun w => typeWord (singular w) := by
  have hsegment : ∀ w ∈ segments (dropDollars name), segmentName w = typeWord (singular w) := by
    intro w hw
    have hne : w ≠ [] := by simpa using (List.mem_filter.mp hw).2
    obtain ⟨c, rest, rfl⟩ := List.exists_cons_of_ne_nil hne
    have hc : c ≠ '$' := by
      rintro rfl
      have hmem := List.mem_flatten_of_mem hw List.mem_cons_self
      rw [flatten_segments] at hmem
      exact h (List.mem_filter.mp hmem).1
    rw [segmentName, dropDollars, List.dropWhile_cons_of_neg (by simpa using hc)]
  rw [typeLetters]
  split
  · next word hword => rw [hword, List.flatMap_singleton]
  · exact List.flatMap_congr hsegment

theorem byteLength_ascii (h : ∀ c ∈ cs, c.toNat < 128) : byteLength cs = cs.length := by
  have hfold : ∀ n, cs.foldl (fun n c => n + c.utf8Size) n = n + cs.length := by
    induction cs with
    | nil => exact fun _ => rfl
    | cons c cs ih =>
      intro n
      obtain ⟨hc, hcs⟩ := List.forall_mem_cons.mp h
      have hsize : c.utf8Size = 1 := Char.utf8Size_eq_one_iff.mpr (by
        rw [UInt32.le_iff_toNat_le]
        exact Nat.le_of_lt_succ hc)
      rw [List.foldl_cons, ih hcs, hsize, List.length_cons]
      omega
  rw [byteLength, hfold, Nat.zero_add]

section Plain

variable (hword : ∀ c ∈ word, c.isAlphanum = true)

include hword

theorem isAlphanum_singular : ∀ c ∈ singular word, c.isAlphanum = true := by
  have htake : ∀ n, ∀ c ∈ dropLast n word, c.isAlphanum = true :=
    fun n c hc => hword c (List.mem_of_mem_take hc)
  rw [singular]
  split
  · exact hword
  · split
    · intro c hc
      rcases List.mem_append.mp hc with hc | hc
      · exact htake 3 c hc
      · rw [List.mem_singleton.mp hc]
        decide
    · split
      · exact htake 2
      · split
        · exact htake 1
        · exact hword

theorem head_singular : (singular word).head? = word.head? := by
  have hlength : byteLength word = word.length := byteLength_ascii fun c hc => ascii_of_isAlphanum (hword c hc)
  have htake : ∀ {n}, n < byteLength word → (dropLast n word).head? = word.head? := by
    intro n hn
    rw [hlength] at hn
    rw [dropLast, List.head?_take, if_neg (by omega)]
  rw [singular]
  split
  · rfl
  · split
    · next h =>
      have hn : 3 < byteLength word := by simpa using (Bool.and_eq_true_iff.mp h).2
      rw [List.head?_append, htake hn]
      cases word with
      | nil => cases hn
      | cons c rest => rfl
    · split
      · next h =>
        have hn : 3 < byteLength word := by simpa using (Bool.and_eq_true_iff.mp h).2
        exact htake (by omega)
      · split
        · next h => exact htake (by simpa using (Bool.and_eq_true_iff.mp h).2)
        · rfl

theorem capitalize_alphanum : (∀ c ∈ capitalize word, c.isAlphanum = true) ∧
    (capitalize word).head? = word.head?.map Char.toUpper := by
  cases word with
  | nil => exact ⟨by simp [capitalize], rfl⟩
  | cons c rest =>
    obtain ⟨hc, hrest⟩ := List.forall_mem_cons.mp hword
    rw [capitalize, uppercase_ascii (ascii_of_isAlphanum hc)]
    exact ⟨List.forall_mem_cons.mpr ⟨isAlphanum_toUpper hc, hrest⟩, rfl⟩

theorem isAlphanum_typeWord : ∀ c ∈ typeWord word, c.isAlphanum = true := by
  cases spelled word with
  | short _ heq =>
    rw [heq, List.forall_mem_map]
    exact fun c hc => isAlphanum_toUpper (hword c hc)
  | @acronym a rest ha _ heq hrest =>
    obtain ⟨u, us, hcapitals, hupper, -⟩ := acronym_capitals ha
    have hdropped : ∀ c ∈ rest, c.isAlphanum = true :=
      fun c hc => hword c (List.mem_of_mem_drop (hrest ▸ hc))
    intro c hc
    rw [heq, hcapitals] at hc
    rcases List.mem_append.mp hc with hc | hc
    · exact isAlphanum_of_isUpper (hupper c hc)
    · exact (capitalize_alphanum hdropped).1 c hc
  | word _ heq =>
    rw [heq]
    exact (capitalize_alphanum hword).1

theorem head_typeWord_plain : (typeWord word).head? = word.head?.map Char.toUpper := by
  cases spelled word with
  | short _ heq => rw [heq, List.head?_map]
  | @acronym a rest ha hstart heq _ =>
    obtain ⟨u, us, hcapitals, -⟩ := acronym_capitals ha
    cases a with
    | nil => cases hcapitals
    | cons l ls =>
      cases word with
      | nil => exact absurd hstart (by simp [lowered])
      | cons c more =>
        have hl : l = c.toLower := by
          obtain ⟨rest, hrest⟩ := hstart
          exact (List.cons.inj hrest).1
        rw [heq, hl]
        exact congrArg some (toUpper_toLower (hword c List.mem_cons_self))
  | word _ heq =>
    rw [heq]
    exact (capitalize_alphanum hword).2

end Plain

section Property

variable {property : String} (h : isPlain property = true)

include h

theorem mem_segments {w : List Char} (hw : w ∈ segments (dropDollars property.toList)) :
    w ≠ [] ∧ ∀ c ∈ w, c.isAlphanum = true := by
  refine ⟨by simpa using (List.mem_filter.mp hw).2, fun c hc => ?_⟩
  have hmem := List.mem_flatten_of_mem hw hc
  rw [flatten_segments, List.mem_filter] at hmem
  have hplain := List.all_eq_true.mp h c hmem.1
  simpa [show isSeparator c = false by simpa using hmem.2] using hplain

/-- Of a plain name each segment makes a word. -/
theorem typeLetters_plain : typeLetters property.toList =
    (segments (dropDollars property.toList)).flatMap fun w => typeWord (singular w) := by
  refine typeLetters_eq_flatMap fun hdollar => ?_
  exact absurd (List.all_eq_true.mp h _ hdollar) (by decide)

theorem isAlphanum_typeLetters : ∀ c ∈ typeLetters property.toList, c.isAlphanum = true := by
  rw [typeLetters_plain h]
  intro c hc
  obtain ⟨w, hw, hc⟩ := List.mem_flatMap.mp hc
  exact isAlphanum_typeWord (isAlphanum_singular (mem_segments h hw).2) c hc

/-- The name begins with the first letter or digit of the property, in upper case. -/
theorem head_typeLetters : (typeLetters property.toList).head? =
    (property.toList.find? (·.isAlphanum)).map Char.toUpper := by
  have hwords : ∀ ws : List (List Char), (∀ w ∈ ws, w ≠ [] ∧ ∀ c ∈ w, c.isAlphanum = true) →
      (ws.flatMap fun w => typeWord (singular w)).head? = ws.flatten.head?.map Char.toUpper := by
    intro ws hws
    cases ws with
    | nil => rfl
    | cons w ws =>
      obtain ⟨hne, halphanum⟩ := hws w List.mem_cons_self
      obtain ⟨c, rest, rfl⟩ := List.exists_cons_of_ne_nil hne
      rw [List.flatMap_cons, List.head?_append, head_typeWord_plain (isAlphanum_singular halphanum),
        head_singular halphanum]
      rfl
  have hdollars : ∀ cs : List Char, (dropDollars cs).find? (·.isAlphanum) = cs.find? (·.isAlphanum) := by
    intro cs
    induction cs with
    | nil => rfl
    | cons c cs ih =>
      by_cases hc : c = '$'
      · rw [hc, dropDollars, List.dropWhile_cons_of_pos (by simp)]
        exact ih
      · rw [dropDollars, List.dropWhile_cons_of_neg (by simpa using hc)]
  rw [typeLetters_plain h, hwords _ fun w hw => mem_segments h hw, flatten_segments, List.head?_filter,
    ← hdollars]
  congr 1
  refine List.find?_congr fun c hc => ?_
  have hplain := List.all_eq_true.mp h c hc
  rcases Bool.or_eq_true_iff.mp hplain with halphanum | hseparator
  · rw [halphanum, not_isSeparator halphanum, Bool.not_false]
  · rw [hseparator, Bool.not_true, eq_comm, ← Bool.not_eq_true]
    intro halphanum
    rw [not_isSeparator halphanum] at hseparator
    cases hseparator

end Property

end SchemaCompiler.Naming
