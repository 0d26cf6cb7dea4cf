import Mathlib.Data.List.Basic
import Mathlib.Data.List.Induction
import SchemaCompiler.Naming.Field
import SchemaCompiler.Proofs.Naming.Module

/-! Field names as the words of property names. A field name is the words in lower case with
underscores in between, so that two properties get the same field name just where they have the same
words, and a dollar sign at the front of one of them does not tell them apart. -/

namespace SchemaCompiler.Naming

/-- The first word begins where `cs` begins and may be empty, as may a word between separators. -/
def splitWords (previous : Option Char) : List Char → List (List Char)
  | [] => [[]]
  | c :: rest =>
    if c.isAlphanum then
      let words := (splitWords (some c) rest).modifyHead (c.toLower :: ·)
      if c.isUpper && previous.any (opensWord · rest) then [] :: words else words
    else [] :: splitWords (some c) rest

/-- The words of a name in lower case. -/
def words (cs : List Char) : List (List Char) :=
  (splitWords none cs).filter (!·.isEmpty)

/-- A name as its words are spelled in a field name. -/
def spellWords (ws : List (List Char)) : List Char := ['_'].intercalate ws

/-- Whether an underscore follows the words of a name, because of a dollar sign in front of them or
because they make a reserved word. -/
def isMarked (name : String) : Bool :=
  name.toList.head? == some '$' || isReserved (String.ofList (spellWords (words name.toList)))

/-- Two properties that fields cannot tell apart. -/
def Alike (a b : String) : Prop :=
  words a.toList = words b.toList ∧ isMarked a = isMarked b

instance (a b : String) : Decidable (Alike a b) := inferInstanceAs (Decidable (_ ∧ _))

theorem splitWords_ne_nil (previous : Option Char) (cs : List Char) : splitWords previous cs ≠ [] := by
  induction cs generalizing previous with
  | nil => simp [splitWords]
  | cons c rest ih =>
    rw [splitWords]
    split
    · simp only
      split
      · exact List.cons_ne_nil _ _
      · intro h
        have hlength := congrArg List.length h
        rw [List.length_modifyHead] at hlength
        exact ih (some c) (List.length_eq_zero_iff.mp hlength)
    · exact List.cons_ne_nil _ _

/-- Words have letters and digits alone, in lower case, and all of them. -/
theorem flatten_splitWords (previous : Option Char) (cs : List Char) :
    (splitWords previous cs).flatten = (cs.filter (·.isAlphanum)).map Char.toLower := by
  induction cs generalizing previous with
  | nil => rfl
  | cons c rest ih =>
    have hhead : ((splitWords (some c) rest).modifyHead (c.toLower :: ·)).flatten =
        c.toLower :: (splitWords (some c) rest).flatten := by
      cases h : splitWords (some c) rest with
      | nil => exact absurd h (splitWords_ne_nil _ _)
      | cons w ws => rfl
    rw [splitWords]
    split
    · next hc =>
      rw [List.filter_cons_of_pos hc, List.map_cons, ← ih (some c)]
      simp only
      split
      · rw [List.flatten_cons, List.nil_append, hhead]
      · exact hhead
    · next hc => rw [List.filter_cons_of_neg hc, ← ih (some c), List.flatten_cons, List.nil_append]

theorem flatten_words (cs : List Char) :
    (words cs).flatten = (cs.filter (·.isAlphanum)).map Char.toLower := by
  rw [← flatten_splitWords none cs, words]
  induction splitWords none cs with
  | nil => rfl
  | cons w ws ih => cases w <;> simp [ih]

theorem word_ne_nil {cs w : List Char} (h : w ∈ words cs) : w ≠ [] := by
  simpa using (List.mem_filter.mp h).2

theorem not_mem_word {cs w : List Char} (h : w ∈ words cs) : '_' ∉ w := by
  intro hmem
  have hletters := List.mem_flatten_of_mem h hmem
  rw [flatten_words, List.mem_map] at hletters
  obtain ⟨c, hc, hlower⟩ := hletters
  exact ne_underscore (isAlphanum_toLower (List.mem_filter.mp hc).2) hlower

/-! What is written so far is the words that are done, each with its underscore, and then the letters of
the word that is not. -/

theorem intercalate_concat (done : List (List Char)) (w : List Char) :
    ['_'].intercalate (done ++ [w]) = done.flatMap (· ++ ['_']) ++ w := by
  induction done with
  | nil => simp
  | cons v done ih =>
    obtain ⟨u, us, h⟩ := List.exists_cons_of_ne_nil (List.concat_ne_nil w done)
    rw [List.cons_append, h, List.intercalate_cons_cons, ← h, ih]
    simp

/-- The words `done` and the letters `current` of the next one are what is `written`, in reverse. -/
structure Written (previous : Option Char) (done : List (List Char)) (current written : List Char) :
    Prop where
  spelled : written = (done.flatMap (· ++ ['_']) ++ current).reverse
  full : ∀ w ∈ done, w ≠ [] ∧ '_' ∉ w
  letters : '_' ∉ current
  begun : previous.any (·.isAlphanum) = true → current ≠ []

namespace Written

variable {previous : Option Char} {done : List (List Char)} {current written : List Char}

theorem ends (h : Written previous done current written) :
    (written.isEmpty || written.head? == some '_') = current.isEmpty := by
  rw [h.spelled]
  cases current using List.reverseRecOn with
  | nil =>
    cases done using List.reverseRecOn with
    | nil => rfl
    | append_singleton done w => simp
  | append_singleton current c =>
    have hc : c ≠ '_' := fun he => h.letters (by simp [he])
    rw [Bool.eq_iff_iff]
    simp [hc]

theorem finish (h : Written previous done current written) :
    (written.dropWhile (· == '_')).reverse =
      ['_'].intercalate (done ++ [current].filter (!·.isEmpty)) := by
  rw [h.spelled]
  cases current using List.reverseRecOn with
  | nil =>
    cases done using List.reverseRecOn with
    | nil => rfl
    | append_singleton done w =>
      obtain ⟨hw, hletters⟩ := h.full w (by simp)
      obtain ⟨w, c, rfl⟩ := List.eq_nil_or_concat' w |>.resolve_left hw
      have hc : c ≠ '_' := fun he => hletters (by simp [he])
      simp [intercalate_concat, hc]
  | append_singleton current c =>
    have hc : c ≠ '_' := fun he => h.letters (by simp [he])
    rw [List.filter_cons_of_pos (by simp), List.filter_nil, intercalate_concat]
    simp [hc]

/-- A letter that continues the word. -/
theorem letter (h : Written previous done current written) {c : Char} (hc : c.isAlphanum = true) :
    Written (some c) done (current ++ [c.toLower]) (c.toLower :: written) where
  spelled := by simp [h.spelled]
  full := h.full
  letters := by simp [h.letters, (ne_underscore (isAlphanum_toLower hc)).symm]
  begun := by simp

/-- A word that ends. -/
theorem close (h : Written previous done current written) (hne : current ≠ []) {next : Option Char}
    (hnext : next.any (·.isAlphanum) = false) :
    Written next (done ++ [current]) [] ('_' :: written) where
  spelled := by simp [h.spelled]
  full := by
    intro w hw
    rcases List.mem_append.mp hw with hw | hw
    · exact h.full w hw
    · rw [List.mem_singleton.mp hw]
      exact ⟨hne, h.letters⟩
  letters := by simp
  begun := by simp [hnext]

/-- A separator where no word is begun. -/
theorem skip (h : Written previous done [] written) {next : Option Char}
    (hnext : next.any (·.isAlphanum) = false) : Written next done [] written where
  spelled := h.spelled
  full := h.full
  letters := h.letters
  begun := by simp [hnext]

end Written

theorem any_isAlphanum_of_opens {previous : Option Char} {rest : List Char}
    (h : previous.any (opensWord · rest) = true) : previous.any (·.isAlphanum) = true := by
  obtain _ | p := previous
  · cases h
  · rw [Option.any_some, opensWord.eq_def] at h
    rw [Option.any_some, isAlphanum_eq]
    split at h
    · next hp => rcases Bool.or_eq_true_iff.mp hp with hp | hp <;> simp [hp]
    · split at h
      · cases h
      · next hp => simp [show p.isUpper = true by simpa using hp]

/-! One character of the name, as a capital that opens a word, another letter, or a separator. -/

section Step

variable {previous : Option Char} {c : Char} {rest written : List Char}

theorem splitWords_opens (hc : c.isUpper = true) (hopens : previous.any (opensWord · rest) = true) :
    splitWords previous (c :: rest) =
      [] :: (splitWords (some c) rest).modifyHead (c.toLower :: ·) := by
  rw [splitWords, if_pos (isAlphanum_of_isUpper hc), hc, hopens]
  rfl

theorem splitWords_letter (hc : c.isAlphanum = true)
    (hopens : (c.isUpper && previous.any (opensWord · rest)) = false) :
    splitWords previous (c :: rest) = (splitWords (some c) rest).modifyHead (c.toLower :: ·) := by
  rw [splitWords, if_pos hc, hopens]
  rfl

theorem splitWords_separator (hc : c.isAlphanum = false) :
    splitWords previous (c :: rest) = [] :: splitWords (some c) rest := by
  rw [splitWords, hc]
  rfl

theorem fieldStep_opens (hc : c.isUpper = true) (hopens : previous.any (opensWord · rest) = true)
    (hmark : (written.head? == some '_') = false) :
    fieldStep previous c rest written = c.toLower :: '_' :: written := by
  rw [fieldStep, if_pos hc, hopens, bne, hmark]
  rfl

theorem fieldStep_letter (hc : c.isAlphanum = true)
    (hopens : (c.isUpper && previous.any (opensWord · rest)) = false) :
    fieldStep previous c rest written = c.toLower :: written := by
  rw [fieldStep]
  by_cases hupper : c.isUpper = true
  · rw [hupper, Bool.true_and] at hopens
    rw [if_pos hupper, hopens]
    rfl
  · rw [if_neg hupper, if_pos hc, toLower_of_not_isUpper hupper]

theorem fieldStep_separator (hc : c.isAlphanum = false) :
    fieldStep previous c rest written =
      if written.isEmpty || written.head? == some '_' then written else '_' :: written := by
  have hupper : ¬c.isUpper = true := fun hu => by simp [isAlphanum_of_isUpper hu] at hc
  rw [fieldStep, if_neg hupper, hc]
  rfl

end Step

theorem fieldLetters_eq {previous : Option Char} {done : List (List Char)} {current written : List Char}
    (h : Written previous done current written) (cs : List Char) :
    fieldLetters previous cs written = ['_'].intercalate
      (done ++ ((splitWords previous cs).modifyHead (current ++ ·)).filter (!·.isEmpty)) := by
  induction cs generalizing previous done current written with
  | nil => simpa [fieldLetters, splitWords] using h.finish
  | cons c rest ih =>
    obtain ⟨w, ws, hws⟩ := List.exists_cons_of_ne_nil (splitWords_ne_nil (some c) rest)
    have hends := h.ends
    rw [fieldLetters]
    by_cases hc : c.isAlphanum = true
    · cases hopens : c.isUpper && previous.any (opensWord · rest) with
      | true =>
        obtain ⟨hupper, hopen⟩ := Bool.and_eq_true_iff.mp hopens
        have hne : current ≠ [] := h.begun (any_isAlphanum_of_opens hopen)
        rw [List.isEmpty_eq_false_iff.mpr hne, Bool.or_eq_false_iff] at hends
        have hclosed : Written none (done ++ [current]) [] ('_' :: written) := h.close hne rfl
        rw [fieldStep_opens hupper hopen hends.2, splitWords_opens hupper hopen,
          ih (hclosed.letter hc), hws]
        simp [hne]
      | false =>
        rw [fieldStep_letter hc hopens, splitWords_letter hc hopens, ih (h.letter hc), hws]
        simp
    · rw [Bool.not_eq_true] at hc
      have hnext : (some c).any (·.isAlphanum) = false := hc
      rw [fieldStep_separator hc, splitWords_separator hc, hends]
      by_cases hne : current = []
      · subst hne
        rw [List.isEmpty_nil, if_pos rfl, ih (h.skip hnext), hws]
        simp
      · rw [List.isEmpty_eq_false_iff.mpr hne, if_neg Bool.false_ne_true, ih (h.close hne hnext), hws]
        simp [hne]

/-- The letters of a field name are the words, with an underscore between each two. -/
theorem fieldLetters_eq_spellWords (cs : List Char) :
    fieldLetters none cs [] = spellWords (words cs) := by
  have hbegin : Written none [] [] [] := ⟨rfl, by simp, by simp, by simp⟩
  obtain ⟨w, ws, hws⟩ := List.exists_cons_of_ne_nil (splitWords_ne_nil none cs)
  simp [fieldLetters_eq hbegin, spellWords, words, hws]

/-- A dollar sign in front is not part of a word. -/
theorem words_dollar (body : List Char) : words ('$' :: body) = words body := by
  have hdollar : ∀ rest, opensWord '$' rest = false := fun rest => by
    rw [opensWord.eq_def]
    rfl
  have hsame : splitWords (some '$') body = splitWords none body := by
    cases body with
    | nil => rfl
    | cons c rest => simp [splitWords, hdollar]
  rw [words, splitWords_separator (by decide), hsame, List.filter_cons_of_neg (by simp), words]

theorem fieldName_eq (name : String) : fieldName name =
    String.ofList (spellWords (words name.toList) ++ if isMarked name then ['_'] else []) := by
  rw [fieldName, isMarked]
  split
  · next body hname =>
    rw [hname, words_dollar, fieldLetters_eq_spellWords]
    rfl
  · next hname =>
    have hdollar : (name.toList.head? == some '$') = false := by
      cases h : name.toList with
      | nil => rfl
      | cons c body =>
        have hc : c ≠ '$' := fun hc => hname body (by rw [h, hc])
        simpa using hc
    rw [fieldLetters_eq_spellWords, hdollar, Bool.false_or, stepAside_eq]

/-! The words of a name can be read off its field name. -/

theorem spellWords_inj {us vs : List (List Char)} (hu : ∀ w ∈ us, w ≠ [] ∧ '_' ∉ w)
    (hv : ∀ w ∈ vs, w ≠ [] ∧ '_' ∉ w) (h : spellWords us = spellWords vs) : us = vs := by
  have hread : ∀ {ws : List (List Char)}, (∀ w ∈ ws, w ≠ [] ∧ '_' ∉ w) → ws ≠ [] →
      (spellWords ws).splitOn '_' = ws :=
    fun hws hne => List.splitOn_intercalate '_' (fun w hw => (hws w hw).2) hne
  have hempty : ∀ {ws : List (List Char)}, (∀ w ∈ ws, w ≠ [] ∧ '_' ∉ w) → spellWords ws = [] →
      ws = [] := by
    intro ws hws hnil
    by_contra hne
    have hsplit := hread hws hne
    rw [hnil, List.splitOn_nil] at hsplit
    exact (hws [] (by simp [← hsplit])).1 rfl
  by_cases hne : us = []
  · rw [hne, hempty hv (by rw [← h, hne]; rfl)]
  · have hne' : vs ≠ [] := fun hnil => hne (hempty hu (by rw [h, hnil]; rfl))
    rw [← hread hu hne, h, hread hv hne']

theorem spellWords_ne_concat {ws : List (List Char)} (hws : ∀ w ∈ ws, w ≠ [] ∧ '_' ∉ w)
    (cs : List Char) : spellWords ws ≠ cs ++ ['_'] := by
  cases ws using List.reverseRecOn with
  | nil => simp [spellWords]
  | append_singleton ws w =>
    obtain ⟨hw, hletters⟩ := hws w (by simp)
    obtain ⟨w, c, rfl⟩ := (List.eq_nil_or_concat' w).resolve_left hw
    intro h
    rw [spellWords, intercalate_concat, ← List.append_assoc] at h
    have hc := (List.append_inj' h rfl).2
    exact hletters (by simp [List.cons.inj hc |>.1])

theorem word_full {cs w : List Char} (h : w ∈ words cs) : w ≠ [] ∧ '_' ∉ w :=
  ⟨word_ne_nil h, not_mem_word h⟩

/-- Two properties have one field name just where they have the same words and both or neither of them
an underscore after these. -/
theorem fieldName_inj {a b : String} : fieldName a = fieldName b ↔ Alike a b := by
  rw [fieldName_eq, fieldName_eq, String.ofList_inj, Alike]
  constructor
  · intro h
    cases ha : isMarked a <;> cases hb : isMarked b <;> rw [ha, hb] at h
    · exact ⟨spellWords_inj (fun _ => word_full) (fun _ => word_full) (by simpa using h), rfl⟩
    · exact absurd (by simpa using h) (spellWords_ne_concat (fun _ => word_full) _)
    · exact absurd (by simpa using h.symm) (spellWords_ne_concat (fun _ => word_full) _)
    · exact ⟨spellWords_inj (fun _ => word_full) (fun _ => word_full) (by simpa using h), rfl⟩
  · rintro ⟨hwords, hmarked⟩
    rw [hwords, hmarked]

/-! Names that only capitals divide can be read off their words. -/

/-- Letters and digits in which no capital follows a capital; `capital` says that one stands before. -/
def camelAfter (capital : Bool) : List Char → Bool
  | [] => true
  | c :: rest => c.isAlphanum && !(capital && c.isUpper) && camelAfter c.isUpper rest

/-- A name in camel case, with no capital at its front and no two in a row. -/
def isCamel (name : String) : Bool := camelAfter true name.toList

def capitalized : List Char → List Char
  | [] => []
  | c :: rest => c.toUpper :: rest

/-- The words as a name in camel case. -/
def camel : List (List Char) → List Char
  | [] => []
  | w :: ws => w ++ ws.flatMap capitalized

/-- Each capital of such a name begins a word, and nothing else does. -/
theorem camel_splitWords {previous : Option Char} {capital : Bool} {cs : List Char}
    (hprevious : capital = false → previous.any (fun p => p.isLower || p.isDigit) = true)
    (h : camelAfter capital cs = true) :
    camel (splitWords previous cs) = cs ∧ ∀ w ∈ (splitWords previous cs).tail, w ≠ [] := by
  induction cs generalizing previous capital with
  | nil => simp [splitWords, camel]
  | cons c rest ih =>
    obtain ⟨w, ws, hws⟩ := List.exists_cons_of_ne_nil (splitWords_ne_nil (some c) rest)
    rw [camelAfter, Bool.and_eq_true, Bool.and_eq_true] at h
    obtain ⟨⟨hc, hcapital⟩, hrest⟩ := h
    have hnext : c.isUpper = false → (some c).any (fun p => p.isLower || p.isDigit) = true := by
      intro hupper
      simpa [isAlphanum_eq, hupper] using hc
    obtain ⟨hcamel, htail⟩ := ih hnext hrest
    rw [hws] at hcamel htail
    by_cases hupper : c.isUpper = true
    · have hfirst : capital = false := by simpa [hupper] using hcapital
      have hopens : previous.any (opensWord · rest) = true := by
        obtain _ | p := previous
        · exact absurd (hprevious hfirst) (by simp)
        · have hp : (p.isLower || p.isDigit) = true := hprevious hfirst
          rw [Option.any_some, opensWord.eq_def, hp]
          rfl
      rw [splitWords_opens hupper hopens, hws]
      refine ⟨?_, ?_⟩
      · rw [← hcamel]
        simp [camel, capitalized, toUpper_toLower hc, toUpper_of_not_isLower, not_isLower_of_isUpper hupper]
      · simpa using htail
    · have hopens : (c.isUpper && previous.any (opensWord · rest)) = false := by simp [hupper]
      rw [splitWords_letter hc hopens, hws, toLower_of_not_isUpper hupper]
      refine ⟨?_, htail⟩
      rw [← hcamel]
      rfl

theorem camel_words {name : String} (h : isCamel name = true) :
    camel (words name.toList) = name.toList := by
  have hnone : true = false → (none : Option Char).any (fun p => p.isLower || p.isDigit) = true :=
    nofun
  obtain ⟨hcamel, htail⟩ := camel_splitWords hnone h
  cases hname : name.toList with
  | nil => rfl
  | cons c rest =>
    rw [isCamel, hname, camelAfter, Bool.and_eq_true, Bool.and_eq_true] at h
    obtain ⟨⟨hc, hcapital⟩, -⟩ := h
    obtain ⟨w, ws, hws⟩ := List.exists_cons_of_ne_nil (splitWords_ne_nil (some c) rest)
    have hsplit : splitWords none (c :: rest) = (splitWords (some c) rest).modifyHead (c.toLower :: ·) :=
      splitWords_letter hc (by simp)
    rw [hname, hsplit, hws] at hcamel htail
    rw [words, hsplit, hws, List.filter_eq_self.mpr, hcamel]
    exact List.forall_mem_cons.mpr ⟨by simp, by simpa using htail⟩

/-- Different properties in camel case have different fields. -/
theorem eq_of_fieldName_camel {a b : String} (ha : isCamel a = true) (hb : isCamel b = true)
    (h : fieldName a = fieldName b) : a = b := by
  rw [← String.toList_inj, ← camel_words ha, (fieldName_inj.mp h).1, camel_words hb]

end SchemaCompiler.Naming
