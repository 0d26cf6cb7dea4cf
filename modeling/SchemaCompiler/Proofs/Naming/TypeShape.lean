import SchemaCompiler.Proofs.Naming.Type

/-! The shape of type names. They are derived with at most two calls within each other, and wherever a word
is cut by bytes, the cut falls between two characters. Of names that are letters and digits between
separators, the type name is put together from those of the parts on both sides of any separator. -/

namespace SchemaCompiler.Naming

variable {n : Nat} {c : Char} {name cs front back word : List Char}

/-! Cuts by bytes. -/

/-- What comes before and after `n` bytes, unless these end within a character or behind the text. -/
def cut? : Nat → List Char → Option (List Char × List Char)
  | 0, cs => some ([], cs)
  | _ + 1, [] => none
  | n + 1, c :: cs =>
    if c.utf8Size ≤ n + 1 then (cut? (n + 1 - c.utf8Size) cs).map fun p => (c :: p.1, p.2) else none

/-- The text without its last `n` bytes. -/
def cutEnd? (n : Nat) (cs : List Char) : Option (List Char) :=
  if n ≤ byteLength cs then (cut? (byteLength cs - n) cs).map Prod.fst else none

theorem byteLength_cons (c : Char) (cs : List Char) :
    byteLength (c :: cs) = c.utf8Size + byteLength cs := by
  have hfold : ∀ (cs : List Char) (m : Nat),
      cs.foldl (fun n c => n + c.utf8Size) m = m + cs.foldl (fun n c => n + c.utf8Size) 0 := by
    intro cs
    induction cs with
    | nil => exact fun _ => rfl
    | cons d cs ih =>
      intro m
      rw [List.foldl_cons, List.foldl_cons, ih, ih (0 + d.utf8Size)]
      omega
  rw [byteLength, List.foldl_cons, hfold, Nat.zero_add, byteLength]

theorem byteLength_append (front back : List Char) :
    byteLength (front ++ back) = byteLength front + byteLength back := by
  induction front with
  | nil => simp [byteLength]
  | cons c front ih => rw [List.cons_append, byteLength_cons, byteLength_cons, ih, Nat.add_assoc]

theorem cut?_append (front back : List Char) :
    cut? (byteLength front) (front ++ back) = some (front, back) := by
  induction front with
  | nil => cases back <;> rfl
  | cons c front ih =>
    obtain ⟨k, hk⟩ : ∃ k, c.utf8Size = k + 1 := Nat.exists_eq_add_one.mpr c.utf8Size_pos
    have hbytes : byteLength (c :: front) = byteLength front + k + 1 := by
      rw [byteLength_cons, hk]
      omega
    have hrest : byteLength front + k + 1 - c.utf8Size = byteLength front := by omega
    rw [hbytes, List.cons_append, cut?, if_pos (by omega), hrest, ih]
    rfl

theorem eq_append_of_cut? (h : cut? n cs = some (front, back)) :
    cs = front ++ back ∧ byteLength front = n := by
  induction cs generalizing n front with
  | nil =>
    cases n with
    | zero =>
      cases h
      exact ⟨rfl, rfl⟩
    | succ n => cases h
  | cons c cs ih =>
    cases n with
    | zero =>
      cases h
      exact ⟨rfl, rfl⟩
    | succ n =>
      rw [cut?] at h
      split at h
      · next hfits =>
        obtain ⟨⟨f, b⟩, hcut, heq⟩ := Option.map_eq_some_iff.mp h
        cases heq
        obtain ⟨rfl, hf⟩ := ih hcut
        refine ⟨rfl, ?_⟩
        rw [byteLength_cons, hf]
        omega
      · cases h

/-- A text can be cut just where one of its characters begins, or at its end. -/
theorem isSome_cut?_iff {text : String} :
    (cut? n text.toList).isSome = true ↔ (⟨n⟩ : String.Pos.Raw).IsValid text := by
  have hsize : ∀ front : List Char, (String.ofList front).utf8ByteSize = byteLength front := by
    intro front
    induction front with
    | nil => rfl
    | cons c front ih =>
      rw [byteLength_cons, ← ih, String.ofList_cons, String.utf8ByteSize_append,
        String.utf8ByteSize_singleton]
  rw [String.Pos.Raw.isValid_iff_exists_append, Option.isSome_iff_exists]
  constructor
  · rintro ⟨⟨front, back⟩, hcut⟩
    obtain ⟨htext, hfront⟩ := eq_append_of_cut? hcut
    refine ⟨String.ofList front, String.ofList back, ?_, ?_⟩
    · rw [← String.toList_inj, htext]
      simp
    · rw [← hfront, ← hsize]
      rfl
  · rintro ⟨front, back, rfl, hn⟩
    refine ⟨(front.toList, back.toList), ?_⟩
    have hn : n = byteLength front.toList := by
      rw [← hsize, String.ofList_toList]
      exact congrArg String.Pos.Raw.byteIdx hn
    rw [String.toList_append, hn, cut?_append]

/-! Cuts next to characters of ASCII. -/

theorem ascii_of_toLower (h : c.toLower.toNat < 128) : c.toNat < 128 := by
  by_cases hupper : c.isUpper = true
  · exact ascii_of_isAlphanum (isAlphanum_of_isUpper hupper)
  · rwa [toLower_of_not_isUpper hupper] at h

theorem cutEnd?_append (hback : ∀ c ∈ back, c.toNat < 128) :
    cutEnd? back.length (front ++ back) = some front := by
  have hbytes : byteLength (front ++ back) = byteLength front + back.length := by
    rw [byteLength_append, byteLength_ascii hback]
  rw [cutEnd?, hbytes, if_pos (Nat.le_add_left _ _), Nat.add_sub_cancel, cut?_append]
  rfl

/-- An ending of letters can be cut off, or any part of it. -/
theorem cutEnd?_of_endsIn {ending : String} (h : endsIn ending word = true)
    (hending : ∀ c ∈ ending.toList, c.isAlphanum = true) (hn : n ≤ ending.toList.length) :
    cutEnd? n word = some (dropLast n word) := by
  obtain ⟨start, hstart⟩ := List.isSuffixOf_iff_suffix.mp h
  have hlength : start.length + ending.toList.length = word.length := by
    rw [← List.length_append, hstart, lowered, List.length_map]
  have hback : ∀ c ∈ word.drop (word.length - n), c.toNat < 128 := by
    intro c hc
    have hlow : c.toLower ∈ (lowered word).drop (word.length - n) := by
      rw [lowered, ← List.map_drop]
      exact List.mem_map_of_mem hc
    rw [← hstart, List.drop_append, List.drop_of_length_le (by omega), List.nil_append] at hlow
    exact ascii_of_toLower (ascii_of_isAlphanum (hending _ (List.mem_of_mem_drop hlow)))
  have hcut : cutEnd? (word.drop (word.length - n)).length
      (word.take (word.length - n) ++ word.drop (word.length - n)) = some (dropLast n word) :=
    cutEnd?_append hback
  rwa [List.take_append_drop, List.length_drop, Nat.sub_sub_self (by omega)] at hcut

/-- An abbreviation at the front of a word can be cut off. -/
theorem cut?_of_startsWith {a : List Char} (h : a.isPrefixOf (lowered word) = true)
    (ha : ∀ c ∈ a, c.isAlphanum = true) :
    cut? (byteLength a) word = some (word.take a.length, word.drop a.length) := by
  obtain ⟨rest, hrest⟩ := List.isPrefixOf_iff_prefix.mp h
  have hlow : lowered (word.take a.length) = a := by
    rw [lowered, List.map_take, ← lowered, ← hrest, List.take_left']
    rfl
  have hlength : (word.take a.length).length = a.length := by
    simpa [lowered] using congrArg List.length hlow
  have htake : ∀ c ∈ word.take a.length, c.toNat < 128 := by
    intro c hc
    refine ascii_of_toLower (ascii_of_isAlphanum (ha _ ?_))
    rw [← hlow]
    exact List.mem_map_of_mem hc
  have hbytes : byteLength (word.take a.length) = byteLength a := by
    rw [byteLength_ascii htake, hlength, byteLength_ascii fun c hc => ascii_of_isAlphanum (ha c hc)]
  rw [← hbytes]
  conv => lhs; arg 2; rw [← List.take_append_drop a.length word]
  exact cut?_append _ _

/-! Names derived with cuts. -/

/-- The singular of a word, with endings cut off by bytes. -/
def singularCut? (word : List Char) : Option (List Char) :=
  if singularWords.contains (String.ofList (lowered word)) || endsIn "ss" word || endsIn "us" word
  then some word
  else if endsIn "ies" word && byteLength word > 3 then (cutEnd? 3 word).map (· ++ ['y'])
  else if (endsIn "sses" word || endsIn "xes" word) && byteLength word > 3 then cutEnd? 2 word
  else if endsIn "s" word && byteLength word > 1 then cutEnd? 1 word
  else some word

/-- A word of a type name, with the abbreviation at its front cut off by bytes. -/
def typeWordCut? (word : List Char) : Option (List Char) :=
  if byteLength word ≤ 3 then some (word.map Char.toUpper)
  else
    match acronyms.find? fun a => a.isPrefixOf (lowered word) with
    | some a => (cut? (byteLength a) word).map fun p => a.map Char.toUpper ++ capitalize p.2
    | none => some (capitalize word)

/-- The type name, unless a cut fails or deriving it takes more than `depth` calls within each other:
the name of several segments is put together from the names of each. -/
def typeNameWithin? : Nat → List Char → Option (List Char)
  | 0, _ => none
  | depth + 1, name =>
    match segments (dropDollars name) with
    | [] => some []
    | [word] => (singularCut? word).bind typeWordCut?
    | words => (words.mapM (typeNameWithin? depth)).map List.flatten

theorem singularCut?_eq (word : List Char) : singularCut? word = some (singular word) := by
  rw [singularCut?, singular]
  split
  · rfl
  split
  · next h =>
    have hending := (Bool.and_eq_true_iff.mp h).1
    rw [cutEnd?_of_endsIn hending (by simp) (by decide)]
    rfl
  split
  · next h =>
    rcases Bool.or_eq_true_iff.mp (Bool.and_eq_true_iff.mp h).1 with hending | hending
    · exact cutEnd?_of_endsIn hending (by simp) (by decide)
    · exact cutEnd?_of_endsIn hending (by simp) (by decide)
  split
  · next h =>
    exact cutEnd?_of_endsIn (Bool.and_eq_true_iff.mp h).1 (by simp) (by decide)
  · rfl

theorem typeWordCut?_eq (word : List Char) : typeWordCut? word = some (typeWord word) := by
  have hletters : ∀ a ∈ acronyms, ∀ c ∈ a, c.isAlphanum = true := by simp [acronyms]
  rw [typeWordCut?, typeWord]
  split
  · rfl
  · cases hfind : acronyms.find? fun a => a.isPrefixOf (lowered word) with
    | none => rfl
    | some a =>
      have hstart : a.isPrefixOf (lowered word) = true :=
        List.find?_some (p := fun a : List Char => a.isPrefixOf (lowered word)) hfind
      simp only [cut?_of_startsWith hstart (hletters a (List.mem_of_find?_eq_some hfind)), Option.map_some]

theorem mapM_eq_some {α β : Type} {f : α → Option β} {g : α → β} {as : List α}
    (h : ∀ a ∈ as, f a = some (g a)) : as.mapM f = some (as.map g) := by
  induction as with
  | nil => rfl
  | cons a as ih =>
    obtain ⟨ha, has⟩ := List.forall_mem_cons.mp h
    simp [ha, ih has]

/-- No segment has segments of its own. -/
theorem typeNameWithin?_segment {segment : List Char} (h : ∀ c ∈ segment, isSeparator c = false)
    (depth : Nat) : typeNameWithin? (depth + 1) segment = some (segmentName segment) := by
  have hrest : ∀ c ∈ dropDollars segment, isSeparator c = false :=
    fun c hc => h c ((List.dropWhile_sublist _).subset hc)
  rw [typeNameWithin?, segmentName]
  cases hword : dropDollars segment with
  | nil => rfl
  | cons c rest =>
    rw [hword] at hrest
    have hone : segments (c :: rest) = [c :: rest] := by
      rw [segments, List.splitOnP_eq_singleton hrest]
      rfl
    simp only [hone, singularCut?_eq, Option.bind_some, typeWordCut?_eq]

theorem typeNameWithin?_eq (depth : Nat) (name : List Char) :
    typeNameWithin? (depth + 2) name = some (typeLetters name) := by
  have hsegment : ∀ w ∈ segments (dropDollars name),
      typeNameWithin? (depth + 1) w = some (segmentName w) := by
    intro w hw
    refine typeNameWithin?_segment (fun c hc => ?_) depth
    have hmem := List.mem_flatten_of_mem hw hc
    rw [flatten_segments, List.mem_filter] at hmem
    simpa using hmem.2
  rw [typeNameWithin?, typeLetters]
  split
  · next hnone =>
    rw [hnone]
    rfl
  · next word hword => simp only [hword, singularCut?_eq, Option.bind_some, typeWordCut?_eq]
  · next words _ hmany =>
    rw [mapM_eq_some hsegment, Option.map_some, ← List.flatMap_def]
    split
    · next word hword => exact absurd hword (hmany word)
    · rfl

/-! Names put together. -/

/-- Letters, digits and separators, and nothing else. -/
def IsParted (name : String) : Prop :=
  ∀ c ∈ name.toList, c.isAlphanum = true ∨ isSeparator c = true

theorem IsParted.dollar {name : String} (h : IsParted name) : '$' ∉ name.toList :=
  fun hdollar => absurd (h _ hdollar) (by decide)

theorem IsParted.isPlain {name : String} (h : IsParted name) : isPlain name = true := by
  rw [Naming.isPlain, List.all_eq_true]
  intro c hc
  rw [Bool.or_eq_true]
  exact h c ((List.dropWhile_sublist _).subset hc)

theorem ne_dollar (hc : isSeparator c = true) : '$' ≠ c := by
  rintro rfl
  exact absurd hc (by decide)

theorem segments_append {c : Char} (hc : isSeparator c = true) (front back : List Char) :
    segments (front ++ c :: back) = segments front ++ segments back := by
  rw [segments, List.splitOnP_append_cons _ _ hc, List.filter_append, segments, segments]

theorem dropDollars_of_not_mem (h : '$' ∉ name) : dropDollars name = name := by
  cases name with
  | nil => rfl
  | cons c rest =>
    have hc : c ≠ '$' := fun heq => h (heq ▸ List.mem_cons_self)
    rw [dropDollars, List.dropWhile_cons_of_neg (by simpa using hc)]

theorem typeLetters_of_not_mem (h : '$' ∉ name) :
    typeLetters name = (segments name).flatMap fun w => typeWord (singular w) := by
  have hdrop := dropDollars_of_not_mem h
  rw [typeLetters_eq_flatMap (by rwa [hdrop]), hdrop]

/-- Without dollar signs, whatever the characters are, a separator is where two names meet. -/
theorem typeName_append_separator {a b : String} {c : Char} (ha : '$' ∉ a.toList)
    (hb : '$' ∉ b.toList) (hc : isSeparator c = true) :
    typeName (a ++ String.singleton c ++ b) = typeName a ++ typeName b := by
  have hdollar : '$' ∉ a.toList ++ c :: b.toList := by simp [ha, hb, ne_dollar hc]
  have hwhole : (a ++ String.singleton c ++ b).toList = a.toList ++ c :: b.toList := by simp
  rw [← String.toList_inj, String.toList_append]
  simp only [typeName, String.toList_ofList]
  rw [hwhole, typeLetters_of_not_mem hdollar, typeLetters_of_not_mem ha, typeLetters_of_not_mem hb,
    segments_append hc, List.flatMap_append]

/-- Every type name is found with two calls within each other at most, and no cut on the way to it fails.
That of letters, digits and separators, of which not all are separators, is made of letters and digits,
and begins with no lower-case letter. Parts on both sides of a separator are named each for itself, so
that it matters neither which separators there are, nor how many in a row, nor those at the ends. -/
theorem typeName_shape :
    (∀ (property : String) (depth : Nat),
      typeNameWithin? (depth + 2) property.toList = some (typeName property).toList) ∧
    (∀ name, IsParted name → (∃ c ∈ name.toList, c.isAlphanum = true) →
      typeName name ≠ "" ∧ (∀ c ∈ (typeName name).toList, c.isAlphanum = true) ∧
        ∀ c ∈ (typeName name).toList.head?, c.isLower = false) ∧
    ∀ a b c, IsParted a → IsParted b → isSeparator c = true →
      typeName (a ++ String.singleton c ++ b) = typeName a ++ typeName b ∧
      typeName (a ++ String.singleton c) = typeName a ∧ typeName (String.singleton c ++ a) = typeName a ∧
      ∀ d, isSeparator d = true →
        typeName (a ++ String.singleton c ++ String.singleton d ++ b) =
          typeName (a ++ String.singleton c ++ b) ∧
        typeName (a ++ String.singleton d ++ b) = typeName (a ++ String.singleton c ++ b) := by
  refine ⟨fun property depth => ?_, fun name hname hsome => ?_, fun a b c ha hb hc => ?_⟩
  · rw [typeNameWithin?_eq, typeName, String.toList_ofList]
  · obtain ⟨c, hc, halphanum⟩ := hsome
    have hletters : ∀ c ∈ (typeName name).toList, c.isAlphanum = true := by
      rw [typeName, String.toList_ofList]
      exact isAlphanum_typeLetters hname.isPlain
    refine ⟨?_, hletters, fun d hd => ?_⟩
    · obtain ⟨d, hfind⟩ := Option.isSome_iff_exists.mp (List.find?_isSome.mpr ⟨c, hc, halphanum⟩)
      have hhead := head_typeLetters hname.isPlain
      rw [hfind] at hhead
      rintro hnone
      rw [typeName, String.ofList_eq_empty_iff] at hnone
      rw [hnone] at hhead
      cases hhead
    · obtain ⟨ws, hws⟩ := typeLetters_eq name.toList
      rw [typeName, String.toList_ofList, hws] at hd
      exact head_flatMap_typeWord hd
  · -- A separator at an end stands next to the empty name.
    have hempty : '$' ∉ "".toList := by simp
    have hnone : typeName "" = "" := by decide
    have hback := typeName_append_separator ha.dollar hempty hc
    have hfront := typeName_append_separator hempty ha.dollar hc
    have hboth : ∀ {d}, isSeparator d = true →
        typeName (a ++ String.singleton d ++ b) = typeName a ++ typeName b :=
      typeName_append_separator ha.dollar hb.dollar
    rw [hnone, String.append_empty, String.append_empty] at hback
    rw [hnone, String.empty_append, String.empty_append] at hfront
    refine ⟨hboth hc, hback, hfront, fun d hd => ⟨?_, (hboth hd).trans (hboth hc).symm⟩⟩
    have hdollar : '$' ∉ (a ++ String.singleton c).toList := by
      simp [ha.dollar, ne_dollar hc]
    rw [typeName_append_separator hdollar hb.dollar hd, hback, hboth hc]

/-- The cut that takes the plural off stands behind a character of two bytes. -/
example : typeNameWithin? 2 "$node-größes".toList = some "NodeGröße".toList ∧
    typeName "_node..größes-" = "NodeGröße" := by decide

end SchemaCompiler.Naming
