import SchemaCompiler.Proofs.Import.ObjectName
import SchemaCompiler.Proofs.Naming.Field
import SchemaCompiler.Proofs.Naming.Type

/-! Which names are identifiers of the emitted language. The names of fields and modules are just where a
letter comes before any digit, and the names of objects depend on that only where nothing stands in front
of what comes of their own property. -/

namespace SchemaCompiler.Naming

/-- A name that the emitted language admits: letters, digits and underscores of ASCII with no digit at the
front, unless they are a single underscore or a word with another use. -/
def isIdentifier (name : String) : Bool :=
  name.toList.head?.any (fun c => c.isAlpha || c == '_') &&
    name.toList.all (fun c => c.isAlphanum || c == '_') &&
      name != "_" && name != "Self" && !isReserved name

/-- Whether `name` has a letter, and no digit before it. -/
def beginsWithLetter (name : String) : Bool :=
  (name.toList.find? (·.isAlphanum)).any (·.isAlpha)

theorem isIdentifier_iff {name : String} : isIdentifier name = true ↔
    (∃ c ∈ name.toList.head?, c.isAlpha = true ∨ c = '_') ∧ (∀ c ∈ name.toList, IsModuleChar c) ∧
      name ≠ "_" ∧ name ≠ "Self" ∧ isReserved name = false := by
  simp [isIdentifier, Option.any_eq_true, IsModuleChar, and_assoc]

/-- Reserved words are lower-case letters. -/
theorem reserved_lower {name : String} (h : isReserved name = true) :
    ∃ c rest, name.toList = c :: rest ∧ c.isLower = true ∧ ∀ d ∈ rest, d.isLower = true := by
  have hall : (reservedWords.all fun w => !w.toList.isEmpty && w.toList.all (·.isLower)) = true := by
    decide
  have hname := List.all_eq_true.mp hall name (by simpa [isReserved] using h)
  rw [Bool.and_eq_true, List.all_eq_true] at hname
  have hne : name.toList ≠ [] := by simpa using hname.1
  obtain ⟨c, rest, heq⟩ := List.exists_cons_of_ne_nil hne
  rw [heq] at hname
  exact ⟨c, rest, heq, List.forall_mem_cons.mp hname.2⟩

theorem not_reserved_of_mem {name : String} {c : Char} (hc : c ∈ name.toList)
    (hlower : c.isLower = false) : isReserved name = false := by
  rw [← Bool.not_eq_true]
  intro h
  obtain ⟨d, rest, heq, hd, hrest⟩ := reserved_lower h
  have hall : ∀ d ∈ name.toList, d.isLower = true := heq ▸ List.forall_mem_cons.mpr ⟨hd, hrest⟩
  rw [hall c hc] at hlower
  cases hlower

/-! Names in lower case. -/

/-- Lower-case letters that step aside by an underscore where they are a reserved word. -/
theorem isIdentifier_lower {cs : List Char} {marked : Bool} (hchars : ∀ c ∈ cs, IsModuleChar c)
    (hhead : ∀ c ∈ cs.head?, c.isAlphanum = true ∧ c.isUpper = false)
    (hmarked : marked = false → isReserved (String.ofList cs) = false) :
    isIdentifier (String.ofList (cs ++ if marked then ['_'] else [])) = cs.head?.any (·.isAlpha) := by
  cases cs with
  | nil => cases marked <;> decide
  | cons c rest =>
    obtain ⟨halphanum, hupper⟩ := hhead c rfl
    have hne : c ≠ '_' := ne_underscore halphanum
    rw [Bool.eq_iff_iff, isIdentifier_iff, String.toList_ofList]
    constructor
    · rintro ⟨⟨d, hd, hbegins⟩, -⟩
      obtain rfl := Option.some.inj hd
      exact hbegins.resolve_right hne
    · intro halpha
      refine ⟨⟨c, rfl, .inl halpha⟩, fun d hd => ?_, ?_, ?_, ?_⟩
      · rcases List.mem_append.mp hd with hd | hd
        · exact hchars d hd
        · cases marked
          · cases hd
          · exact .inr (List.mem_singleton.mp hd)
      · intro heq
        have hlist := congrArg String.toList heq
        rw [String.toList_ofList] at hlist
        exact hne (List.cons.inj hlist).1
      · intro heq
        have hlist := congrArg String.toList heq
        rw [String.toList_ofList] at hlist
        rw [(List.cons.inj hlist).1] at hupper
        revert hupper
        decide
      · cases marked with
        | false => simpa using hmarked rfl
        | true => exact not_reserved_of_mem (c := '_') (by simp) (by decide)

theorem mem_spellWords {ws : List (List Char)} {c : Char} (h : c ∈ spellWords ws) :
    c = '_' ∨ c ∈ ws.flatten := by
  cases ws using List.reverseRecOn with
  | nil => cases h
  | append_singleton ws w =>
    rw [spellWords, intercalate_concat] at h
    simp only [List.mem_append, List.mem_flatMap, List.mem_singleton] at h
    rcases h with ⟨v, hv, hc | hc⟩ | hc
    · exact .inr (List.mem_flatten_of_mem (List.mem_append_left _ hv) hc)
    · exact .inl hc
    · exact .inr (List.mem_flatten_of_mem (by simp) hc)

theorem head_spellWords (cs : List Char) :
    (spellWords (words cs)).head? = (cs.find? (·.isAlphanum)).map Char.toLower := by
  have hhead : (spellWords (words cs)).head? = (words cs).flatten.head? := by
    cases hws : words cs with
    | nil => rfl
    | cons w ws =>
      obtain ⟨c, rest, rfl⟩ := List.exists_cons_of_ne_nil (word_ne_nil (hws ▸ List.mem_cons_self))
      cases ws <;> simp [spellWords]
  rw [hhead, flatten_words, List.head?_map, List.head?_filter]

/-- The name of a field is an identifier just where its property has a letter before any digit. -/
theorem isIdentifier_fieldName (property : String) :
    isIdentifier (fieldName property) = beginsWithLetter property := by
  have hhead := head_spellWords property.toList
  rw [fieldName_eq, isIdentifier_lower, hhead, beginsWithLetter]
  · cases hfind : property.toList.find? (·.isAlphanum) with
    | none => rfl
    | some c => simp [isAlpha_toLower (List.find?_some hfind)]
  · intro c hc
    rcases mem_spellWords hc with rfl | hc
    · exact .inr rfl
    · rw [flatten_words, List.mem_map] at hc
      obtain ⟨d, hd, rfl⟩ := hc
      exact .inl (isAlphanum_toLower (List.mem_filter.mp hd).2)
  · intro c hc
    rw [hhead] at hc
    obtain ⟨d, hd, rfl⟩ := Option.map_eq_some_iff.mp hc
    have halphanum := List.find?_some hd
    exact ⟨isAlphanum_toLower halphanum, not_isUpper_toLower halphanum⟩
  · intro hmarked
    exact (Bool.or_eq_false_iff.mp hmarked).2

/-! Module names. -/

theorem filter_moduleLetters (cs written : List Char) :
    (moduleLetters cs written).filter (·.isAlphanum) =
      ((cs.filter (·.isAlphanum)).map Char.toLower).reverse ++ written.filter (·.isAlphanum) := by
  induction cs generalizing written with
  | nil => rfl
  | cons c rest ih =>
    rw [moduleLetters]
    split
    · next hc =>
      rw [ih, List.filter_cons_of_pos (isAlphanum_toLower hc), List.filter_cons_of_pos hc]
      simp
    · next hc =>
      rw [List.filter_cons_of_neg hc]
      split
      · exact ih written
      · rw [ih, List.filter_cons_of_neg (by simp [not_alphanum_underscore])]

theorem filter_dropUnderscores (cs : List Char) :
    (dropUnderscores cs).filter (·.isAlphanum) = cs.filter (·.isAlphanum) := by
  induction cs with
  | nil => rfl
  | cons c cs ih =>
    rw [dropUnderscores]
    by_cases hc : c = '_'
    · rw [hc, List.dropWhile_cons_of_pos (by simp),
        List.filter_cons_of_neg (by simp [not_alphanum_underscore])]
      exact ih
    · rw [List.dropWhile_cons_of_neg (by simpa using hc)]

/-- Behind its leading underscores a name begins with the first of its letters and digits. -/
theorem head_dropUnderscores {cs : List Char} (h : ∀ c ∈ cs, IsModuleChar c) :
    (dropUnderscores cs).head? = (cs.filter (·.isAlphanum)).head? := by
  induction cs with
  | nil => rfl
  | cons c cs ih =>
    obtain ⟨hc, hcs⟩ := List.forall_mem_cons.mp h
    rw [dropUnderscores]
    rcases hc with hc | rfl
    · rw [List.dropWhile_cons_of_neg (by simpa using ne_underscore hc), List.filter_cons_of_pos hc]
      rfl
    · rw [List.dropWhile_cons_of_pos (by simp),
        List.filter_cons_of_neg (by simp [not_alphanum_underscore])]
      exact ih hcs

/-- The name of a module is an identifier just where its group and version have a letter before any
digit. -/
theorem isIdentifier_moduleName (group : String) (version : Option String) :
    isIdentifier (moduleName group version) = beginsWithLetter (group ++ version.getD "") := by
  obtain ⟨full, hfull, hname⟩ : ∃ full : List Char,
      full.filter (·.isAlphanum) = (group ++ version.getD "").toList.filter (·.isAlphanum) ∧
        moduleName group version = stepAside (String.ofList
          (dropUnderscores (dropUnderscores (moduleLetters full [])).reverse)) := by
    cases version with
    | none => exact ⟨group.toList, by simp, rfl⟩
    | some v => exact ⟨(group ++ "_" ++ v).toList, by simp [not_alphanum_underscore], rfl⟩
  have hletters : ∀ c ∈ (dropUnderscores (moduleLetters full [])).reverse, IsModuleChar c := by
    intro c hc
    rw [List.mem_reverse] at hc
    exact isModuleChar_moduleLetters (by simp) c ((List.dropWhile_sublist _).subset hc)
  have hchars : ∀ c ∈ dropUnderscores (dropUnderscores (moduleLetters full [])).reverse,
      IsModuleChar c :=
    fun c hc => hletters c ((List.dropWhile_sublist _).subset hc)
  have hhead : (dropUnderscores (dropUnderscores (moduleLetters full [])).reverse).head? =
      (full.filter (·.isAlphanum)).head?.map Char.toLower := by
    rw [head_dropUnderscores hletters, List.filter_reverse, filter_dropUnderscores, filter_moduleLetters,
      ← List.head?_map]
    simp
  rw [hname, stepAside_eq, isIdentifier_lower hchars, hhead, hfull, List.head?_filter, beginsWithLetter]
  · cases hfind : (group ++ version.getD "").toList.find? (·.isAlphanum) with
    | none => rfl
    | some c => simp [isAlpha_toLower (List.find?_some hfind)]
  · intro c hc
    rw [hhead] at hc
    obtain ⟨d, hd, rfl⟩ := Option.map_eq_some_iff.mp hc
    have halphanum := (List.mem_filter.mp (List.mem_of_mem_head? hd)).2
    exact ⟨isAlphanum_toLower halphanum, not_isUpper_toLower halphanum⟩
  · exact fun h => h

/-! Names of objects. -/

/-- A number behind a name makes no word that has another use. -/
theorem isIdentifier_numbered (short : String) (n : Nat) :
    isIdentifier (short ++ Nat.repr n) = true ↔
      (∃ c ∈ short.toList.head?, c.isAlpha = true ∨ c = '_') ∧ ∀ c ∈ short.toList, IsModuleChar c := by
  obtain ⟨d, ds, hrepr, hdigits⟩ := exists_digit_repr n
  have hd := hdigits d List.mem_cons_self
  have hmem : d ∈ (short ++ Nat.repr n).toList := by simp [hrepr]
  rw [isIdentifier_iff, String.toList_append]
  constructor
  · rintro ⟨⟨c, hc, hbegins⟩, hchars, -⟩
    refine ⟨?_, fun c hc => hchars c (List.mem_append_left _ hc)⟩
    cases hshort : short.toList with
    | nil =>
      rw [hshort, hrepr] at hc
      obtain rfl := Option.some.inj hc
      rcases hbegins with halpha | rfl
      · cases (not_isAlpha_of_isDigit hd).symm.trans halpha
      · exact absurd hd (by decide)
    | cons e es =>
      rw [hshort] at hc
      exact ⟨c, hc, hbegins⟩
  · rintro ⟨⟨c, hc, hbegins⟩, hchars⟩
    refine ⟨⟨c, ?_, hbegins⟩, fun e he => ?_, ?_, ?_, ?_⟩
    · rw [List.head?_append, hc]
      rfl
    · rcases List.mem_append.mp he with he | he
      · exact hchars e he
      · rw [hrepr] at he
        exact .inl (isAlphanum_of_isDigit (hdigits e he))
    · intro heq
      rw [heq] at hmem
      rw [List.mem_singleton.mp hmem] at hd
      exact absurd hd (by decide)
    · intro heq
      rw [heq] at hmem
      have hself : ∀ e ∈ "Self".toList, e.isDigit = false := by simp
      cases (hself d hmem).symm.trans hd
    · refine not_reserved_of_mem hmem ?_
      have halpha := not_isAlpha_of_isDigit hd
      exact (Bool.or_eq_false_iff.mp halpha).2

/-- What properties put behind an identifier does not keep it from being one. -/
theorem isIdentifier_append {root : String} (hroot : isIdentifier root = true) {own : String}
    {ws : List (List Char)} (hws : own.toList = ws.flatMap typeWord)
    (hown : ∀ c ∈ own.toList, c.isAlphanum = true) : isIdentifier (root ++ own) = true := by
  obtain ⟨⟨c, hc, hbegins⟩, hchars, hunderscore, hself, hreserved⟩ := isIdentifier_iff.mp hroot
  have hne : root.toList ≠ [] := by
    intro hnil
    rw [hnil] at hc
    cases hc
  have hstart : ∀ (d : Char) (rest : List Char), (∀ e ∈ rest, e.isLower = true) →
      (root ++ own).toList = d :: rest → root = root ++ own := by
    intro d rest hrest heq
    have hsplit := heq
    rw [String.toList_append, hws] at hsplit
    have hroot := (append_words_eq hrest hsplit).resolve_right fun h => hne h.1
    rw [← String.toList_inj, hroot, heq]
  rw [isIdentifier_iff]
  refine ⟨⟨c, ?_, hbegins⟩, fun e he => ?_, fun heq => ?_, fun heq => ?_, ?_⟩
  · rw [String.toList_append, List.head?_append, hc]
    rfl
  · rw [String.toList_append] at he
    rcases List.mem_append.mp he with he | he
    · exact hchars e he
    · exact .inl (hown e he)
  · refine hunderscore ((hstart '_' [] (by simp) ?_).trans heq)
    rw [heq]
    rfl
  · refine hself ((hstart 'S' ['e', 'l', 'f'] (by simp) ?_).trans heq)
    rw [heq]
    rfl
  · rw [← Bool.not_eq_true]
    intro h
    obtain ⟨d, rest, heq, -, hrest⟩ := reserved_lower h
    rw [hstart d rest hrest heq, h] at hreserved
    cases hreserved

/-- A full name is the root's with words behind it. -/
theorem longName_eq (root : String) (path : List String) : ∃ (own : String) (ws : List (List Char)),
    longName root path = root ++ own ∧ own.toList = ws.flatMap typeWord ∧
      ((∀ property ∈ path, isPlain property = true) → ∀ c ∈ own.toList, c.isAlphanum = true) := by
  induction path with
  | nil => exact ⟨"", [], by simp [longName], rfl, by simp⟩
  | cons property path ih =>
    obtain ⟨own, ws, hlong, hws, hchars⟩ := ih
    obtain ⟨vs, hvs⟩ := typeLetters_eq property.toList
    refine ⟨own ++ typeName property, ws ++ vs, ?_, ?_, fun hplain => ?_⟩
    · rw [longName, hlong, String.append_assoc]
    · rw [String.toList_append, typeName, String.toList_ofList, hws, hvs, List.flatMap_append]
    · obtain ⟨hproperty, hpath⟩ := List.forall_mem_cons.mp hplain
      rw [String.toList_append, typeName, String.toList_ofList]
      intro c hc
      rcases List.mem_append.mp hc with hc | hc
      · exact hchars hpath c hc
      · exact isAlphanum_typeLetters hproperty c hc

section Object

variable {root property : String} {above : List String}

theorem isIdentifier_longName (hroot : isIdentifier root = true) {path : List String}
    (hpath : ∀ p ∈ path, isPlain p = true) : isIdentifier (longName root path) = true := by
  obtain ⟨own, ws, hlong, hws, hchars⟩ := longName_eq root path
  rw [hlong]
  exact isIdentifier_append hroot hws (hchars hpath)

theorem begins_typeName (h : isPlain property = true) :
    (∃ c ∈ (typeName property).toList.head?, c.isAlpha = true ∨ c = '_') ↔
      beginsWithLetter property = true := by
  rw [typeName, String.toList_ofList, head_typeLetters h, beginsWithLetter]
  cases hfind : property.toList.find? (·.isAlphanum) with
  | none => simp
  | some c =>
    have halphanum := List.find?_some hfind
    have hne : c.toUpper ≠ '_' := ne_underscore (isAlphanum_toUpper halphanum)
    simp [hne, isAlpha_toUpper halphanum]

theorem isIdentifier_typeName (h : isPlain property = true) : isIdentifier (typeName property) = true ↔
    beginsWithLetter property = true ∧ typeName property ≠ "Self" := by
  have hchars : ∀ c ∈ (typeName property).toList, c.isAlphanum = true := by
    rw [typeName, String.toList_ofList]
    exact isAlphanum_typeLetters h
  rw [isIdentifier_iff, begins_typeName h]
  constructor
  · rintro ⟨hbegins, -, -, hself, -⟩
    exact ⟨hbegins, hself⟩
  · rintro ⟨hbegins, hself⟩
    refine ⟨hbegins, fun c hc => .inl (hchars c hc), ?_, hself, ?_⟩
    · exact fun heq => ne_underscore (hchars '_' (heq ▸ List.mem_singleton_self _)) rfl
    · -- The first letter is a capital, which no reserved word has.
      rw [beginsWithLetter, Option.any_eq_true] at hbegins
      obtain ⟨c, hc, halpha⟩ := hbegins
      refine not_reserved_of_mem (c := c.toUpper) (List.mem_of_mem_head? ?_)
        (not_isLower_toUpper c)
      rw [typeName, String.toList_ofList, head_typeLetters h, hc]
      rfl

/-- The name that is chosen for an object is an identifier if what comes of the property stands behind
another name, and else just where the property has a letter before any digit, except for one word. -/
theorem isIdentifier_chosen {name : String} (hroot : isIdentifier root = true)
    (hpath : ∀ p ∈ property :: above, isPlain p = true)
    (h : Choice (shortName root (property :: above)) (longName root (property :: above)) name) :
    isIdentifier name = true ↔ above = [] ∨ name = longName root (property :: above) ∨
      beginsWithLetter property = true ∧ name ≠ "Self" := by
  have hlong := isIdentifier_longName hroot hpath
  have hproperty := hpath property List.mem_cons_self
  cases above with
  | nil =>
    -- Directly under the type the short name is the full one.
    have hname : isIdentifier name = true := by
      cases h with
      | short | long => exact hlong
      | numbered n =>
        obtain ⟨hbegins, hchars, -⟩ := isIdentifier_iff.mp hlong
        exact (isIdentifier_numbered _ _).mpr ⟨hbegins, hchars⟩
    simp [hname]
  | cons p above =>
    have hof : name = longName root (property :: p :: above) → isIdentifier name = true :=
      fun heq => heq ▸ hlong
    cases h with
    | short =>
      have hshort : shortName root (property :: p :: above) = typeName property := rfl
      rw [hshort, isIdentifier_typeName hproperty] at hof ⊢
      simpa using hof
    | long => simp [hlong]
    | numbered n =>
      have hchars : ∀ c ∈ (typeName property).toList, IsModuleChar c := by
        rw [typeName, String.toList_ofList]
        exact fun c hc => .inl (isAlphanum_typeLetters hproperty c hc)
      constructor
      · intro hname
        have hbegins := ((isIdentifier_numbered _ _).mp hname).1
        exact .inr (.inr ⟨(begins_typeName hproperty).mp hbegins, (isIdentifier_iff.mp hname).2.2.2.1⟩)
      · rintro (hnil | heq | ⟨hbegins, -⟩)
        · cases hnil
        · exact hof heq
        · exact (isIdentifier_numbered _ _).mpr ⟨(begins_typeName hproperty).mpr hbegins, hchars⟩

end Object

end SchemaCompiler.Naming
