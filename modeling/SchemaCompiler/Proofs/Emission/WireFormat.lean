import SchemaCompiler.Proofs.Emission.FieldName
import SchemaCompiler.Proofs.Text.Literal

/-! What emitted structs look like in documents. Read line by line, a struct has one field for each
property of its type, in order; documents have the property's own name for it, and it may be left out
just when the property is not required. -/

namespace SchemaCompiler

namespace Emission

/-- A field as a compiler sees it: the attributes in front of it, and the line that declares it. -/
structure Member where
  attributes : List String
  declaration : String
deriving DecidableEq

def startsWith (line start : String) : Bool := start.toList.isPrefixOf line.toList

/-- The fields in the body of a struct, after the attributes that were read of the first one. -/
def readMembers (attributes : List String) : List String → List Member
  | [] => []
  | line :: rest =>
    if startsWith line "    ///" then readMembers attributes rest
    else if startsWith line "    #[" then readMembers (attributes ++ [line]) rest
    else ⟨attributes, line⟩ :: readMembers [] rest

/-- The lines between the one that opens a struct and the one that closes it. -/
def structBody (lines : List String) : List String :=
  ((lines.dropWhile fun line => !startsWith line "pub struct ").drop 1).takeWhile (· ≠ "\x7d")

def members (lines : List String) : List Member := readMembers [] (structBody lines)

def renameStart : String := "    #[serde(rename = \""

/-- The text of the literal in a line that renames a field. -/
def newName? (line : String) : Option String :=
  (Text.literal .plain (line.toList.drop renameStart.toList.length)).bind fun r =>
    if r.2 = [')', ']'] then some (String.ofList r.1) else none

/-- The name in documents of the field `name`, which can be renamed once. -/
def wireName (name : String) (attributes : List String) : Option String :=
  match attributes.filter (startsWith · renameStart) with
  | [] => some name
  | [line] => newName? line
  | _ => none

/-- What is read of `f` is the property `p` of the type `id`. -/
structure Carries (s : Spelling) (id : TypeId) (p : Property) (f : Member) : Prop where
  name : wireName p.fieldName f.attributes = some p.name
  optional : indented optionalAttribute ∈ f.attributes ↔ p.required = false
  declaration : f.declaration = indented ("pub " ++ p.fieldName ++ ": " ++
    (if p.required then (s.typeText id true p.type).render
      else "Option<" ++ (s.typeText id true p.type).render ++ ">") ++ ",")

/-! Reading the lines of one field. -/

def member (f : Field) : Member :=
  ⟨(fieldAttributes f).map indented, indented ("pub " ++ f.name ++ ": " ++ fieldType f ++ ",")⟩

theorem readMembers_comments (description : Option String) (rest : List String) :
    readMembers [] (commentLines 4 description ++ rest) = readMembers [] rest := by
  cases description with
  | none => rfl
  | some text =>
    rw [commentLines]
    induction Text.lines (Text.trim text.toList) with
    | nil => rfl
    | cons line lines ih =>
      have hcomment : startsWith (commentLine 4 line) "    ///" = true := by
        simp [startsWith, commentLine]
      rw [List.map_cons, List.cons_append, readMembers, if_pos hcomment, ih]

theorem readMembers_attributes (attributes read : List String) (rest : List String)
    (h : ∀ a ∈ attributes, startsWith a "#[" = true) :
    readMembers read (attributes.map indented ++ rest) =
      readMembers (read ++ attributes.map indented) rest := by
  induction attributes generalizing read with
  | nil => simp
  | cons a attributes ih =>
    have hstart := h a List.mem_cons_self
    obtain ⟨chars, hchars⟩ : ∃ chars, a.toList = '#' :: '[' :: chars := by
      obtain ⟨chars, hchars⟩ := List.isPrefixOf_iff_prefix.mp hstart
      exact ⟨chars, hchars.symm⟩
    have hcomment : startsWith (indented a) "    ///" = false := by
      simp [startsWith, indented, hchars, List.isPrefixOf]
    have hattribute : startsWith (indented a) "    #[" = true := by
      simp [startsWith, indented, hchars]
    rw [List.map_cons, List.cons_append, readMembers, hcomment, hattribute]
    simp only [Bool.false_eq_true, if_false, if_true]
    rw [ih _ fun b hb => h b (List.mem_cons_of_mem _ hb), List.append_assoc, List.singleton_append]

theorem startsWith_fieldAttributes (f : Field) : ∀ a ∈ fieldAttributes f, startsWith a "#[" = true := by
  intro a ha
  rcases List.mem_append.mp ha with ha | ha
  · obtain ⟨name, -, rfl⟩ := Option.map_eq_some_iff.mp (Option.mem_toList.mp ha)
    simp [startsWith]
  · split at ha
    · obtain rfl := List.mem_singleton.mp ha
      decide
    · cases ha

theorem readMembers_fieldLines (f : Field) (rest : List String) :
    readMembers [] (fieldLines f ++ rest) = member f :: readMembers [] rest := by
  have hcomment : startsWith (member f).declaration "    ///" = false := by
    simp [startsWith, member, indented, List.isPrefixOf]
  have hattribute : startsWith (member f).declaration "    #[" = false := by
    simp [startsWith, member, indented, List.isPrefixOf]
  rw [fieldLines, List.append_assoc, List.append_assoc, readMembers_comments,
    readMembers_attributes _ _ _ (startsWith_fieldAttributes f), List.nil_append, List.singleton_append]
  change readMembers _ ((member f).declaration :: rest) = _
  rw [readMembers, hcomment, hattribute]
  rfl

theorem readMembers_fields (fields : List Field) :
    readMembers [] (fields.flatMap fieldLines) = fields.map member := by
  induction fields with
  | nil => rfl
  | cons f fields ih => rw [List.flatMap_cons, readMembers_fieldLines, ih, List.map_cons]

/-! The body of a struct among the lines of its item. -/

theorem ne_close_of_mem_fieldLines {f : Field} {line : String} (h : line ∈ fieldLines f) :
    line ≠ "\x7d" := by
  have hblank : ∃ chars, line.toList = ' ' :: chars := by
    rcases List.mem_append.mp h with h | h
    · rcases List.mem_append.mp h with h | h
      · cases hd : f.description with
        | none => simp [hd, commentLines] at h
        | some text =>
          rw [hd, commentLines] at h
          obtain ⟨chars, -, rfl⟩ := List.mem_map.mp h
          simp [commentLine, List.replicate]
      · obtain ⟨a, -, rfl⟩ := List.mem_map.mp h
        simp [indented]
    · obtain rfl := List.mem_singleton.mp h
      simp [indented]
  obtain ⟨chars, hchars⟩ := hblank
  rintro rfl
  simp at hchars

theorem not_startsWith_comment {description : Option String} {line : String}
    (h : line ∈ commentLines 0 description) : startsWith line "pub struct " = false := by
  cases description with
  | none => simp [commentLines] at h
  | some text =>
    obtain ⟨chars, -, rfl⟩ := List.mem_map.mp h
    simp [startsWith, commentLine, List.isPrefixOf]

theorem structBody_itemLines {i : Item} {fields : List Field} {resource : Option ApiResource}
    (hbody : i.body = .record fields resource) :
    structBody (itemLines i) = fields.flatMap fieldLines := by
  let before : List String := "" :: commentLines 0 i.description ++
    ["#[derive(Clone, Debug, Default, PartialEq, Serialize, Deserialize)]"]
  let after : List String := "\x7d" :: (resource.map (resourceLines i.name)).getD []
  have hlines : itemLines i = before ++
      ("pub struct " ++ i.name ++ " \x7b") :: (fields.flatMap fieldLines ++ after) := by
    simp [itemLines, hbody, recordLines, before, after]
  have hbefore : ∀ line ∈ before, (!startsWith line "pub struct ") = true := by
    intro line hline
    rcases List.mem_append.mp hline with hline | hline
    · rcases List.mem_cons.mp hline with rfl | hline
      · decide
      · rw [not_startsWith_comment hline]
        rfl
    · obtain rfl := List.mem_singleton.mp hline
      decide
  have hheader : startsWith ("pub struct " ++ i.name ++ " \x7b") "pub struct " = true := by
    simp [startsWith]
  have hfields : ∀ line ∈ fields.flatMap fieldLines, decide (line ≠ "\x7d") = true := by
    intro line hline
    obtain ⟨f, -, hf⟩ := List.mem_flatMap.mp hline
    exact decide_eq_true (ne_close_of_mem_fieldLines hf)
  rw [structBody, hlines, List.dropWhile_append_of_pos hbefore, List.dropWhile_cons_of_neg,
    List.drop_one, List.tail_cons, List.takeWhile_append_of_pos hfields]
  · simp [after]
  · simp [hheader]

theorem members_itemLines {i : Item} {fields : List Field} {resource : Option ApiResource}
    (hbody : i.body = .record fields resource) : members (itemLines i) = fields.map member := by
  rw [members, structBody_itemLines hbody, readMembers_fields]

/-! The name in documents. -/

def renameLine (name : String) : String := indented ("#[serde(rename = " ++ Text.quoted name ++ ")]")

theorem startsWith_renameLine (name : String) : startsWith (renameLine name) renameStart = true := by
  simp [startsWith, renameLine, indented, renameStart, Text.quoted, List.isPrefixOf]

theorem newName?_renameLine (name : String) : newName? (renameLine name) = some name := by
  have hchars : (renameLine name).toList.drop renameStart.toList.length =
      name.toList.flatMap Text.escaped ++ '"' :: [')', ']'] := by
    simp [renameLine, indented, renameStart, Text.quoted]
  rw [newName?, hchars, Text.literal_escaped, Option.bind_some, if_pos rfl, String.ofList_toList]

theorem startsWith_optionalAttribute : startsWith (indented optionalAttribute) renameStart = false := by
  decide

theorem attributes_member (f : Field) : (member f).attributes = (f.rename.map renameLine).toList ++
    if f.optional then [indented optionalAttribute] else [] := by
  rw [member, fieldAttributes]
  cases f.rename <;> cases f.optional <;> rfl

theorem wireName_member (f : Field) : wireName f.name (member f).attributes = some f.property := by
  have hfilter : (member f).attributes.filter (startsWith · renameStart) =
      (f.rename.map renameLine).toList := by
    rw [attributes_member, List.filter_append]
    cases f.rename <;> cases f.optional <;>
      simp [startsWith_renameLine, startsWith_optionalAttribute]
  rw [wireName, hfilter, Field.property]
  cases f.rename with
  | none => rfl
  | some name => exact newName?_renameLine name

theorem optionalAttribute_mem_iff (f : Field) :
    indented optionalAttribute ∈ (member f).attributes ↔ f.optional = true := by
  have hrename : ∀ name, indented optionalAttribute ≠ renameLine name := by
    intro name he
    have hstart := startsWith_renameLine name
    rw [← he, startsWith_optionalAttribute] at hstart
    cases hstart
  rw [attributes_member]
  cases f.rename <;> cases f.optional <;> simp [hrename]

/-! Fields and properties. -/

theorem carries_field (s : Spelling) (id : TypeId) (p : Property) :
    Carries s id p (member (s.field id p)) where
  name := by
    rw [← s.property_field p id]
    exact wireName_member (s.field id p)
  optional := by
    rw [optionalAttribute_mem_iff]
    simp [Spelling.field]
  declaration := by
    cases hr : p.required <;> simp [member, Spelling.field, fieldType, hr]

variable {m : Model} {apiModule : String} {key : GroupKey} {view : FinalizedGroup} {item : Item}

theorem unlines_append (a b : List String) : unlines (a ++ b) = unlines a ++ unlines b := by
  simp [unlines]

/-- The lines of an item stand in the text of its module. -/
theorem exists_text_around (hview : m.finalized? key = some view)
    (hitem : item ∈ groupItems m apiModule view) {text : String}
    (htext : groupText m apiModule key = .ok text) :
    ∃ front back, text = front ++ unlines (itemLines item) ++ back := by
  obtain ⟨before, after, hsplit⟩ := List.append_of_mem hitem
  obtain ⟨head, hhead⟩ : ∃ head, ∀ items, groupLines key view items =
      head ++ items.flatMap itemLines ++ [""] := ⟨_, fun _ => rfl⟩
  simp only [groupText, hview] at htext
  split at htext
  · cases htext
  · obtain rfl := Except.ok.inj htext
    refine ⟨unlines (head ++ before.flatMap itemLines), unlines (after.flatMap itemLines ++ [""]), ?_⟩
    rw [hhead, hsplit, List.flatMap_append, List.flatMap_cons, ← unlines_append, ← unlines_append]
    simp only [List.append_assoc]

/-- In documents, the fields of a struct are the properties of its type under their own names. -/
theorem structs_carry_properties (hview : m.finalized? key = some view)
    (hitem : item ∈ groupItems m apiModule view) :
    ∃ t, m.types[item.id]? = some t ∧
      ((∀ target, t.kind ≠ .synonym target) →
        List.Forall₂ (Carries (spelling m apiModule view) item.id) t.properties
          (members (itemLines item))) ∧
      ∀ text, groupText m apiModule key = .ok text →
        ∃ front back, text = front ++ unlines (itemLines item) ++ back := by
  obtain ⟨-, t, ht, hitem'⟩ := mem_groupItems.mp hitem
  refine ⟨t, ht, fun hkind => ?_, fun text htext => exists_text_around hview hitem htext⟩
  obtain ⟨resource, hbody⟩ : ∃ resource, item.body =
      .record (t.properties.map ((spelling m apiModule view).field item.id)) resource := by
    rw [hitem', Spelling.itemBody]
    cases hk : t.kind with
    | synonym target => exact absurd hk (hkind target)
    | apiResource info => exact ⟨some info, rfl⟩
    | resource => exact ⟨none, rfl⟩
    | anonymous parent property => exact ⟨none, rfl⟩
  rw [members_itemLines hbody, List.map_map, List.forall₂_map_right_iff]
  exact List.forall₂_same.mpr fun p _ => carries_field _ _ p

/-- A name with a quotation mark in it, one that is a field name already, and an optional one. -/
theorem structs_carry_properties_pod :
    let core : GroupKey := ⟨"core", some "v1"⟩
    let pod : TypeEntry :=
      { name := "Pod", fullName := "Pod", qualified := "core.v1.Pod", group := core, kind := .resource
        properties := [
          { name := "say \"when\"", type := .primitive .string, required := true },
          { name := "spec", type := .primitive .any, required := true },
          { name := "hostIP", type := .primitive .string, required := false }] }
    let view : FinalizedGroup := { types := [0] }
    let m : Model :=
      { types := #[pod]
        groups := [(core, { named := [("Pod", 0)], finalized := some view })]
        index := [⟨core, "core.v1.Pod", 0⟩] }
    let item : Item := ⟨0, "Pod", none, (spelling m "api" view).itemBody 0 pod⟩
    m.finalized? core = some view ∧ item ∈ groupItems m "api" view ∧
      List.Forall₂ (Carries (spelling m "api" view) 0) pod.properties (members (itemLines item)) := by
  intro core pod view m item
  have hview : m.finalized? core = some view := by decide
  have hitem : item ∈ groupItems m "api" view := List.mem_singleton_self item
  obtain ⟨t, ht, hcarries, -⟩ := structs_carry_properties hview hitem
  obtain rfl : pod = t := Option.some.inj ht
  exact ⟨hview, hitem, hcarries fun _ hk => nomatch hk⟩

end Emission

end SchemaCompiler
