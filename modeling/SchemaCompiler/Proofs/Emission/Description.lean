import Mathlib.Data.List.Forall2
import SchemaCompiler.Files.Writing
import SchemaCompiler.Proofs.Emission.ByName
import SchemaCompiler.Proofs.Text.Line

/-! Descriptions in modules. Whatever a description says, it makes comment lines only. They are woven
into the lines that the module has when nothing is described. -/

namespace SchemaCompiler

/-- `cs` has the members of `as` and those of `bs`, each in their order. -/
inductive Woven {α : Type} : List α → List α → List α → Prop
  | nil : Woven [] [] []
  | left {a : α} {as bs cs : List α} (h : Woven as bs cs) : Woven (a :: as) bs (a :: cs)
  | right {b : α} {as bs cs : List α} (h : Woven as bs cs) : Woven as (b :: bs) (b :: cs)

section Woven

variable {α β : Type} {as bs cs as' bs' cs' : List α}

theorem woven_left : ∀ as : List α, Woven as [] as
  | [] => .nil
  | _ :: as => .left (woven_left as)

theorem woven_right : ∀ bs : List α, Woven [] bs bs
  | [] => .nil
  | _ :: bs => .right (woven_right bs)

theorem Woven.append (h : Woven as bs cs) (h' : Woven as' bs' cs') :
    Woven (as ++ as') (bs ++ bs') (cs ++ cs') := by
  induction h with
  | nil => exact h'
  | left _ ih => exact .left ih
  | right _ ih => exact .right ih

theorem Woven.between (h : Woven as bs cs) (before after : List α) :
    Woven (before ++ as ++ after) bs (before ++ cs ++ after) := by
  simpa using ((woven_left before).append h).append (woven_left after)

theorem woven_flatMap {f g h : β → List α} (hw : ∀ x, Woven (f x) (g x) (h x)) (xs : List β) :
    Woven (xs.flatMap f) (xs.flatMap g) (xs.flatMap h) := by
  induction xs with
  | nil => exact .nil
  | cons x xs ih => exact (hw x).append ih

theorem Woven.flatMap (h : Woven as bs cs) (f : α → List β) :
    Woven (as.flatMap f) (bs.flatMap f) (cs.flatMap f) := by
  induction h with
  | nil => exact .nil
  | @left a _ _ _ _ ih => exact (woven_left (f a)).append ih
  | @right b _ _ _ _ ih => exact (woven_right (f b)).append ih

theorem Woven.filter_eq (h : Woven as bs cs) {p : α → Bool} (hp : ∀ b ∈ bs, p b = false) :
    cs.filter p = as.filter p := by
  induction h with
  | nil => rfl
  | left _ ih => simp only [List.filter_cons, ih hp]
  | right _ ih =>
    obtain ⟨hb, hbs⟩ := List.forall_mem_cons.mp hp
    rw [List.filter_cons, hb, if_neg Bool.false_ne_true, ih hbs]

end Woven

/-! Models without descriptions. -/

def Property.undescribed (p : Property) : Property := { p with description := none }

def TypeEntry.undescribed (t : TypeEntry) : TypeEntry :=
  { t with description := none, properties := t.properties.map Property.undescribed }

def Field.undescribed (f : Field) : Field := { f with description := none }

def ItemBody.undescribed : ItemBody → ItemBody
  | synonym target => synonym target
  | record fields resource => record (fields.map Field.undescribed) resource

def Item.undescribed (i : Item) : Item :=
  { i with description := none, body := i.body.undescribed }

theorem TypeEntry.undescribed_undescribed (t : TypeEntry) : t.undescribed.undescribed = t.undescribed := by
  have hproperty : Property.undescribed ∘ Property.undescribed = Property.undescribed := rfl
  simp [undescribed, hproperty]

namespace Model

variable {m m' : Model}

def undescribed (m : Model) : Model := { m with types := m.types.map TypeEntry.undescribed }

theorem getElem?_undescribed (m : Model) (i : TypeId) :
    m.undescribed.types[i]? = (m.types[i]?).map TypeEntry.undescribed :=
  Array.getElem?_map

theorem sameUpTo_undescribed (m : Model) : SameUpTo TypeEntry.undescribed m m.undescribed where
  groups := rfl
  index := rfl
  entries := fun i => by
    rw [getElem?_undescribed, Option.map_map]
    congr 1
    exact funext TypeEntry.undescribed_undescribed

end Model

namespace Emission

/-! Comment lines. -/

/-- A comment line and what it says: nothing after the mark, or a text after a space. -/
inductive Says (indent : Nat) : List Char → List Char → Prop
  | nothing : Says indent (List.replicate indent ' ' ++ ['/', '/', '/']) []
  | text {rest : List Char} (hrest : rest ≠ []) (hline : '\n' ∉ rest) :
    Says indent (List.replicate indent ' ' ++ ['/', '/', '/', ' '] ++ rest) rest

/-- Whether a line begins, after spaces, with the mark of a comment. -/
def isComment (line : List Char) : Bool :=
  ['/', '/', '/'].isPrefixOf (line.dropWhile (· == ' '))

variable {indent : Nat} {line rest : List Char}

theorem Says.isComment (h : Says indent line rest) : isComment line = true := by
  have hblank : ∀ c ∈ List.replicate indent ' ', (c == ' ') = true := by simp
  cases h with
  | nothing => rw [Emission.isComment, List.dropWhile_append_of_pos hblank]; rfl
  | text => rw [Emission.isComment, List.append_assoc, List.dropWhile_append_of_pos hblank]; rfl

theorem Says.not_mem (h : Says indent line rest) : '\n' ∉ line := by
  cases h with
  | nothing => simp
  | text _ hline => simpa using hline

theorem says_commentLine (indent : Nat) (hline : '\n' ∉ line) :
    Says indent (commentLine indent line).toList (Text.trimEnd line) := by
  have htext : '\n' ∉ Text.trimEnd line := fun h => hline ((Text.trimEnd_prefix line).subset h)
  rw [commentLine, String.toList_ofList]
  cases hrest : Text.trimEnd line with
  | nil => simpa using Says.nothing
  | cons c cs =>
    rw [hrest] at htext
    have hsays : Says indent (List.replicate indent ' ' ++ ['/', '/', '/', ' '] ++ c :: cs) (c :: cs) :=
      .text (List.cons_ne_nil c cs) htext
    simpa using hsays

theorem toList_unlines (lines : List String) :
    (unlines lines).toList = Text.ended (lines.map String.toList) := by
  simp [unlines, String.toList_join, List.flatMap_map, Text.ended]

theorem says_commentLines (indent : Nat) (description : String) :
    List.Forall₂ (Says indent) ((commentLines indent (some description)).map String.toList)
      ((Text.rows (Text.trim description.toList)).map Text.trimEnd) := by
  rw [Text.map_trimEnd_rows, commentLines, List.map_map, List.forall₂_map_left_iff,
    List.forall₂_map_right_iff, List.forall₂_same]
  exact fun line hline => says_commentLine indent (Text.not_mem_of_mem_lines hline)

theorem exists_says {description : Option String} {line : String}
    (h : line ∈ commentLines indent description) : ∃ rest, Says indent line.toList rest := by
  cases description with
  | none => cases h
  | some text =>
    obtain ⟨chars, hchars, rfl⟩ := List.mem_map.mp h
    exact ⟨_, says_commentLine indent (Text.not_mem_of_mem_lines hchars)⟩

/-! The comment lines of an item among its lines. -/

def fieldComments (f : Field) : List String := commentLines 4 f.description

def itemComments (i : Item) : List String :=
  commentLines 0 i.description ++
    match i.body with
    | .synonym _ => []
    | .record fields _ => fields.flatMap fieldComments

theorem woven_fieldLines (f : Field) : Woven (fieldLines f.undescribed) (fieldComments f) (fieldLines f) := by
  have hlines := (woven_right (fieldComments f)).append
    (woven_left ((fieldAttributes f).map indented ++
      [indented ("pub " ++ f.name ++ ": " ++ fieldType f ++ ",")]))
  rwa [List.nil_append, List.append_nil, ← List.append_assoc] at hlines

theorem woven_recordLines (name : String) (fields : List Field) (resource : Option ApiResource) :
    Woven (recordLines name (fields.map Field.undescribed) resource) (fields.flatMap fieldComments)
      (recordLines name fields resource) := by
  have hfields := woven_flatMap woven_fieldLines fields
  rw [recordLines, recordLines, List.flatMap_map]
  simpa only [List.append_assoc] using hfields.between
    ["#[derive(Clone, Debug, Default, PartialEq, Serialize, Deserialize)]",
      "pub struct " ++ name ++ " \x7b"]
    (["\x7d"] ++ (resource.map (resourceLines name)).getD [])

theorem woven_itemLines (i : Item) : Woven (itemLines i.undescribed) (itemComments i) (itemLines i) := by
  have hcomments := woven_right (commentLines 0 i.description)
  cases hbody : i.body with
  | synonym target =>
    have hlines := (hcomments.append (woven_left (if target.render.isEmpty then recordLines i.name [] none
      else ["pub type " ++ i.name ++ " = " ++ target.render ++ ";"]))).left (a := "")
    simpa [itemLines, itemComments, hbody, Item.undescribed, ItemBody.undescribed, commentLines]
      using hlines
  | record fields resource =>
    have hlines := (hcomments.append (woven_recordLines i.name fields resource)).left (a := "")
    simpa [itemLines, itemComments, hbody, Item.undescribed, ItemBody.undescribed, commentLines]
      using hlines

theorem woven_groupLines (key : GroupKey) (view : FinalizedGroup) (items : List Item) :
    Woven (groupLines key view (items.map Item.undescribed)) (items.flatMap itemComments)
      (groupLines key view items) := by
  rw [groupLines, groupLines, List.flatMap_map]
  exact (woven_flatMap woven_itemLines items).between _ [""]

/-! The same in the model. -/

variable {m m' : Model} {apiModule : String} {key : GroupKey} {view : FinalizedGroup}

theorem itemBody_undescribed (s : Spelling) (current : TypeId) (t : TypeEntry) :
    s.itemBody current t.undescribed = (s.itemBody current t).undescribed := by
  have hfields : (t.properties.map Property.undescribed).map (s.field current) =
      (t.properties.map (s.field current)).map Field.undescribed := by
    rw [List.map_map, List.map_map]
    rfl
  cases hkind : t.kind <;>
    simp only [Spelling.itemBody, TypeEntry.undescribed, hkind, hfields, ItemBody.undescribed]

theorem groupItems_undescribed (m : Model) (apiModule : String) (view : FinalizedGroup) :
    groupItems m.undescribed apiModule view = (groupItems m apiModule view).map Item.undescribed := by
  have hitem : ∀ id, (spelling m.undescribed apiModule view).item? id =
      ((spelling m apiModule view).item? id).map Item.undescribed := by
    intro id
    have hbody := fun t => Spelling.itemBody_congr
      (m.sameUpTo_undescribed.typeText (fun _ => ⟨rfl, rfl, rfl⟩) apiModule view id) t
    have hentry : (spelling m.undescribed apiModule view).model.types[id]? =
        ((spelling m apiModule view).model.types[id]?).map TypeEntry.undescribed :=
      m.getElem?_undescribed id
    rw [Spelling.item?, Spelling.item?, hentry, Option.map_map, Option.map_map]
    congr 1
    funext t
    simp only [Function.comp_apply, hbody, itemBody_undescribed]
    rfl
  rw [groupItems, groupItems, Spelling.items, Spelling.items, List.map_filterMap]
  exact List.filterMap_congr fun id _ => hitem id

/-- The comment lines that the descriptions of a type and of its properties make. A synonym has no
fields that its properties could describe. -/
def entryComments (t : TypeEntry) : List String :=
  commentLines 0 t.description ++
    match t.kind with
    | .synonym _ => []
    | _ => t.properties.flatMap fun p => commentLines 4 p.description

def groupComments (m : Model) (view : FinalizedGroup) : List String :=
  (view.types.filterMap (m.types[·]?)).flatMap entryComments

theorem comments_groupItems (m : Model) (apiModule : String) (view : FinalizedGroup) :
    (groupItems m apiModule view).flatMap itemComments = groupComments m view := by
  have hitem : ∀ id, ((spelling m apiModule view).item? id).map itemComments =
      (m.types[id]?).map entryComments := by
    intro id
    rw [Spelling.item?, Option.map_map]
    change (m.types[id]?).map _ = _
    congr 1
    funext t
    cases hkind : t.kind <;>
      simp [itemComments, entryComments, Spelling.itemBody, hkind, List.flatMap_map, fieldComments,
        Spelling.field]
  rw [groupItems, Spelling.items, groupComments, List.flatMap_def, List.flatMap_def, List.map_filterMap,
    List.map_filterMap]
  exact congrArg List.flatten (List.filterMap_congr fun id _ => hitem id)

theorem exists_says_of_mem {line : String} (h : line ∈ groupComments m view) :
    ∃ indent rest, Says indent line.toList rest := by
  obtain ⟨t, -, h⟩ := List.mem_flatMap.mp h
  rcases List.mem_append.mp h with h | h
  · exact ⟨0, exists_says h⟩
  · split at h
    · cases h
    · obtain ⟨p, -, h⟩ := List.mem_flatMap.mp h
      exact ⟨4, exists_says h⟩

/-! Texts line by line. -/

/-- `text` has the lines of `bare` and between them `comments`, all of which are comment lines. -/
structure Remarked (bare text : String) (comments : List String) : Prop where
  ended : text.toList = Text.ended (Text.lines text.toList)
  woven : Woven (Text.lines bare.toList) (comments.map String.toList) (Text.lines text.toList)
  comments : ∀ line ∈ comments, isComment line.toList = true

/-- The lines of a text that are not comments. -/
def codeLines (text : String) : List (List Char) :=
  (Text.lines text.toList).filter fun line => !isComment line

theorem Remarked.codeLines_eq {bare text : String} {comments : List String}
    (h : Remarked bare text comments) : codeLines text = codeLines bare := by
  refine h.woven.filter_eq fun line hline => ?_
  obtain ⟨comment, hcomment, rfl⟩ := List.mem_map.mp hline
  rw [h.comments comment hcomment]
  rfl

theorem remarked_unlines {as comments cs : List String} (h : Woven as comments cs)
    (hcomments : ∀ line ∈ comments, ∃ indent rest, Says indent line.toList rest) :
    Remarked (unlines as) (unlines cs) comments where
  ended := by rw [toList_unlines, Text.ended_lines_ended]
  woven := by
    have hlines : ∀ ls : List String, Text.lines (unlines ls).toList =
        ls.flatMap fun line => Text.lines (line.toList ++ ['\n']) := by
      intro ls
      rw [toList_unlines, Text.lines_ended, List.flatMap_map]
    -- A line of code may be several lines of the text, but a comment line is one.
    have hone : comments.flatMap (fun line => Text.lines (line.toList ++ ['\n'])) =
        comments.map String.toList := by
      rw [← List.flatMap_pure_eq_map]
      refine List.flatMap_congr fun line hline => ?_
      obtain ⟨indent, rest, hsays⟩ := hcomments line hline
      exact Text.lines_of_not_mem hsays.not_mem
    rw [hlines, hlines, ← hone]
    exact h.flatMap _
  comments := fun line hline => by
    obtain ⟨indent, rest, hsays⟩ := hcomments line hline
    exact hsays.isComment

theorem exists_remarked (hview : m.finalized? key = some view) (hname : key.moduleName ∉ reservedModules)
    (apiModule : String) : ∃ bare text, groupText m.undescribed apiModule key = .ok bare ∧
      groupText m apiModule key = .ok text ∧ Remarked bare text (groupComments m view) := by
  have hfinalized : m.undescribed.finalized? key = m.finalized? key := rfl
  have hreserved : ¬reservedModules.contains key.moduleName = true := by rwa [List.contains_iff_mem]
  rw [groupText, groupText, hfinalized, hview]
  simp only [if_neg hreserved]
  refine ⟨_, _, rfl, rfl, ?_⟩
  rw [groupItems_undescribed, ← comments_groupItems m apiModule]
  refine remarked_unlines (woven_groupLines key view _) fun line hline => ?_
  rw [comments_groupItems] at hline
  exact exists_says_of_mem hline

theorem codeLines_groupText (m : Model) (apiModule : String) (key : GroupKey) :
    (groupText m apiModule key).map codeLines = (groupText m.undescribed apiModule key).map codeLines := by
  have hfinalized : m.undescribed.finalized? key = m.finalized? key := rfl
  cases hview : m.finalized? key with
  | none => rw [groupText, groupText, hfinalized, hview]
  | some view =>
    by_cases hname : key.moduleName ∈ reservedModules
    · have hreserved : reservedModules.contains key.moduleName = true := List.contains_iff_mem.mpr hname
      rw [groupText, groupText, hfinalized, hview]
      simp only [if_pos hreserved]
    · obtain ⟨bare, text, hbare, htext, h⟩ := exists_remarked hview hname apiModule
      rw [hbare, htext, Except.map, Except.map, h.codeLines_eq]

/-- The name of a module and what it has besides comments. -/
def moduleCode (t : ModuleText) : String × Except Error (List (List Char)) :=
  (t.name, t.text.map codeLines)

theorem code_modules (m : Model) (apiModule : String) :
    (m.modules apiModule).map moduleCode = (m.undescribed.modules apiModule).map moduleCode := by
  have hgroups : m.undescribed.finalizedGroups = m.finalizedGroups := rfl
  have hmodule : ∀ key : GroupKey, moduleCode ⟨key.moduleName, groupText m apiModule key⟩ =
      moduleCode ⟨key.moduleName, groupText m.undescribed apiModule key⟩ := fun key => by
    rw [moduleCode, moduleCode, codeLines_groupText]
  simp only [Model.modules, hgroups, List.map_append, List.map_map, Function.comp_def, hmodule]

/-- A description makes comment lines, which say one by one what the lines of the trimmed description say
up to the blanks at their ends. A module has these lines, in the order of the types and their properties,
among those that it has without descriptions, and no others. Two models that differ only in descriptions
have modules that differ only in comments. -/
theorem descriptions_stay_comments (h : m'.undescribed = m.undescribed) (apiModule : String) :
    (∀ (indent : Nat) (description : String), ∃ lines,
      (unlines (commentLines indent (some description))).toList = Text.ended lines ∧
        List.Forall₂ (Says indent) lines
          ((Text.rows (Text.trim description.toList)).map Text.trimEnd)) ∧
    (∀ key view, m.finalized? key = some view → key.moduleName ∉ reservedModules → ∃ bare text,
      groupText m.undescribed apiModule key = .ok bare ∧ groupText m apiModule key = .ok text ∧
        Remarked bare text (groupComments m view)) ∧
    (m'.modules apiModule).map moduleCode = (m.modules apiModule).map moduleCode := by
  refine ⟨fun indent description => ⟨_, toList_unlines _, says_commentLines indent description⟩,
    fun key view hview hname => exists_remarked hview hname apiModule, ?_⟩
  rw [code_modules, h, ← code_modules]

/-- A description that would end a block comment and declare a type, were it not for the marks. -/
theorem descriptions_stay_comments_struct :
    let core : GroupKey := ⟨"core", some "v1"⟩
    let described : String → String → Model := fun ofPod ofHost =>
      { types := #[
          { name := "Pod", fullName := "Pod", qualified := "core.v1.Pod", group := core, kind := .resource
            description := some ofPod
            properties := [
              { name := "host", type := .primitive .string, required := true,
                description := some ofHost }] }]
        groups := [(core, { named := [("Pod", 0)], finalized := some { types := [0] } })]
        index := [⟨core, "core.v1.Pod", 0⟩] }
    let injection := " A pod. */\r\npub struct Evil;\n \n  /// x\n"
    let m := described injection "\u2028"
    let m' := described "A pod." "The host."
    m'.undescribed = m.undescribed ∧
      (∃ lines, (unlines (commentLines 4 (some injection))).toList = Text.ended lines ∧
        List.Forall₂ (Says 4) lines
          ["A pod. */".toList, "pub struct Evil;".toList, [], "  /// x".toList]) ∧
      (∃ bare text, groupText m.undescribed "api" core = .ok bare ∧ groupText m "api" core = .ok text ∧
        Remarked bare text ["/// A pod. */", "/// pub struct Evil;", "///", "///   /// x"]) ∧
      (m'.modules "api").map moduleCode = (m.modules "api").map moduleCode := by
  intro core described injection m m'
  have hsame : m'.undescribed = m.undescribed := by
    simp [m, m', described, Model.undescribed, TypeEntry.undescribed, Property.undescribed]
  obtain ⟨hlines, htexts, hmodules⟩ := descriptions_stay_comments hsame "api"
  have hrows : (Text.rows (Text.trim injection.toList)).map Text.trimEnd =
      ["A pod. */".toList, "pub struct Evil;".toList, [], "  /// x".toList] := by decide
  have hview : m.finalized? core = some { types := [0] } := by decide
  have hname : core.moduleName ∉ reservedModules := by decide
  have htext := htexts core _ hview hname
  have hcomments : groupComments m { types := [0] } =
      ["/// A pod. */", "/// pub struct Evil;", "///", "///   /// x"] := by decide
  rw [hcomments] at htext
  exact ⟨hsame, hrows ▸ hlines 4 injection, htext, hmodules⟩

end Emission

end SchemaCompiler
