import SchemaCompiler.Yaml.Cursor
import SchemaCompiler.Value.Number

/-! The text of scalars: plain ones, quoted ones and blocks. Lines of a scalar are joined by a space,
blank lines between them remain as line feeds, and a block keeps or folds its lines. -/

namespace SchemaCompiler.Yaml

/-- A scalar being read: its characters in reverse, and the white space read after them that only
counts if more characters follow. -/
structure Scalar where
  written : List Char := []
  spaces : List Char := []
  firstBreak : List Char := []
  moreBreaks : List Char := []
  broken : Bool := false

namespace Scalar

def push (s : Scalar) (c : Char) : Scalar :=
  { s with written := c :: s.written }

def append (s : Scalar) (cs : List Char) : Scalar :=
  { s with written := cs.reverse ++ s.written }

/-- Turns the pending white space into text: a single line feed becomes a space, and of several
line feeds all but the first remain. -/
def join (s : Scalar) : Scalar :=
  let gap :=
    if !s.broken then s.spaces.reverse
    else if s.firstBreak == ['\n'] then
      if s.moreBreaks.isEmpty then [' '] else s.moreBreaks
    else s.firstBreak ++ s.moreBreaks
  { written := gap.reverse ++ s.written }

def text (s : Scalar) : String :=
  String.ofList s.written.reverse

/-- Takes the white space at `c` into `s`. In a plain scalar, where `indent` is given, a tab may not
stand in the indentation of a further line. -/
def gap (indent : Option Int) : Nat → Cursor → Scalar → Option (Cursor × Scalar)
  | 0, _, _ => none
  | fuel + 1, c, s =>
    if c.atSpace then
      if s.broken && c.next? == some '\t' && indent.any ((c.column : Int) < ·) then none
      else if s.broken then gap indent fuel c.skip s
      else gap indent fuel c.skip { s with spaces := (c.next?.toList) ++ s.spaces }
    else if c.atBreak then
      if s.broken then gap indent fuel c.skipLine { s with moreBreaks := s.moreBreaks ++ c.breakText }
      else gap indent fuel c.skipLine { s with spaces := [], firstBreak := c.breakText, broken := true }
    else some (c, s)

def isFlowSign (c : Char) : Bool :=
  c == ',' || c == '[' || c == ']' || c == '\x7b' || c == '\x7d'

/-- The characters of a plain scalar up to the next gap or sign. Within brackets a colon may not be
followed by a bracket or a comma. -/
def plainRun (flow : Bool) : Nat → Cursor → Scalar → Option (Cursor × Scalar)
  | 0, _, _ => none
  | fuel + 1, c, s =>
    match c.rest with
    | [] => some (c, s)
    | ch :: rest =>
      if c.atGap then some (c, s)
      else if flow && ch == ':' && rest.head?.any (fun d => isFlowSign d || d == '?') then none
      else if ch == ':' && opensGap rest then some (c, s)
      else if flow && isFlowSign ch then some (c, s)
      else plainRun flow fuel c.skip (s.join.push ch)

def plainLines (flow : Bool) (indent : Int) : Nat → Cursor → Scalar → Option (Cursor × Scalar)
  | 0, _, _ => none
  | fuel + 1, c, s =>
    if c.atDocumentMark || c.next? == some '#' then some (c, s)
    else do
      let (c, s) ← plainRun flow (fuel + 1) c s
      if !(c.atSpace || c.atBreak) then some (c, s)
      else
        let (c, s) ← gap (some indent) (fuel + 1) c s
        if !flow && (c.column : Int) < indent then some (c, s)
        else plainLines flow indent fuel c s

/-- A plain scalar; the flag says that a line break follows it. `fuel` exceeds the characters left. -/
def plain? (fuel : Nat) (flow : Bool) (indent : Int) (c : Cursor) : Option (String × Bool × Cursor) :=
  (plainLines flow indent fuel c {}).map fun (c, s) => (s.text, s.broken, c)

def shortEscape? (c : Char) : Option Char :=
  match c with
  | '0' => some (Char.ofNat 0)
  | 'a' => some '\x07'
  | 'b' => some '\x08'
  | 't' => some '\t'
  | '\t' => some '\t'
  | 'n' => some '\n'
  | 'v' => some '\x0b'
  | 'f' => some '\x0c'
  | 'r' => some '\r'
  | 'e' => some '\x1b'
  | ' ' => some ' '
  | '"' => some '"'
  | '/' => some '/'
  | '\\' => some '\\'
  | 'N' => some (Char.ofNat 0x85)
  | '_' => some (Char.ofNat 0xA0)
  | 'L' => some (Char.ofNat 0x2028)
  | 'P' => some (Char.ofNat 0x2029)
  | _ => none

def escapeLength? (c : Char) : Option Nat :=
  match c with
  | 'x' => some 2
  | 'u' => some 4
  | 'U' => some 8
  | _ => none

/-- The character of an escape, given what stands after the backslash, and the escape's length. -/
def escape? : List Char → Option (Char × Nat)
  | [] => none
  | c :: rest =>
    match shortEscape? c, escapeLength? c with
    | some e, _ => some (e, 2)
    | none, some n =>
      if (rest.take n).length < n then none
      else
        match Number.natural? 16 (rest.take n) with
        | some v => if v.isValidChar then some (Char.ofNat v, n + 2) else none
        | none => none
    | none, none => none

/-- The characters of a quoted scalar up to a gap or the closing quote. A backslash at the end of a
line joins it to the next without a space. -/
def quotedRun (single : Bool) : Nat → Cursor → Scalar → Option (Cursor × Scalar)
  | 0, _, _ => none
  | fuel + 1, c, s =>
    match c.rest with
    | [] => some (c, s)
    | ch :: rest =>
      if c.atGap then some (c, s)
      else if single then
        if ch == '\'' then
          if rest.head? == some '\'' then quotedRun single fuel (c.skipMany 2) (s.push '\'')
          else some (c, s)
        else quotedRun single fuel c.skip (s.push ch)
      else if ch == '"' then some (c, s)
      else if ch == '\\' then
        if rest.head?.any isBreak then some (c.skip.skipLine, { s with broken := true })
        else
          match escape? rest with
          | some (e, n) => quotedRun single fuel (c.skipMany n) (s.push e)
          | none => none
      else quotedRun single fuel c.skip (s.push ch)

def quotedLines (single : Bool) : Nat → Cursor → Scalar → Option (Cursor × Scalar)
  | 0, _, _ => none
  | fuel + 1, c, s =>
    if c.atDocumentMark || c.rest.isEmpty then none
    else do
      let (c, s) ← quotedRun single (fuel + 1) c s
      if c.next? == some (if single then '\'' else '"') then some (c.skip, s.join)
      else
        let (c, s) ← gap none (fuel + 1) c s
        quotedLines single fuel c s.join

/-- A quoted scalar from its opening quote on. -/
def quoted? (fuel : Nat) (single : Bool) (c : Cursor) : Option (String × Cursor) :=
  (quotedLines single fuel c.skip {}).map fun (c, s) => (s.text, c)

/-- How a block ends: without its last line feed, with it, or with all line feeds after it. -/
inductive Ending where
  | strip
  | clip
  | keep
deriving DecidableEq

def ending? (c : Char) : Option Ending :=
  if c == '+' then some .keep else if c == '-' then some .strip else none

def width? (c : Char) : Option Nat :=
  if c.isDigit then some (Number.digitValue c) else none

/-- The signs after the block mark: the ending and the width of the indentation, in either order. -/
def blockHeader? (cs : List Char) : Option (Ending × Option Nat × Nat) :=
  let header : Ending × Option Nat × Nat :=
    match cs with
    | a :: b :: _ =>
      match ending? a, width? a with
      | some e, _ => match width? b with
        | some w => (e, some w, 2)
        | none => (e, none, 1)
      | none, some w => match ending? b with
        | some e => (e, some w, 2)
        | none => (.clip, some w, 1)
      | none, none => (.clip, none, 0)
    | [a] =>
      match ending? a, width? a with
      | some e, _ => (e, none, 1)
      | none, some w => (.clip, some w, 1)
      | none, none => (.clip, none, 0)
    | [] => (.clip, none, 0)
  if header.2.1 == some 0 then none else some header

/-- Passes the indentation and the empty lines before a line of a block. While the indentation is
open (`width = none`) the widest one seen is remembered in `widest`. -/
def blockBreaks (width : Option Nat) :
    Nat → Nat → List Char → Cursor → Option (Nat × List Char × Cursor)
  | 0, _, _, _ => none
  | fuel + 1, widest, breaks, c =>
    let spaces := (c.rest.takeWhile (· == ' ')).length
    let c := c.skipMany (match width with
      | some w => min spaces (w - c.column)
      | none => spaces)
    let widest := max widest c.column
    if width.all (c.column < ·) && c.next? == some '\t' then none
    else if c.atBreak then blockBreaks width fuel widest (breaks ++ c.breakText) c.skipLine
    else some (widest, breaks, c)

structure Block where
  written : List Char := []
  firstBreak : List Char := []
  moreBreaks : List Char := []
  spaced : Bool := false

/-- The text that the line breaks before a further line contribute. In a folded block a break
between two lines that do not start with white space becomes a space or vanishes. -/
def Block.lineGap (folded : Bool) (b : Block) (spaced : Bool) : List Char :=
  if folded && b.firstBreak == ['\n'] && !b.spaced && !spaced then
    (if b.moreBreaks.isEmpty then [' '] else []) ++ b.moreBreaks
  else b.firstBreak ++ b.moreBreaks

def blockLines (folded : Bool) (width : Nat) : Nat → Cursor → Block → Option (Cursor × Block)
  | 0, _, _ => none
  | fuel + 1, c, b =>
    if c.column != width || c.rest.isEmpty then some (c, b)
    else
      let spaced := c.atSpace
      let content := c.rest.takeWhile (!isBreak ·)
      let c := c.skipMany content.length
      let written := content.reverse ++ (b.lineGap folded spaced).reverse ++ b.written
      let firstBreak := c.breakText
      let c := if c.atBreak then c.skipLine else c
      (blockBreaks (some width) (fuel + 1) 0 [] c).bind fun (_, moreBreaks, c) =>
        blockLines folded width fuel c { written, firstBreak, moreBreaks, spaced }

/-- A block from its mark on, inside a node indented by `indent`. -/
def block? (fuel : Nat) (folded : Bool) (indent : Int) (c : Cursor) : Option (String × Cursor) := do
  let c := c.skip
  let (ending, increment, length) ← blockHeader? c.rest
  let c := (c.skipMany length).skipWhile isSpace
  let c := if c.next? == some '#' then c.skipWhile (!isBreak ·) else c
  if !c.atLineEnd then none
  else
    let c := if c.atBreak then c.skipLine else c
    let fixed := increment.map fun n => (if 0 ≤ indent then indent + n else n).toNat
    let (widest, moreBreaks, c) ← blockBreaks fixed fuel 0 [] c
    let width := fixed.getD (max widest (max (indent + 1).toNat 1))
    let (c, b) ← blockLines folded width fuel c { moreBreaks }
    let close := match ending with
      | .strip => []
      | .clip => b.firstBreak
      | .keep => b.firstBreak ++ b.moreBreaks
    some (String.ofList (b.written.reverse ++ close), c)

end Scalar

end SchemaCompiler.Yaml
