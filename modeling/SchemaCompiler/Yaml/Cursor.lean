/-! A place in a text, with the classes of characters that matter for its layout. -/

namespace SchemaCompiler.Yaml

structure Cursor where
  rest : List Char
  index : Nat
  line : Nat
  column : Nat

def isBreak (c : Char) : Bool :=
  c == '\r' || c == '\n' || c.toNat == 0x85 || c.toNat == 0x2028 || c.toNat == 0x2029

def isSpace (c : Char) : Bool :=
  c == ' ' || c == '\t'

/-- Whether a text ends, or has a space, a tab or a line break in front. -/
def opensGap : List Char → Bool
  | [] => true
  | c :: _ => isSpace c || isBreak c

/-- The characters that a text may hold at all. -/
def isAdmitted (c : Char) : Bool :=
  let n := c.toNat
  n == 0x09 || n == 0x0A || n == 0x0D || (0x20 ≤ n && n ≤ 0x7E) || n == 0x85 ||
    (0xA0 ≤ n && n ≤ 0xD7FF) || (0xE000 ≤ n && n ≤ 0xFFFD) || 0x10000 ≤ n

namespace Cursor

def start (cs : List Char) : Cursor := ⟨cs, 0, 0, 0⟩

def next? (c : Cursor) : Option Char := c.rest.head?

def skip (c : Cursor) : Cursor :=
  ⟨c.rest.drop 1, c.index + 1, c.line, c.column + 1⟩

def skipMany (n : Nat) (c : Cursor) : Cursor :=
  ⟨c.rest.drop n, c.index + n, c.line, c.column + n⟩

/-- Passes a line break. A carriage return and a line feed together are one. -/
def skipLine (c : Cursor) : Cursor :=
  match c.rest with
  | '\r' :: '\n' :: rest => ⟨rest, c.index + 2, c.line + 1, 0⟩
  | _ :: rest => ⟨rest, c.index + 1, c.line + 1, 0⟩
  | [] => c

/-- What a line break contributes to a scalar. -/
def breakText (c : Cursor) : List Char :=
  match c.rest with
  | ch :: _ => if ch.toNat == 0x2028 || ch.toNat == 0x2029 then [ch] else ['\n']
  | [] => []

def atBreak (c : Cursor) : Bool := c.next?.any isBreak

def atSpace (c : Cursor) : Bool := c.next?.any isSpace

def atGap (c : Cursor) : Bool := opensGap c.rest

def atLineEnd (c : Cursor) : Bool := c.rest.isEmpty || c.atBreak

/-- Passes characters while `p` holds; `p` must refuse line breaks. -/
def skipWhile (p : Char → Bool) (c : Cursor) : Cursor :=
  c.skipMany (c.rest.takeWhile p).length

/-- Whether a line of three equal signs that separates documents stands here. -/
def atMark (sign : Char) (c : Cursor) : Bool :=
  c.column == 0 && [sign, sign, sign].isPrefixOf c.rest && opensGap (c.rest.drop 3)

def atDocumentMark (c : Cursor) : Bool :=
  c.atMark '-' || c.atMark '.'

end Cursor

end SchemaCompiler.Yaml
