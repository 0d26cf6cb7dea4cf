import Mathlib.Tactic.SplitIfs
import SchemaCompiler.Text.Quoted

/-! Reading string literals. What a compiler makes of a literal is defined character by character, and
every text that was quoted is read back. -/

namespace SchemaCompiler.Text

/-- What was read before a character decides what it means. -/
inductive LiteralState where
  | plain
  /-- After a carriage return, which only a line feed may follow. `continues` says that a backslash
  stood in front of it. -/
  | carriage (continues : Bool)
  | escape
  /-- After a backslash at the end of a line. The blanks that follow do not count. -/
  | continued
  /-- Before the two digits of a character up to 7F. -/
  | ascii
  | asciiLow (high : Nat)
  /-- Before the brace in front of a code point. -/
  | brace
  /-- Among the digits of a code point, after so many. -/
  | code (digits value : Nat)
deriving DecidableEq

inductive LiteralStep where
  | closed
  | on (next : LiteralState) (read : Option Char)
deriving DecidableEq

def hexValue? (c : Char) : Option Nat :=
  if '0' ≤ c ∧ c ≤ '9' then some (c.toNat - '0'.toNat)
  else if 'a' ≤ c ∧ c ≤ 'f' then some (c.toNat - 'a'.toNat + 10)
  else if 'A' ≤ c ∧ c ≤ 'F' then some (c.toNat - 'A'.toNat + 10)
  else none

def shortEscape? : Char → Option Char
  | 'n' => some '\n'
  | 'r' => some '\r'
  | 't' => some '\t'
  | '0' => some '\x00'
  | '\\' => some '\\'
  | '\'' => some '\''
  | '"' => some '"'
  | _ => none

namespace LiteralState

def stepPlain (c : Char) : LiteralStep :=
  if c = '"' then .closed
  else if c = '\\' then .on escape none
  else if c = '\r' then .on (carriage false) none
  else .on plain (some c)

/-- The state after `c` and what was read with it, if a literal may go on with `c`. -/
def step : LiteralState → Char → Option LiteralStep
  | plain, c => some (stepPlain c)
  | carriage continues, c =>
    if c ≠ '\n' then none
    else if continues then some (.on continued none)
    else some (.on plain (some '\n'))
  | escape, c =>
    if c = 'x' then some (.on ascii none)
    else if c = 'u' then some (.on brace none)
    else if c = '\n' then some (.on continued none)
    else if c = '\r' then some (.on (carriage true) none)
    else (shortEscape? c).map fun e => .on plain (some e)
  | continued, c =>
    if c = ' ' ∨ c = '\t' ∨ c = '\n' then some (.on continued none)
    else if c = '\r' then some (.on (carriage true) none)
    else some (stepPlain c)
  | ascii, c => (hexValue? c).map fun d => .on (asciiLow d) none
  | asciiLow high, c =>
    (hexValue? c).bind fun d =>
      if 16 * high + d < 128 then some (.on plain (some (Char.ofNat (16 * high + d)))) else none
  | brace, c => if c = '\x7b' then some (.on (code 0 0) none) else none
  | code digits value, c =>
    if c = '\x7d' then
      if 0 < digits ∧ value.isValidChar then some (.on plain (some (Char.ofNat value))) else none
    else if c = '_' then if 0 < digits then some (.on (code digits value) none) else none
    else (hexValue? c).bind fun d =>
      if digits < 6 then some (.on (code (digits + 1) (16 * value + d)) none) else none

end LiteralState

/-- The text of a literal whose opening quote was read, and what stands behind the closing one. -/
def literal (state : LiteralState) : List Char → Option (List Char × List Char)
  | [] => none
  | c :: rest =>
    match state.step c with
    | none => none
    | some .closed => some ([], rest)
    | some (.on next read) => (literal next rest).map fun r => (read.toList ++ r.1, r.2)

open LiteralState

theorem literal_on {state next : LiteralState} {c : Char} {read : Option Char}
    (h : state.step c = some (.on next read)) (rest : List Char) :
    literal state (c :: rest) = (literal next rest).map fun r => (read.toList ++ r.1, r.2) := by
  rw [literal, h]

theorem literal_skip {state next : LiteralState} {c : Char}
    (h : state.step c = some (.on next none)) (rest : List Char) :
    literal state (c :: rest) = literal next rest := by
  simp [literal_on h]

theorem hexValue?_digitChar {d : Nat} (h : d < 16) :
    hexValue? d.digitChar = some d ∧ d.digitChar ≠ '\x7d' ∧ d.digitChar ≠ '_' := by
  have hall : ∀ d < 16, hexValue? (Nat.digitChar d) = some d ∧ Nat.digitChar d ≠ '\x7d' ∧
      Nat.digitChar d ≠ '_' := by decide
  exact hall d h

theorem step_code {digits d : Nat} (value : Nat) (hdigits : digits < 6) (h : d < 16) :
    (code digits value).step d.digitChar = some (.on (code (digits + 1) (16 * value + d)) none) := by
  obtain ⟨hvalue, hbrace, hline⟩ := hexValue?_digitChar h
  simp [step, hbrace, hline, hvalue, hdigits]

theorem literal_hexadecimal {n : Nat} (hn : n < Nat.pow 16 6) (rest : List Char) :
    literal (code 0 0) (hexadecimal n ++ rest) = literal (code (hexadecimal n).length n) rest := by
  induction n using Nat.strongRecOn generalizing rest with
  | _ n ih =>
    have hlength : (hexadecimal n).length ≤ 6 :=
      (Nat.length_toDigits_le_iff (by decide) (by decide)).mpr hn
    by_cases hlt : n < 16
    · have hone : hexadecimal n = [n.digitChar] := Nat.toDigits_of_lt_base hlt
      have hstep : (code 0 0).step n.digitChar = some (.on (code 1 n) none) := by
        simpa only [Nat.mul_zero, Nat.zero_add] using step_code 0 (Nat.succ_pos 5) hlt
      rw [hone, List.singleton_append, literal_skip hstep]
      rfl
    · have hlast : hexadecimal n = hexadecimal (n / 16) ++ [(n % 16).digitChar] :=
        Nat.toDigits_of_base_le (by decide) (by omega)
      rw [hlast, List.length_append, List.length_singleton] at hlength
      have hstep : (code (hexadecimal (n / 16)).length (n / 16)).step (n % 16).digitChar = _ :=
        step_code _ (by omega) (Nat.mod_lt n (by decide))
      rw [hlast, List.append_assoc, ih (n / 16) (by omega) (by omega), List.singleton_append,
        literal_skip hstep, List.length_append, Nat.div_add_mod]
      rfl

theorem step_escape {c e : Char} (h : shortEscape? e = some c) :
    escape.step e = some (.on plain (some c)) := by
  have hne : ∀ d : Char, shortEscape? d = none → e ≠ d := by
    rintro d hd rfl
    rw [hd] at h
    cases h
  simp [step, h, hne 'x' rfl, hne 'u' rfl, hne '\n' rfl, hne '\r' rfl]

theorem literal_shortEscape {c e : Char} (h : shortEscape? e = some c) (rest : List Char) :
    literal plain ('\\' :: e :: rest) = (literal plain rest).map fun r => (c :: r.1, r.2) := by
  have hopen : plain.step '\\' = some (.on escape none) := by decide
  rw [literal_skip hopen, literal_on (step_escape h)]
  rfl

theorem literal_codePoint (c : Char) (rest : List Char) :
    literal plain ('\\' :: 'u' :: '\x7b' :: (hexadecimal c.toNat ++ '\x7d' :: rest)) =
      (literal plain rest).map fun r => (c :: r.1, r.2) := by
  have hopen : plain.step '\\' = some (.on escape none) := by decide
  have hcode : escape.step 'u' = some (.on brace none) := by decide
  have hbrace : brace.step '\x7b' = some (.on (code 0 0) none) := by decide
  have hvalid : c.toNat.isValidChar := c.valid
  have hpos : 0 < (hexadecimal c.toNat).length := Nat.length_toDigits_pos
  have hclose : (code (hexadecimal c.toNat).length c.toNat).step '\x7d' =
      some (.on plain (some c)) := by
    simp only [step, if_true, if_pos (And.intro hpos hvalid), Char.ofNat_toNat]
  have hlt : c.toNat < Nat.pow 16 6 := by
    have hpow : Nat.pow 16 6 = 16777216 := rfl
    rcases hvalid with h | h <;> omega
  rw [literal_skip hopen, literal_skip hcode, literal_skip hbrace, literal_hexadecimal hlt,
    literal_on hclose]
  rfl

theorem literal_escaped_char (c : Char) (rest : List Char) :
    literal plain (escaped c ++ rest) = (literal plain rest).map fun r => (c :: r.1, r.2) := by
  rw [escaped]
  split_ifs with hquote hslash htab hreturn hfeed hnull hitself
  · exact literal_shortEscape (by rw [hquote]; rfl) rest
  · exact literal_shortEscape (by rw [hslash]; rfl) rest
  · exact literal_shortEscape (by rw [htab]; rfl) rest
  · exact literal_shortEscape (by rw [hreturn]; rfl) rest
  · exact literal_shortEscape (by rw [hfeed]; rfl) rest
  · have hc : c = '\x00' := Char.toNat_inj.mp hnull
    exact literal_shortEscape (by rw [hc]; rfl) rest
  · have hstep : plain.step c = some (.on plain (some c)) := by
      simp [step, stepPlain, hquote, hslash, hreturn]
    exact literal_on hstep rest
  · have hcode := literal_codePoint c rest
    simpa using hcode

/-- Whatever was quoted is read back, in front of any text. -/
theorem literal_escaped (s rest : List Char) :
    literal plain (s.flatMap escaped ++ '"' :: rest) = some (s, rest) := by
  induction s with
  | nil => rfl
  | cons c s ih =>
    rw [List.flatMap_cons, List.append_assoc, literal_escaped_char, ih]
    rfl

end SchemaCompiler.Text
