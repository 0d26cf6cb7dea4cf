import Mathlib.Data.List.DropRight
import SchemaCompiler.Text.Basic

/-! Lines with their ends. A line ends with a line feed, and in some texts with a carriage return in
front of it, which trimming takes away like any other blank. -/

namespace SchemaCompiler.Text

theorem trimEnd_cons (c : Char) (cs : List Char) :
    trimEnd (c :: cs) = if trimEnd cs = [] ∧ isBlank c = true then [] else c :: trimEnd cs := by
  have hcons : (c :: cs).reverse = cs.reverse ++ [c] := List.reverse_cons
  rw [trimEnd, hcons, List.dropWhile_append]
  cases hrest : cs.reverse.dropWhile isBlank with
  | nil => cases hc : isBlank c <;> simp [trimEnd, hrest, hc]
  | cons d ds => simp [trimEnd, hrest]

theorem trimEnd_prefix (cs : List Char) : trimEnd cs <+: cs :=
  List.rdropWhile_prefix isBlank cs

/-! Texts in which every line is ended. -/

/-- The text in which each of the lines is ended by a line feed. -/
def ended (ls : List (List Char)) : List Char := ls.flatMap (· ++ ['\n'])

theorem ended_flatMap {α : Type} (f : α → List (List Char)) (xs : List α) :
    ended (xs.flatMap f) = xs.flatMap fun x => ended (f x) := by
  rw [ended, List.flatMap_assoc]
  rfl

theorem lines_eq_nil_iff {cs : List Char} : lines cs = [] ↔ cs = [] := by
  cases cs with
  | nil => simp [lines]
  | cons c cs =>
    rw [lines]
    split
    · simp
    · split <;> simp

theorem lines_append_feed (a b : List Char) :
    lines (a ++ '\n' :: b) = lines (a ++ ['\n']) ++ lines b := by
  induction a with
  | nil => simp [lines]
  | cons c a ih =>
    simp only [List.cons_append, lines]
    split
    · rw [ih, List.cons_append]
    · cases hfirst : lines (a ++ ['\n']) with
      | nil => simp [lines_eq_nil_iff] at hfirst
      | cons l ls => rw [ih, hfirst, List.cons_append, List.cons_append]

theorem ended_lines (cs : List Char) : ended (lines (cs ++ ['\n'])) = cs ++ ['\n'] := by
  induction cs with
  | nil => rfl
  | cons c cs ih =>
    rw [List.cons_append, lines]
    split
    · next hfeed =>
      rw [hfeed]
      exact congrArg ('\n' :: ·) ih
    · cases hfirst : lines (cs ++ ['\n']) with
      | nil => simp [lines_eq_nil_iff] at hfirst
      | cons l ls =>
        rw [hfirst] at ih
        rw [← ih]
        rfl

theorem lines_ended (ls : List (List Char)) :
    lines (ended ls) = ls.flatMap fun l => lines (l ++ ['\n']) := by
  induction ls with
  | nil => rfl
  | cons l ls ih =>
    have hcons : ended (l :: ls) = l ++ '\n' :: ended ls := by simp [ended]
    rw [hcons, lines_append_feed, ih, List.flatMap_cons]

/-- Such a text consists of its lines, even where those it was made of are several lines each. -/
theorem ended_lines_ended (ls : List (List Char)) : ended (lines (ended ls)) = ended ls := by
  rw [lines_ended, ended_flatMap]
  simp only [ended_lines]
  rfl

theorem lines_of_not_mem {l : List Char} (h : '\n' ∉ l) : lines (l ++ ['\n']) = [l] := by
  induction l with
  | nil => rfl
  | cons c l ih =>
    obtain ⟨hc, hl⟩ := List.ne_and_not_mem_of_not_mem_cons h
    rw [List.cons_append, lines, if_neg (Ne.symm hc), ih hl]

theorem not_mem_of_mem_lines {cs l : List Char} (h : l ∈ lines cs) : '\n' ∉ l := by
  induction cs generalizing l with
  | nil => cases h
  | cons c cs ih =>
    rw [lines] at h
    split at h
    · rcases List.mem_cons.mp h with rfl | h
      · exact List.not_mem_nil
      · exact ih h
    · next hc =>
      split at h
      · rw [List.mem_singleton.mp h, List.mem_singleton]
        exact Ne.symm hc
      · next l' ls hrest =>
        rw [hrest] at ih
        rcases List.mem_cons.mp h with rfl | h
        · exact List.not_mem_cons_of_ne_of_not_mem (Ne.symm hc) (ih List.mem_cons_self)
        · exact ih (List.mem_cons_of_mem _ h)

/-! Lines that may end with a carriage return and a line feed. -/

/-- The lines of a text in which either a line feed or a carriage return with a line feed ends a line. An
end at the very end opens no further line. -/
def rows : List Char → List (List Char)
  | [] => []
  | '\r' :: '\n' :: cs => [] :: rows cs
  | c :: cs =>
    if c = '\n' then [] :: rows cs
    else
      match rows cs with
      | [] => [[c]]
      | l :: ls => (c :: l) :: ls

/-- Once blanks are trimmed off, it does not matter which of the two ends a line. -/
theorem map_trimEnd_rows (cs : List Char) : (rows cs).map trimEnd = (lines cs).map trimEnd := by
  induction cs using rows.induct with
  | case1 => rfl
  | case2 cs ih =>
    have hreturn : trimEnd ['\r'] = trimEnd [] := by decide
    simp only [rows, lines, Char.reduceEq, if_false, if_true, List.map_cons, ih, hreturn]
  | case3 cs _ ih => simp only [rows, lines, if_true, List.map_cons, ih]
  | case4 c cs hnext hc hrows ih =>
    have hlines : lines cs = [] := by simpa [hrows] using ih.symm
    simp only [rows, lines, hc, if_false, hrows, hlines]
  | case5 c cs hnext hc l ls hrows ih =>
    rw [hrows, List.map_cons] at ih
    obtain ⟨l', ls', hlines, hl, hls⟩ := List.map_eq_cons_iff.mp ih.symm
    simp only [rows, lines, hc, if_false, hrows, hlines, List.map_cons, trimEnd_cons, hl, hls]

end SchemaCompiler.Text
