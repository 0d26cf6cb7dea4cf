/-! ASCII letters and digits. What they have in common is found by going through ASCII. -/

namespace SchemaCompiler.Naming

variable {c : Char}

theorem isAlpha_eq (c : Char) : c.isAlpha = (c.isUpper || c.isLower) := rfl

theorem isAlphanum_eq (c : Char) : c.isAlphanum = (c.isUpper || c.isLower || c.isDigit) := rfl

theorem isUpper_iff : c.isUpper = true ↔ 65 ≤ c.toNat ∧ c.toNat ≤ 90 := by
  have h : c.isUpper = true ↔ 'A'.val ≤ c.val ∧ c.val ≤ 'Z'.val := decide_eq_true_iff
  rw [h, UInt32.le_iff_toNat_le, UInt32.le_iff_toNat_le]
  rfl

theorem isLower_iff : c.isLower = true ↔ 97 ≤ c.toNat ∧ c.toNat ≤ 122 := by
  have h : c.isLower = true ↔ 'a'.val ≤ c.val ∧ c.val ≤ 'z'.val :=
    Bool.and_eq_true_iff.trans (and_congr decide_eq_true_iff decide_eq_true_iff)
  rw [h, UInt32.le_iff_toNat_le, UInt32.le_iff_toNat_le]
  rfl

theorem isDigit_iff : c.isDigit = true ↔ 48 ≤ c.toNat ∧ c.toNat ≤ 57 := Char.isDigit_iff_toNat

theorem ascii_of_isAlphanum (h : c.isAlphanum = true) : c.toNat < 128 := by
  simp only [isAlphanum_eq, Bool.or_eq_true, isUpper_iff, isLower_iff, isDigit_iff] at h
  omega

theorem of_alphanum {P : Char → Prop}
    (h : ∀ n < 128, (Char.ofNat n).isAlphanum = true → P (Char.ofNat n)) (hc : c.isAlphanum = true) :
    P c := by
  have hall := h c.toNat (ascii_of_isAlphanum hc)
  rw [Char.ofNat_toNat] at hall
  exact hall hc

theorem not_alphanum_underscore : '_'.isAlphanum = false := by decide

theorem ne_underscore (h : c.isAlphanum = true) : c ≠ '_' := by
  rintro rfl
  cases not_alphanum_underscore.symm.trans h

theorem isAlphanum_of_isUpper (h : c.isUpper = true) : c.isAlphanum = true := by
  simp [isAlphanum_eq, h]

theorem isAlphanum_of_isLower (h : c.isLower = true) : c.isAlphanum = true := by
  simp [isAlphanum_eq, h]

theorem isAlphanum_of_isDigit (h : c.isDigit = true) : c.isAlphanum = true := by
  simp [isAlphanum_eq, h]

theorem not_isLower_of_isUpper (h : c.isUpper = true) : c.isLower = false := by
  rw [isUpper_iff] at h
  rw [← Bool.not_eq_true, isLower_iff]
  omega

theorem not_isAlpha_of_isDigit (h : c.isDigit = true) : c.isAlpha = false := by
  rw [isDigit_iff] at h
  rw [← Bool.not_eq_true, isAlpha_eq, Bool.or_eq_true, isUpper_iff, isLower_iff]
  omega

/-! Letters and digits in lower and upper case. -/

theorem toLower_of_not_isUpper (h : ¬c.isUpper = true) : c.toLower = c :=
  dif_neg fun hletter => h (decide_eq_true hletter)

theorem toUpper_of_not_isLower (h : ¬c.isLower = true) : c.toUpper = c :=
  dif_neg fun hletter => h (Bool.and_eq_true_iff.mpr
    ⟨decide_eq_true hletter.1, decide_eq_true hletter.2⟩)

theorem toUpper_of_isLower (h : c.isLower = true) : c.toUpper = Char.ofNat (c.toNat - 32) :=
  of_alphanum (P := fun c => c.isLower = true → c.toUpper = Char.ofNat (c.toNat - 32)) (by decide)
    (isAlphanum_of_isLower h) h

theorem not_isLower_toUpper (c : Char) : c.toUpper.isLower = false := by
  by_cases h : c.isLower = true
  · exact of_alphanum (P := fun c => c.toUpper.isLower = false) (by decide) (isAlphanum_of_isLower h)
  · rwa [toUpper_of_not_isLower h, ← Bool.not_eq_true]

theorem not_isUpper_toLower (h : c.isAlphanum = true) : c.toLower.isUpper = false :=
  of_alphanum (P := fun c => c.toLower.isUpper = false) (by decide) h

theorem toUpper_toLower (h : c.isAlphanum = true) : c.toLower.toUpper = c.toUpper :=
  of_alphanum (P := fun c => c.toLower.toUpper = c.toUpper) (by decide) h

theorem isAlpha_toLower (h : c.isAlphanum = true) : c.toLower.isAlpha = c.isAlpha :=
  of_alphanum (P := fun c => c.toLower.isAlpha = c.isAlpha) (by decide) h

theorem isAlpha_toUpper (h : c.isAlphanum = true) : c.toUpper.isAlpha = c.isAlpha :=
  of_alphanum (P := fun c => c.toUpper.isAlpha = c.isAlpha) (by decide) h

theorem isAlphanum_toLower (h : c.isAlphanum = true) : c.toLower.isAlphanum = true :=
  of_alphanum (P := fun c => c.toLower.isAlphanum = true) (by decide) h

theorem isAlphanum_toUpper (h : c.isAlphanum = true) : c.toUpper.isAlphanum = true :=
  of_alphanum (P := fun c => c.toUpper.isAlphanum = true) (by decide) h

/-- A number is written with digits, and with one at least. -/
theorem exists_digit_repr (n : Nat) : ∃ d ds, (Nat.repr n).toList = d :: ds ∧
    ∀ e ∈ d :: ds, e.isDigit = true := by
  obtain ⟨d, ds, heq⟩ := List.exists_cons_of_ne_nil (Nat.toDigits_ne_nil (n := n) (b := 10))
  refine ⟨d, ds, by rw [Nat.toList_repr, heq], fun e he => ?_⟩
  exact Nat.isDigit_of_mem_toDigits (by decide) (by decide) (heq ▸ he)

end SchemaCompiler.Naming
