import TwelveBit.Numeral

/-!
# Numerals

What `Numeral.octal` writes is one or more digits, and `Numeral.read?` reads the number back
whatever the width (`read?_octal`). So it is with `Numeral.decimal` (`read?_decimal`). A number that
fits into a word is written with four digits exactly when four are asked for (`octal_four`): the
digits are then those of `octalDigits`, which are the quotients of the number by the powers of
eight.
-/

namespace TwelveBit.Numeral

/-! ## Digits -/

/-- A digit below the base is read as the number that it was written for. -/
theorem digit?_digitChar {base d : Nat} (hb : base ≤ 10) (hd : d < base) :
    digit? base d.digitChar = some d := by
  have hvalue : d.digitChar.toNat - '0'.toNat = d :=
    Nat.toNat_digitChar_sub_48_of_lt_ten (by omega)
  have hdigit : d.digitChar.isDigit = true := by
    rw [Nat.isDigit_digitChar]
    exact decide_eq_true (by omega)
  rw [digit?, hvalue, if_pos ⟨hdigit, hd⟩]

/-- Digits are read from left to right. -/
theorem readDigits?_append (base value : Nat) (s t : Text) :
    readDigits? base value (s ++ t) =
      (readDigits? base value s).bind fun v => readDigits? base v t := by
  induction s generalizing value with
  | nil => rfl
  | cons c s ih =>
      rw [List.cons_append, readDigits?, readDigits?]
      cases digit? base c with
      | none => rfl
      | some d => exact ih _

/-- Zeros at the front count for nothing. -/
theorem readDigits?_zeros {base : Nat} (hb : 0 < base) (hb' : base ≤ 10) (k : Nat) :
    readDigits? base 0 (List.replicate k '0') = some 0 := by
  induction k with
  | zero => rfl
  | succ k ih =>
      rw [List.replicate_succ, readDigits?, show '0' = Nat.digitChar 0 from rfl,
        digit?_digitChar hb' hb]
      exact ih

/-- The digits of a number are read as the number. -/
theorem readDigits?_toDigits {base : Nat} (hb : 1 < base) (hb' : base ≤ 10) (n : Nat) :
    readDigits? base 0 (Nat.toDigits base n) = some n := by
  induction n using Nat.strongRecOn with
  | ind n ih =>
      rw [Nat.toDigits_eq_if hb]
      split
      · next hn =>
          rw [readDigits?, digit?_digitChar hb' hn]
          simp [readDigits?]
      · next hn =>
          have hlt : n / base < n := Nat.div_lt_self (by omega) hb
          have hmod : n % base < base := Nat.mod_lt n (by omega)
          rw [readDigits?_append, ih _ hlt, Option.bind_some, readDigits?,
            digit?_digitChar hb' hmod, Option.bind_some, readDigits?, Nat.div_add_mod]

/-- Digits are read without anything being dropped at the front. -/
theorem read?_of_isDigit {base : Nat} {t : Text} (hne : t ≠ []) (h : ∀ c ∈ t, c.isDigit = true) :
    read? base t = readDigits? base 0 t := by
  obtain ⟨c, rest, rfl⟩ := List.exists_cons_of_ne_nil hne
  have hc := h c List.mem_cons_self
  have hplus : dropPlus (c :: rest) = c :: rest := by
    rw [dropPlus]
    rintro t ht
    rw [List.cons.injEq] at ht
    rw [ht.1] at hc
    exact absurd hc (by decide)
  rw [read?, hplus]

/-! ## What is written in octal -/

theorem octal_ne_nil (width n : Nat) : octal width n ≠ [] := by
  simp [octal, Text.padStart]

/-- Only digits are written. -/
theorem isDigit_of_mem_octal {width n : Nat} {c : Char} (hc : c ∈ octal width n) :
    c.isDigit = true := by
  rcases List.mem_append.mp hc with hzero | hdigit
  · rw [List.eq_of_mem_replicate hzero]
    rfl
  · exact Nat.isDigit_of_mem_toDigits (by decide) (by decide) hdigit

/-- Reading undoes writing, at every width. -/
theorem read?_octal (width n : Nat) : read? 8 (octal width n) = some n := by
  rw [read?_of_isDigit (octal_ne_nil width n) fun _ hc => isDigit_of_mem_octal hc, octal,
    Text.padStart, readDigits?_append, readDigits?_zeros (by decide) (by decide), Option.bind_some,
    readDigits?_toDigits (by decide) (by decide)]

/-! ## What is written in decimal -/

theorem decimal_ne_nil (n : Nat) : decimal n ≠ [] := Nat.toDigits_ne_nil

theorem isDigit_of_mem_decimal {n : Nat} {c : Char} (hc : c ∈ decimal n) : c.isDigit = true :=
  Nat.isDigit_of_mem_toDigits (by decide) (by decide) hc

theorem read?_decimal (n : Nat) : read? 10 (decimal n) = some n := by
  rw [read?_of_isDigit (decimal_ne_nil n) fun _ hc => isDigit_of_mem_decimal hc, decimal,
    readDigits?_toDigits (by decide) (by decide)]

/-! ## Four digits -/

/-- The last four octal digits of a number, most significant first. -/
def octalDigits (n : Nat) : Text :=
  [n / 512 % 8, n / 64 % 8, n / 8 % 8, n % 8].map Nat.digitChar

/-- A number of twelve bits has the four digits of `octalDigits`. -/
theorem octal_four {n : Nat} (hn : n < 4096) : octal 4 n = octalDigits n := by
  have hdiv (m : Nat) (hm : 8 ≤ m) := Nat.toDigits_of_base_le (n := m) (b := 8) (by decide) hm
  have hlast (m : Nat) (hm : m < 8) := Nat.toDigits_of_lt_base (n := m) (b := 8) hm
  -- one case for each number of digits that are not padding
  rcases Nat.lt_or_ge n 8 with h₁ | h₁
  · rw [octal, hlast n h₁]
    have : n / 512 % 8 = 0 ∧ n / 64 % 8 = 0 ∧ n / 8 % 8 = 0 ∧ n % 8 = n := by omega
    simp [octalDigits, Text.padStart, this, List.replicate]
  rcases Nat.lt_or_ge n 64 with h₂ | h₂
  · rw [octal, hdiv n h₁, hlast (n / 8) (by omega)]
    have : n / 512 % 8 = 0 ∧ n / 64 % 8 = 0 ∧ n / 8 % 8 = n / 8 := by omega
    simp [octalDigits, Text.padStart, this, List.replicate]
  rcases Nat.lt_or_ge n 512 with h₃ | h₃
  · rw [octal, hdiv n h₁, hdiv (n / 8) (by omega), hlast (n / 8 / 8) (by omega)]
    have : n / 512 % 8 = 0 ∧ n / 64 % 8 = n / 8 / 8 := by omega
    simp [octalDigits, Text.padStart, this]
  · rw [octal, hdiv n h₁, hdiv (n / 8) (by omega), hdiv (n / 8 / 8) (by omega),
      hlast (n / 8 / 8 / 8) (by omega)]
    have : n / 512 % 8 = n / 8 / 8 / 8 ∧ n / 64 % 8 = n / 8 / 8 % 8 := by omega
    simp [octalDigits, Text.padStart, this]

example : octal 4 0o17 = "0017".toList := by decide

end TwelveBit.Numeral
