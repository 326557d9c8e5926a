import Mathlib.Data.Nat.Digits.Defs
import TwelveBit.Proofs.Failure
import TwelveBit.Proofs.Reading

/-!
# Numerals and their values

A numeral may have any number of digits. `Numeral.IsNumeral` says which text is a numeral of which
number: a number is written with digits below the base, and the digits have the value that
`Nat.ofDigits` gives them. There is no reading from left to right in it, no limit and no overflow.

`Numeral.read?` reads the numerals of a base and nothing else (`read?_eq_some_iff`). Bounds are for
those who ask for a number: a literal of assembler text stands for a word, so its value is below
4096 (`Radix.literal_numerals`).
-/

namespace TwelveBit

namespace Numeral

variable {base n d value : Nat} {c : Char} {t : Text}

/-- A text is a numeral of a number: one or more digits below the base, the most significant first,
whose value is the number, with one plus sign in front of them or none. -/
def IsNumeral (base : Nat) (t : Text) (n : Nat) : Prop :=
  ∃ digits : List Nat, digits ≠ [] ∧ (∀ d ∈ digits, d < base) ∧
    (t = digits.map Nat.digitChar ∨ t = '+' :: digits.map Nat.digitChar) ∧
    n = Nat.ofDigits base digits.reverse

/-! ## Digits -/

/-- The character of a digit is the one that the digit is written with. -/
theorem digitChar_of_isDigit (h : c.isDigit = true) :
    Nat.digitChar (c.toNat - '0'.toNat) = c := by
  have hwritten : ∀ d < 10, Nat.digitChar d = Char.ofNat (d + '0'.toNat) := by decide
  obtain ⟨hlow, hhigh⟩ := Char.isDigit_iff_toNat.mp h
  have hten : c.toNat - '0'.toNat < 10 := Nat.sub_lt_left_of_lt_add hlow (Nat.lt_succ_of_le hhigh)
  rw [hwritten _ hten, Nat.sub_add_cancel hlow, Char.ofNat_toNat]

theorem digit?_eq_some_iff (hb : base ≤ 10) :
    digit? base c = some d ↔ d < base ∧ c = d.digitChar := by
  constructor
  · intro h
    rw [digit?] at h
    split at h
    · next hdigit =>
        cases h
        exact ⟨hdigit.2, (digitChar_of_isDigit hdigit.1).symm⟩
    · cases h
  · rintro ⟨hd, rfl⟩
    exact digit?_digitChar hb hd

/-- Digits are read on top of a value if they are digits of the base, and then as they are written:
each of them makes what stands in front of it worth `base` times as much. -/
theorem readDigits?_eq_some_iff (hb : base ≤ 10) :
    readDigits? base value t = some n ↔
      ∃ digits : List Nat, (∀ d ∈ digits, d < base) ∧ t = digits.map Nat.digitChar ∧
        n = digits.foldl (fun v d => d + base * v) value := by
  induction t generalizing value with
  | nil =>
      constructor
      · rintro ⟨⟩
        exact ⟨[], List.forall_mem_nil _, rfl, rfl⟩
      · rintro ⟨digits, -, hnil, rfl⟩
        rw [List.map_eq_nil_iff.mp hnil.symm]
        rfl
  | cons c rest ih =>
      rw [readDigits?, Option.bind_eq_some_iff]
      simp only [digit?_eq_some_iff hb, ih, Nat.add_comm (base * value)]
      constructor
      · rintro ⟨d, ⟨hd, rfl⟩, digits, hbelow, rfl, rfl⟩
        exact ⟨d :: digits, List.forall_mem_cons.mpr ⟨hd, hbelow⟩, rfl, rfl⟩
      · rintro ⟨digits, hbelow, hwritten, rfl⟩
        obtain ⟨d, digits, rfl, rfl, rfl⟩ := List.map_eq_cons_iff.mp hwritten.symm
        obtain ⟨hd, hbelow⟩ := List.forall_mem_cons.mp hbelow
        exact ⟨d, ⟨hd, rfl⟩, digits, hbelow, rfl, rfl⟩

/-! ## Numerals -/

/-- At most one plus sign is dropped. -/
theorem eq_or_eq_cons_dropPlus (t : Text) : t = dropPlus t ∨ t = '+' :: dropPlus t := by
  fun_cases dropPlus t with
  | case1 rest => exact .inr rfl
  | case2 => exact .inl rfl

theorem read?_eq_readDigits? (h : dropPlus t ≠ []) :
    read? base t = readDigits? base 0 (dropPlus t) := by
  obtain ⟨c, rest, hcons⟩ := List.exists_cons_of_ne_nil h
  rw [read?, hcons]

/-- **Exactly the numerals of a base are read**, each as its number. -/
theorem read?_eq_some_iff (hb : base ≤ 10) : read? base t = some n ↔ IsNumeral base t n := by
  have hvalue (digits : List Nat) :
      digits.foldl (fun v d => d + base * v) 0 = Nat.ofDigits base digits.reverse := by
    rw [Nat.ofDigits_eq_foldr, List.foldr_reverse]
    rfl
  constructor
  · intro h
    have hne : dropPlus t ≠ [] := fun hnil => by
      rw [read?, hnil] at h
      cases h
    rw [read?_eq_readDigits? hne] at h
    obtain ⟨digits, hbelow, hwritten, rfl⟩ := (readDigits?_eq_some_iff hb).mp h
    refine ⟨digits, ?_, hbelow, ?_, hvalue digits⟩
    · rintro rfl
      exact hne hwritten
    · rw [← hwritten]
      exact eq_or_eq_cons_dropPlus t
  · rintro ⟨digits, hne, hbelow, hwritten, rfl⟩
    have hread : readDigits? base 0 (digits.map Nat.digitChar) =
        some (Nat.ofDigits base digits.reverse) :=
      (readDigits?_eq_some_iff hb).mpr ⟨digits, hbelow, rfl, (hvalue digits).symm⟩
    have hne' : digits.map Nat.digitChar ≠ [] := mt List.map_eq_nil_iff.mp hne
    rcases hwritten with rfl | rfl
    · -- no digit is a plus sign
      rw [read?_of_isDigit hne', hread]
      intro c hc
      obtain ⟨d, hd, rfl⟩ := List.mem_map.mp hc
      rw [Nat.isDigit_digitChar]
      exact decide_eq_true (Nat.lt_of_lt_of_le (hbelow d hd) hb)
    · rw [read?_eq_readDigits? (t := '+' :: _) hne']
      exact hread

end Numeral

namespace Assembly

open Numeral (IsNumeral)

namespace Radix

variable {radix : Radix} {text : Text} {w : Word}

theorem base_le (radix : Radix) : radix.base ≤ 10 := by cases radix <;> decide

/-- The word of a numeral is its number, which must not be too large. -/
theorem word?_eq_some_iff : radix.word? text = some w ↔ IsNumeral radix.base text w.toNat := by
  rw [← Numeral.read?_eq_some_iff radix.base_le, word?]
  cases Numeral.read? radix.base text with
  | none => exact iff_of_false (fun h => by cases h) (fun h => by cases h)
  | some n =>
      dsimp only
      rw [Option.some.injEq]
      split
      · next hn =>
          rw [Option.some.injEq]
          constructor
          · rintro rfl
            exact (Word.toNat_ofNat_of_lt hn).symm
          · rintro rfl
            exact Word.ofNat_toNat w
      · next hn =>
          refine iff_of_false (fun h => by cases h) ?_
          rintro rfl
          exact hn w.isLt

theorem literal_eq_ok_iff : radix.literal text = .ok w ↔ IsNumeral radix.base text w.toNat := by
  rw [← word?_eq_some_iff, literal]
  cases radix.word? text <;> simp

/-- A numeral of a larger number stands for no word, however long it is. -/
theorem word?_eq_none_iff :
    radix.word? text = none ↔ ∀ v ≤ 0o7777, ¬ IsNumeral radix.base text v := by
  rw [Option.eq_none_iff_forall_ne_some]
  constructor
  · intro h v hv hnumeral
    refine h (Word.ofNat v) (word?_eq_some_iff.mpr ?_)
    rwa [Word.toNat_ofNat_of_lt (Nat.lt_succ_of_le hv)]
  · intro h w hw
    exact h w.toNat (Nat.le_of_lt_succ w.isLt) (word?_eq_some_iff.mp hw)

/-- **A literal is a numeral of a word.** A text is a literal of a radix exactly if it is one or
more digits of the radix, behind one plus sign or none, whose value is at most 7777 in octal; this
value is what it stands for. The number of digits and of zeros among them does not matter. Any other
text is an invalid literal, as a whole. So the octal numeral of every word stands for the word,
whatever the width to which it is filled up. -/
theorem literal_numerals :
    (∀ (radix : Radix) (text : Text) (v : Nat),
      (radix.literal text).map BitVec.toNat = .ok v ↔
        IsNumeral radix.base text v ∧ v ≤ 0o7777) ∧
    (∀ (radix : Radix) (text : Text) (e : Error), radix.literal text = .error e ↔
      e = .invalidLiteral text ∧ ∀ v ≤ 0o7777, ¬ IsNumeral radix.base text v) ∧
    ∀ (width : Nat) (w : Word), octal.literal (Numeral.octal width w.toNat) = .ok w := by
  refine ⟨fun radix text v => ?_, fun radix text e => ?_, literal_octal⟩
  · constructor
    · intro h
      cases hliteral : radix.literal text with
      | error e =>
          rw [hliteral] at h
          cases h
      | ok w =>
          rw [hliteral] at h
          cases h
          exact ⟨literal_eq_ok_iff.mp hliteral, Nat.le_of_lt_succ w.isLt⟩
    · rintro ⟨hnumeral, hv⟩
      have hword : (Word.ofNat v).toNat = v := Word.toNat_ofNat_of_lt (Nat.lt_succ_of_le hv)
      rw [← hword] at hnumeral
      rw [literal_eq_ok_iff.mpr hnumeral]
      exact congrArg Except.ok hword
  · rw [literal_eq_error_iff, word?_eq_none_iff, and_comm]

/-- Zeros are no overflow, and what overflows does not come round to a word again. -/
example : octal.literal "+00000000000000000000017" = .ok 0o17 ∧
    decimal.literal "18446744073709551633" = .error (.invalidLiteral "18446744073709551633") :=
  ⟨rfl, rfl⟩

end Radix

end Assembly

end TwelveBit
