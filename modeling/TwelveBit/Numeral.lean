import TwelveBit.Text.Basic

/-!
# Numerals

How numbers are written and read. Octal is written with a least number of digits, filled up with
zeros; decimal is written as short as it can be. A numeral that is read may carry one plus sign and
any number of leading zeros, and every digit must be below the base.
-/

namespace TwelveBit.Numeral

/-- The octal numeral of `n`, filled up with zeros to at least `width` digits. -/
def octal (width n : Nat) : Text := Text.padStart width '0' (Nat.toDigits 8 n)

def decimal (n : Nat) : Text := Nat.toDigits 10 n

/-- A decimal numeral that always shows its sign. -/
def signedDecimal (i : Int) : Text := (if i < 0 then '-' else '+') :: decimal i.natAbs

/-- The value of a digit below the base, for bases up to ten. -/
def digit? (base : Nat) (c : Char) : Option Nat :=
  if c.isDigit ∧ c.toNat - '0'.toNat < base then some (c.toNat - '0'.toNat) else none

/-- Read digits, most significant first, on top of the value read so far. -/
def readDigits? (base : Nat) : Nat → Text → Option Nat
  | value, [] => some value
  | value, c :: rest => (digit? base c).bind fun d => readDigits? base (base * value + d) rest

def dropPlus : Text → Text
  | '+' :: rest => rest
  | t => t

/-- Read a numeral: at most one plus sign, then one or more digits. -/
def read? (base : Nat) (t : Text) : Option Nat :=
  match dropPlus t with
  | [] => none
  | digits => readDigits? base 0 digits

example : read? 8 "+0017".toList = some 15 := by decide

example : read? 8 "18".toList = none := by decide

end TwelveBit.Numeral
