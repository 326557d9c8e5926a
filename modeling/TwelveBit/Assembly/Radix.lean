import TwelveBit.Assembly.Error

/-!
# Literals

A literal is a numeral of a word, in the radix that is in force where it stands.
-/

namespace TwelveBit.Assembly

/-- The base in which numerals are read. -/
inductive Radix where
  | octal
  | decimal
  deriving DecidableEq, Repr

namespace Radix

def base : Radix → Nat
  | octal => 8
  | decimal => 10

def word? (radix : Radix) (numeral : Text) : Option Word :=
  match Numeral.read? radix.base numeral with
  | some n => if n < 4096 then some (Word.ofNat n) else none
  | none => none

/-- The word that a numeral stands for, or that it stands for none. -/
def literal (radix : Radix) (numeral : Text) : Except Error Word :=
  match radix.word? numeral with
  | some w => .ok w
  | none => .error (.invalidLiteral numeral)

end Radix

example : Radix.octal.word? "7777" = some 0o7777 := by decide

example : Radix.decimal.word? "4096" = none := by decide

end TwelveBit.Assembly
