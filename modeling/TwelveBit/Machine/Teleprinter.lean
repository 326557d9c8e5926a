import TwelveBit.Text.Basic

/-!
# The teleprinter

The one device that prints. Its flag is set when a character has been printed, and a program waits
for it by skipping on it. The three bits of a transfer are taken in order: test the flag, clear it,
print.
-/

namespace TwelveBit

/-- The teleprinter with what it has printed. -/
structure Teleprinter where
  ready : Bool := false
  printed : Array Char := #[]
  deriving DecidableEq, Repr

namespace Teleprinter

def output (t : Teleprinter) : Text := t.printed.toList

/-- Tear off what has been printed. -/
def tearOff (t : Teleprinter) : Teleprinter := { t with printed := #[] }

/-- The character that a number prints: its low seven bits. -/
def character (ac : Nat) : Char := Char.ofNat (ac % 128)

/-- Print a character and set the flag. Zero sets the flag and prints nothing. -/
def print (ac : Nat) (t : Teleprinter) : Teleprinter where
  ready := true
  printed := if ac = 0 then t.printed else t.printed.push (character ac)

/-- Whether a transfer skips the next instruction: the flag counts as it was before. -/
def skips (operation : BitVec 3) (t : Teleprinter) : Bool := operation.getLsbD 0 && t.ready

/-- The teleprinter after a transfer. -/
def transfer (operation : BitVec 3) (ac : Nat) (t : Teleprinter) : Teleprinter :=
  let t := if operation.getLsbD 1 then { t with ready := false } else t
  if operation.getLsbD 2 then t.print ac else t

/-- What printing adds to the output. -/
theorem output_print (ac : Nat) (t : Teleprinter) :
    (t.print ac).output = t.output ++ if ac ≠ 0 then [character ac] else [] := by
  by_cases hzero : ac = 0
  · simp [output, print, hzero]
  · simp [output, print, hzero]

/-- What a transfer adds to the output. -/
theorem output_transfer (operation : BitVec 3) (ac : Nat) (t : Teleprinter) :
    (t.transfer operation ac).output =
      t.output ++ if operation.getLsbD 2 ∧ ac ≠ 0 then [character ac] else [] := by
  have hcleared : (if operation.getLsbD 1 then { t with ready := false } else t).output =
      t.output := by
    cases operation.getLsbD 1 with
    | false => rfl
    | true => rfl
  rw [transfer]
  cases operation.getLsbD 2 with
  | false => simpa using hcleared
  | true => simp only [if_true, output_print, hcleared, true_and]

end Teleprinter

end TwelveBit
