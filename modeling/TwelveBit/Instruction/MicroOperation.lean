import TwelveBit.Instruction.Basic

/-!
# Micro-operations

An operate instruction names several micro-operations, one by each of its bits, and they are carried
out together in a fixed order. `GroupOne.ofWord` and `GroupTwo.ofWord` read the bits of a word; the
operation code and the bit that tells the groups apart are not looked at.
-/

namespace TwelveBit

/-- The micro-operations of the first group. -/
structure GroupOne where
  clear : Bool
  clearLink : Bool
  complement : Bool
  complementLink : Bool
  right : Bool
  left : Bool
  /-- Rotate by two places and not by one. -/
  twice : Bool
  increment : Bool
  deriving DecidableEq, Repr

/-- The micro-operations that the bits of a word name in the first group. -/
def GroupOne.ofWord (w : Word) : GroupOne where
  clear := w.getLsbD 7
  clearLink := w.getLsbD 6
  complement := w.getLsbD 5
  complementLink := w.getLsbD 4
  right := w.getLsbD 3
  left := w.getLsbD 2
  twice := w.getLsbD 1
  increment := w.getLsbD 0

/-- The micro-operations of the second group. -/
structure GroupTwo where
  clear : Bool
  sign : Bool
  zero : Bool
  link : Bool
  /-- Skip if the opposite of every test holds, and not if some test holds. -/
  opposite : Bool
  switches : Bool
  halt : Bool
  deriving DecidableEq, Repr

/-- The micro-operations that the bits of a word name in the second group. -/
def GroupTwo.ofWord (w : Word) : GroupTwo where
  clear := w.getLsbD 7
  sign := w.getLsbD 6
  zero := w.getLsbD 5
  link := w.getLsbD 4
  opposite := w.getLsbD 3
  switches := w.getLsbD 2
  halt := w.getLsbD 1

end TwelveBit
