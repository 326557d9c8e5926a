import TwelveBit.Instruction.Disassembly
import TwelveBit.Memory

/-!
# Windows onto memory

The words around an address, with their assembler text. A window wraps at the ends of memory, and
one that would be wider than memory goes round once.
-/

namespace TwelveBit

/-- One row of a window. -/
structure Row where
  address : Word
  word : Word
  /-- The assembler text of the word at this address. -/
  text : Text
  deriving DecidableEq, Repr

namespace Row

def ofMemory (m : Memory) (address : Word) : Row :=
  { address, word := m.get address, text := disassemble (m.get address) address }

def display (r : Row) : Text :=
  Numeral.octal 4 r.address.toNat ++ "  " ++ Numeral.octal 4 r.word.toNat ++ "  " ++ r.text

end Row

/-- The rows from `before` words ahead of `center` to `after` words past it. -/
def Memory.window (m : Memory) (center : Word) (before after : Nat) : List Row :=
  let first := center - Word.ofNat before
  (List.range (min (before + after + 1) 4096)).map fun i => .ofMemory m (first + Word.ofNat i)

end TwelveBit
