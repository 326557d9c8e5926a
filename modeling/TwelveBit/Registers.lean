import TwelveBit.LinkAccumulator

/-!
# Registers

The program counter beside the link-accumulator. The counter is a word, so it wraps at the top of
memory.
-/

namespace TwelveBit

/-- The registers a program can observe. -/
structure Registers extends LinkAccumulator where
  pc : Word := 0
  deriving DecidableEq, Repr

namespace Registers

/-- Move the program counter one word on, past the next instruction. -/
def skip (r : Registers) : Registers := { r with pc := r.pc + 1 }

/-- Skip exactly when the condition holds. -/
def skipIf (condition : Bool) (r : Registers) : Registers := if condition then r.skip else r

end Registers

end TwelveBit
