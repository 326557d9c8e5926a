import TwelveBit.Text.Basic

/-!
# Journal levels

The machine and the assembler each keep a journal of what they do. A record of a journal has a
level, which says how much it matters, and a message for a reader.
-/

namespace TwelveBit

/-- How much a record of a journal matters. -/
inductive Level where
  /-- Something went wrong, or may not be what was meant. -/
  | warn
  /-- A stage of the work begins or ends. -/
  | debug
  /-- A single step of the work. -/
  | trace
  deriving DecidableEq, Repr

def Level.name : Level → Text
  | .warn => "WARN"
  | .debug => "DEBUG"
  | .trace => "TRACE"

end TwelveBit
