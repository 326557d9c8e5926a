/-!
# The keyboard with its reader

A device that is there and does nothing: no key is ever struck, so its flag is never set.
-/

namespace TwelveBit.Reader

/-- Whether a transfer skips the next instruction. -/
def skips (_operation : BitVec 3) : Bool := false

end TwelveBit.Reader
