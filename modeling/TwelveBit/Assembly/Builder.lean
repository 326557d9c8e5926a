import TwelveBit.Assembly.Encoding
import TwelveBit.Memory

/-!
# Building an image

A builder puts words into an image of memory, one after another. It knows where the next word goes,
which names have been defined, and in which radix numerals are read. Its counter may stand one past
the last word of memory: then no word can be emitted and no name defined until an origin moves it.

Work on a builder may fail, and leaves a builder behind also then. So it looks before it changes
anything.

`Builder.restart` goes back to the beginning and keeps the names, which is what a second pass needs.
-/

namespace TwelveBit.Assembly

/-- An image of memory in the making. -/
structure Builder where
  image : Memory := .cleared
  /-- Where the next word goes: an address, or 4096 past the end of memory. -/
  counter : Nat := 0
  symbols : SymbolTable := {}
  radix : Radix := .octal
  deriving DecidableEq

namespace Builder

instance : Inhabited Builder := ⟨{}⟩

/-- Forget everything but the names. -/
def restart (b : Builder) : Builder := { symbols := b.symbols }

def reset (_ : Builder) : Builder := {}

/-- The address at which the next word goes. -/
def location (b : Builder) : Except Error Word :=
  if b.counter < 4096 then .ok (Word.ofNat b.counter) else .error .overflow

/-- Go on at another address. -/
def moveTo (b : Builder) (address : Nat) : Builder :=
  { b with counter := (Word.ofNat address).toNat }

def setRadix (b : Builder) (radix : Radix) : Builder := { b with radix }

/-- The word of an item at the place of the next word. -/
def encode (b : Builder) (item : Item) : Except Error Word :=
  match b.location with
  | .error e => .error e
  | .ok address => item.encode address.toNat b.symbols b.radix

end Builder

/-! ## Work that may fail -/

/-- Work on a builder that may end in an error. What it has done to the builder by then is done. -/
abbrev Building := EStateM Error Builder

namespace Builder

/-- Put a word into the image, and answer where. -/
def emit (word : Nat) : Building Word := do
  let address ← ofExcept (← get).location
  modify fun b => { b with image := b.image.set address (Word.ofNat word) }
  modify fun b => { b with counter := b.counter + 1 }
  return address

theorem emit_eq (word : Nat) (b : Builder) :
    emit word b =
      match b.location with
      | .error e => .error e b
      | .ok address =>
        .ok address { b with
          image := b.image.set address (Word.ofNat word)
          counter := b.counter + 1 } := by
  show EStateM.bind (ofExcept b.location) _ b = _
  cases b.location <;> rfl

/-- Let a name stand for the place of the next word, and answer what is redefined by that. -/
def define (name : Text) (line : Nat) : Building (Option Redefinition) := do
  let address ← ofExcept (← get).location
  let symbol : Symbol := { address := address.toNat, line }
  let redefinition := (← get).symbols.redefinition? name symbol
  modify fun b => { b with symbols := b.symbols.insert name symbol }
  return redefinition

theorem define_eq (name : Text) (line : Nat) (b : Builder) :
    define name line b =
      match b.location with
      | .error e => .error e b
      | .ok address =>
        .ok (b.symbols.redefinition? name ⟨address.toNat, line⟩)
          { b with symbols := b.symbols.insert name ⟨address.toNat, line⟩ } := by
  show EStateM.bind (ofExcept b.location) _ b = _
  cases b.location <;> rfl

/-- What a statement does to the builder besides emitting a word. -/
def place (s : Statement) : Building Unit := do
  match s with
  | .origin digits =>
    let address ← ofExcept ((← get).radix.literal digits)
    modify (·.moveTo address.toNat)
  | .radix radix => modify (·.setRadix radix)
  | _ => pure ()

theorem place_origin_eq (digits : Text) (b : Builder) :
    place (.origin digits) b =
      match b.radix.literal digits with
      | .error e => .error e b
      | .ok address => .ok () (b.moveTo address.toNat) := by
  show EStateM.bind (ofExcept (b.radix.literal digits)) _ b = _
  cases b.radix.literal digits <;> rfl

/-! ### What the two passes ask of a builder -/

def label (name : Option Text) (line : Nat) : Building (Option Redefinition) :=
  match name with
  | none => pure none
  | some name => define name line

/-- Carry out a statement, with a zero in place of the word that it emits. -/
def makeRoom (s : Statement) : Building Unit :=
  match s with
  | .emit _ => discard (emit 0)
  | s => place s

/-- Carry out a statement, and answer the word that it emits with its address. -/
def fill (s : Statement) : Building (Option (Word × Word)) := do
  match s with
  | .emit item =>
    let word ← ofExcept ((← get).encode item)
    let address ← emit word.toNat
    return some (address, word)
  | s =>
    place s
    return none

end Builder

end TwelveBit.Assembly
