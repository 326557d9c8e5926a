import TwelveBit.Assembly.Statement

/-!
# Encoding

The word that a statement emits. A memory reference has room for an offset only, so its operand must
be on page zero or on the page of the instruction. `encodeReference` chooses between the two by
itself; a `Z` that is written chooses page zero and takes the offset of any operand.
-/

namespace TwelveBit.Assembly

/-- The word of a memory reference at `location` to `address`. -/
def encodeReference (opcode : Opcode) (indirect pageZero : Bool) (address location : Nat) :
    Except Error Word :=
  let target := Word.ofNat address
  let own := Word.samePage target (Word.ofNat location)
  if !pageZero && !own && target.page != 0 then
    .error (.unreachable address (Word.ofNat location).page)
  else
    .ok (opcode.baseWord ||| target.offset ||| (if indirect then 0o400 else 0) |||
      (if pageZero || !own then 0o200 else 0))

/-- The word of a constant. A line that is a single unknown name was hardly meant as a constant, so
it is not recognized at all. -/
def encodeConstant (value : Expression) (location : Nat) (symbols : SymbolTable) (radix : Radix) :
    Except Error Word :=
  match value.evaluate location symbols radix with
  | .error (.undefinedSymbol name) =>
    .error (if value.name?.isSome then .unrecognized else .undefinedSymbol name)
  | result => result

/-- The word that an item emits at `location`. -/
def Item.encode (item : Item) (location : Nat) (symbols : SymbolTable) (radix : Radix) :
    Except Error Word :=
  match item with
  | .reference opcode indirect pageZero operand => do
    let address ← operand.evaluate location symbols radix
    encodeReference opcode indirect pageZero address.toNat location
  | .operate word => .ok word
  | .inputOutput word => .ok word
  | .constant value => encodeConstant value location symbols radix
  | .reserve => .ok 0

/-- The word that a statement emits at `location`, if it emits one. -/
def Statement.encode (s : Statement) (location : Nat) (symbols : SymbolTable) (radix : Radix) :
    Except Error (Option Word) :=
  match s with
  | .emit item => (item.encode location symbols radix).map some
  | _ => .ok none

end TwelveBit.Assembly
