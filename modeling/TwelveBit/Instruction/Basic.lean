import TwelveBit.Text.Basic
import TwelveBit.Word

/-!
# Instructions

An instruction is a word whose high three bits are its operation code. The meaning of the other nine
bits depends on the code:

    0 to 5   memory reference   indirect (1), page zero (1), offset (7)
    6        input and output   device (6), operation (3)
    7        operate            group (1), micro-operations (8)

The six memory references come first, so that `Opcode.isMemoryReference` is a comparison of codes.
`Opcode.baseWord` writes a code into a word and `Instruction.opcode` reads it back.
-/

namespace TwelveBit

/-! ## Operation codes -/

/-- The operation codes, in the order of their numbers. -/
inductive Opcode where
  /-- Logical product of the accumulator with a word of memory. -/
  | and
  /-- Two's complement sum of the accumulator with a word of memory. -/
  | tad
  /-- Increment a word of memory, and skip if it became zero. -/
  | isz
  /-- Deposit the accumulator and clear it. -/
  | dca
  /-- Jump to a subroutine, whose first word keeps the place to return to. -/
  | jms
  | jmp
  | iot
  | opr
  deriving DecidableEq, Repr

namespace Opcode

def code : Opcode → BitVec 3
  | .and => 0
  | .tad => 1
  | .isz => 2
  | .dca => 3
  | .jms => 4
  | .jmp => 5
  | .iot => 6
  | .opr => 7

def ofCode (c : BitVec 3) : Opcode :=
  match c.toNat with
  | 0 => .and
  | 1 => .tad
  | 2 => .isz
  | 3 => .dca
  | 4 => .jms
  | 5 => .jmp
  | 6 => .iot
  | _ => .opr

@[simp] theorem ofCode_code (o : Opcode) : ofCode o.code = o := by
  cases o <;> rfl

@[simp] theorem code_ofCode : ∀ c : BitVec 3, (ofCode c).code = c := by
  decide

/-- The word with this operation code and no other bit. -/
def baseWord (o : Opcode) : Word := o.code ++ 0#9

/-- The six codes that take a word of memory as their operand. -/
def isMemoryReference (o : Opcode) : Bool := o.code < iot.code

def mnemonic : Opcode → Text
  | .and => "AND"
  | .tad => "TAD"
  | .isz => "ISZ"
  | .dca => "DCA"
  | .jms => "JMS"
  | .jmp => "JMP"
  | .iot => "IOT"
  | .opr => "OPR"

end Opcode

/-! ## The fields of an instruction -/

/-- A word that is read as an instruction. -/
abbrev Instruction := Word

/-- The two groups of operate instructions. -/
inductive OperateGroup where
  /-- Micro-operations on the accumulator and the link. -/
  | one
  /-- Skips, the switches and the halt. -/
  | two
  deriving DecidableEq, Repr

namespace Instruction

def opcode (i : Instruction) : Opcode := .ofCode (i.extractLsb' 9 3)

/-- Whether a memory reference goes through a pointer. -/
def indirect (i : Instruction) : Bool := i.getLsbD 8

/-- Whether a memory reference means page zero and not the page it stands on. -/
def pageZero (i : Instruction) : Bool := i.getLsbD 7

def offset (i : Instruction) : Word := Word.offset i

/-- The device that an input or output instruction addresses. -/
def device (i : Instruction) : BitVec 6 := i.extractLsb' 3 6

/-- What an input or output instruction asks of its device. -/
def operation (i : Instruction) : BitVec 3 := i.extractLsb' 0 3

/-- The group of an operate instruction. Bit 8 tells the groups apart, and a word of the second
group has bit 0 clear: one that has both set belongs to neither. -/
def operateGroup? (i : Instruction) : Option OperateGroup :=
  if i.getLsbD 8 then
    if i.getLsbD 0 then none else some .two
  else some .one

/-- The address that a memory reference at `location` names before it goes through a pointer: its
offset, on page zero or on the page of `location`. -/
def direct (i : Instruction) (location : Word) : Word :=
  (if i.pageZero then 0 else location.page) ||| i.offset

end Instruction

end TwelveBit
