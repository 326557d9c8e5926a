import TwelveBit.Instruction.MicroOperation
import TwelveBit.Instruction.Mnemonic
import TwelveBit.Numeral

/-!
# Disassembly

The assembler text of a word. A memory reference is written with the address it names, which depends
on where the word stands; every other word is written in the same way everywhere. A word that no
mnemonics spell is written as an octal constant, so every word has a text.

`operateNames?` answers which micro-operations spell an operate instruction, in the order in which
the machine carries them out. Three kinds of word have no spelling: one of neither group, one that
doubles a rotation it does not ask for, and one of the second group that is told apart from the
first by nothing but its group bit.
-/

namespace TwelveBit

/-- The names of the micro-operations of the first group. No name doubles a rotation by itself. -/
def GroupOne.names? (m : GroupOne) : Option (List Text) :=
  if m.twice && !m.right && !m.left then none
  else
    let names := Mnemonic.select
      [(m.clear, "CLA"), (m.clearLink, "CLL"), (m.complement, "CMA"), (m.complementLink, "CML"),
       (m.increment, "IAC"), (m.right, if m.twice then "RTR" else "RAR"),
       (m.left, if m.twice then "RTL" else "RAL")]
    some (if names.isEmpty then ["NOP"] else names)

/-- The names of the tests of the second group. Without a test the opposite of every test holds. -/
def GroupTwo.testNames (m : GroupTwo) : List Text :=
  if m.opposite then
    let names := Mnemonic.select [(m.sign, "SPA"), (m.zero, "SNA"), (m.link, "SZL")]
    if names.isEmpty then ["SKP"] else names
  else Mnemonic.select [(m.sign, "SMA"), (m.zero, "SZA"), (m.link, "SNL")]

/-- The names of the micro-operations of the second group. A lone `CLA` would be read as the one of
the first group, and no name at all says nothing. -/
def GroupTwo.names? (m : GroupTwo) : Option (List Text) :=
  let names := m.testNames ++
    Mnemonic.select [(m.clear, "CLA"), (m.switches, "OSR"), (m.halt, "HLT")]
  if names = [] ∨ names = ["CLA".toList] then none else some names

namespace Instruction

/-- The mnemonics that spell an operate instruction, in order of execution. -/
def operateNames? (i : Instruction) : Option (List Text) :=
  match i.operateGroup? with
  | none => none
  | some .one => (GroupOne.ofWord i).names?
  | some .two => (GroupTwo.ofWord i).names?

/-- The mnemonics that spell an instruction other than a memory reference. -/
def names? (i : Instruction) : Option (List Text) :=
  if i.opcode = .iot then (Mnemonic.inputOutput.name? i).map ([·]) else i.operateNames?

/-- A memory reference as assembler text, with the address that it names from `location`. -/
def referenceText (i : Instruction) (location : Word) : Text :=
  i.opcode.mnemonic ++ (if i.indirect then " I" else "") ++ (if i.pageZero then " Z" else "") ++
    " " ++ Numeral.octal 4 (i.direct location).toNat

end Instruction

/-- The assembler text of a word that stands at `location`. -/
def disassemble (word : Instruction) (location : Word) : Text :=
  if word.opcode.isMemoryReference then word.referenceText location
  else match word.names? with
    | some names => Text.unwords names
    | none => Numeral.octal 4 word.toNat

end TwelveBit
