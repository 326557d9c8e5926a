import TwelveBit.Instruction.Basic

/-!
# Mnemonics

The names that assembler text has for words, in four tables: one for each kind of instruction, and
two for operate instructions because `CLA` is a micro-operation of both groups.

Micro-operations of one group can be asked for together. `operateWord?` joins their words by the
bits, and refuses names that no single group has.
-/

namespace TwelveBit.Mnemonic

/-- Names with the words they stand for. -/
abbrev Table := List (Text × Word)

def memoryReferences : Table :=
  [("AND", 0o0000), ("TAD", 0o1000), ("ISZ", 0o2000),
   ("DCA", 0o3000), ("JMS", 0o4000), ("JMP", 0o5000)]

def groupOne : Table :=
  [("NOP", 0o7000), ("CLA", 0o7200), ("CLL", 0o7100), ("CMA", 0o7040), ("CML", 0o7020),
   ("IAC", 0o7001), ("RAR", 0o7010), ("RAL", 0o7004), ("RTR", 0o7012), ("RTL", 0o7006)]

def groupTwo : Table :=
  [("SMA", 0o7500), ("SZA", 0o7440), ("SNL", 0o7420), ("SPA", 0o7510), ("SNA", 0o7450),
   ("SZL", 0o7430), ("SKP", 0o7410), ("CLA", 0o7600), ("OSR", 0o7404), ("HLT", 0o7402)]

def inputOutput : Table :=
  [("KCF", 0o6030), ("KSF", 0o6031), ("KCC", 0o6032), ("KRS", 0o6034), ("KRB", 0o6036),
   ("TFL", 0o6040), ("TSF", 0o6041), ("TCF", 0o6042), ("TPC", 0o6044), ("TLS", 0o6046)]

namespace Table

def word? (table : Table) (name : Text) : Option Word := table.lookup name

/-- The first name that a word has. -/
def name? (table : Table) (word : Word) : Option Text :=
  (table.find? fun (_, w) => w = word).map (·.1)

/-- The words of several names, joined by the bits. Every name must be in the table. -/
def union? (table : Table) (names : List Text) : Option Word :=
  (names.mapM table.word?).map fun words => words.foldr (· ||| ·) 0

end Table

/-- The names whose conditions hold, in order. -/
def select (choices : List (Bool × String)) : List Text :=
  (choices.filter (·.1)).map fun (_, name) => name.toList

/-- The memory reference that a name stands for. -/
def memoryReference? (name : Text) : Option Opcode :=
  (memoryReferences.word? name).map Instruction.opcode

/-- The input or output instruction that a name stands for. -/
def inputOutput? (name : Text) : Option Word := inputOutput.word? name

/-- The operate instruction that carries out all of the named micro-operations. They must be one or
more, and all of one group; the first group is preferred. -/
def operateWord? (names : List Text) : Option Word :=
  if names.isEmpty then none
  else (groupOne.union? names) <|> (groupTwo.union? names)

example : operateWord? ["CLA", "CLL"] = some 0o7300 := by decide

example : operateWord? ["CLA", "HLT"] = some 0o7602 := by decide

example : operateWord? ["CLL", "HLT"] = none := by decide

end TwelveBit.Mnemonic
