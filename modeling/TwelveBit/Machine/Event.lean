import TwelveBit.Instruction.Basic
import TwelveBit.Journal
import TwelveBit.Machine.Fault
import TwelveBit.Registers

/-!
# What a machine reports

Two accounts of a run. *Events* are for a program that follows the run: together they determine
every change of memory. *Records* are for a reader.
-/

namespace TwelveBit

/-- One thing that happened during a run. -/
inductive Event where
  /-- An instruction was carried out; `after` are the registers it left. -/
  | executed (pc : Word) (instruction : Instruction) (after : Registers)
  | stored (address value : Word)
  | halted (pc : Word)
  deriving DecidableEq, Repr

namespace Machine

inductive Record where
  | started (pc : Word) (stepping : Bool)
  /-- An instruction was carried out; `after` are the registers it left. -/
  | executed (pc : Word) (instruction : Instruction) (after : Registers)
  | halted (pc : Word) (steps : Nat)
  | faulted (fault : Fault)
  deriving DecidableEq, Repr

namespace Record

def level : Record → Level
  | started _ _ => .debug
  | executed _ _ _ => .trace
  | halted _ _ => .debug
  | faulted _ => .warn

def message : Record → Text
  | started pc stepping =>
    "run from " ++ Numeral.octal 4 pc.toNat ++ " (stepping: " ++
      (if stepping then "true" else "false") ++ ")"
  | executed pc instruction after =>
    Numeral.octal 4 pc.toNat ++ ": " ++ Numeral.octal 4 instruction.toNat ++
      " ac=" ++ Numeral.octal 4 after.ac.toNat ++ " l=" ++ (if after.link then "1" else "0") ++
      " pc=" ++ Numeral.octal 4 after.pc.toNat
  | halted pc steps =>
    "halted at " ++ Numeral.octal 4 pc.toNat ++ " after " ++ Numeral.decimal steps ++ " steps"
  | faulted fault => fault.message

end Record

end Machine

end TwelveBit
