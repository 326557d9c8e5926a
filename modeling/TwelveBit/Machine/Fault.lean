import TwelveBit.Numeral

/-!
# Faults

Two kinds of instruction cannot be carried out: an operate instruction that belongs to neither
group, and an input or output instruction for a device that is not there. A fault tells where the
instruction stood and which word it was.
-/

namespace TwelveBit

/-- Why an instruction could not be carried out. -/
inductive Fault where
  /-- An operate instruction of neither group. -/
  | undecodable (pc instruction : Nat)
  /-- An instruction for a device that is not there. -/
  | unknownDevice (pc device instruction : Nat)
  deriving DecidableEq, Repr

namespace Fault

def pc : Fault → Nat
  | undecodable pc _ => pc
  | unknownDevice pc _ _ => pc

def instruction : Fault → Nat
  | undecodable _ instruction => instruction
  | unknownDevice _ _ instruction => instruction

def device? : Fault → Option Nat
  | undecodable _ _ => none
  | unknownDevice _ device _ => some device

def message : Fault → Text
  | undecodable pc instruction =>
    "cannot decode instruction " ++ Numeral.octal 4 instruction ++ " at " ++ Numeral.octal 4 pc
  | unknownDevice pc device instruction =>
    "unknown device " ++ Numeral.octal 2 device ++ " in instruction " ++
      Numeral.octal 4 instruction ++ " at " ++ Numeral.octal 4 pc

end Fault

end TwelveBit
