import TwelveBit.Instruction.MicroOperation
import TwelveBit.Machine.Fault

/-!
# Operations

`Instruction.decode` turns a word into the operation that the machine carries out. This is the only
place where an instruction can fail: once a word has been decoded, its operation has an effect in
every state of the machine.
-/

namespace TwelveBit

/-- What the machine can carry out. -/
inductive Operation where
  | and
  | tad
  | isz
  | dca
  | jms
  | jmp
  | reader (operation : BitVec 3)
  | teleprinter (operation : BitVec 3)
  | groupOne (micro : GroupOne)
  | groupTwo (micro : GroupTwo)
  deriving DecidableEq, Repr

def readerDevice : BitVec 6 := 3

def teleprinterDevice : BitVec 6 := 4

namespace Instruction

/-- The operation of an input or output instruction at `pc`. -/
def decodeTransfer (i : Instruction) (pc : Word) : Except Fault Operation :=
  if i.device = readerDevice then .ok (.reader i.operation)
  else if i.device = teleprinterDevice then .ok (.teleprinter i.operation)
  else .error (.unknownDevice pc.toNat i.device.toNat i.toNat)

/-- The operation of an operate instruction at `pc`. -/
def decodeOperate (i : Instruction) (pc : Word) : Except Fault Operation :=
  match i.operateGroup? with
  | some .one => .ok (.groupOne (.ofWord i))
  | some .two => .ok (.groupTwo (.ofWord i))
  | none => .error (.undecodable pc.toNat i.toNat)

/-- The operation of an instruction at `pc`, or why it cannot be carried out. -/
def decode (i : Instruction) (pc : Word) : Except Fault Operation :=
  match i.opcode with
  | .and => .ok .and
  | .tad => .ok .tad
  | .isz => .ok .isz
  | .dca => .ok .dca
  | .jms => .ok .jms
  | .jmp => .ok .jmp
  | .iot => i.decodeTransfer pc
  | .opr => i.decodeOperate pc

end Instruction

end TwelveBit
