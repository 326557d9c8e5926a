import TwelveBit.Machine.Run

/-!
# Requests

Everything that can be asked of a machine from outside, so that a history of a machine is a list of
requests. `Machine.serve` carries out one request. Every number in a request counts modulo 4096.
-/

namespace TwelveBit.Machine

/-- Something asked of a machine. -/
inductive Request where
  | edit (change : Memory.Edit)
  | setPc (value : Nat)
  | setAc (value : Nat)
  | setLink (value : Bool)
  /-- Move the program counter one word on. -/
  | skip
  | setSwitches (value : Nat)
  /-- Tear off what the teleprinter has printed. -/
  | takeOutput
  | run (launch : Launch)
  | step
  deriving DecidableEq, Repr

/-- The answer to a request. -/
inductive Reply where
  | done
  | output (text : Text)
  | ran (result : Except Fault Completion)
  | stepped (result : Except Fault Outcome)
  /-- A run has not ended after this many instructions. -/
  | unfinished (steps : Nat)

/-- Carry out a request. A run may carry out `fuel` instructions. -/
def serve (fuel : Nat) (m : Machine) : Request → Reply × Machine
  | .edit change => (.done, { m with memory := m.memory.edit change })
  | .setPc value => (.done, m.setPc value)
  | .setAc value => (.done, m.setAc value)
  | .setLink value => (.done, m.setLink value)
  | .skip => (.done, { m with registers := m.registers.skip })
  | .setSwitches value => (.done, { m with switches := (Word.ofNat value).toNat })
  | .takeOutput => (.output m.teleprinter.output, { m with teleprinter := m.teleprinter.tearOff })
  | .run launch =>
    match m.run launch fuel with
    | .finished result m => (.ran result, m)
    | .unfinished steps m => (.unfinished steps, m)
  | .step =>
    let (result, m) := m.step
    (.stepped result, m)

def serveAll (fuel : Nat) (m : Machine) : List Request → List Reply × Machine
  | [] => ([], m)
  | request :: rest =>
    let (reply, m) := m.serve fuel request
    let (replies, m) := m.serveAll fuel rest
    (reply :: replies, m)

end TwelveBit.Machine
