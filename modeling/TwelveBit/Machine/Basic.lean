import TwelveBit.Machine.Event
import TwelveBit.Machine.Teleprinter
import TwelveBit.Memory
import TwelveBit.Tape

/-!
# The machine

Registers, memory, teleprinter and switches, with the two accounts that a machine keeps of a run. A
machine that nobody follows has both tapes off.

The accounts never influence the rest: no function of the machine reads a tape, and `tracing` only
decides whether events are put on theirs.
-/

namespace TwelveBit

/-- What a machine is doing. -/
inductive Status where
  /-- Nothing has run yet, or a single step has been taken. -/
  | stopped
  /-- Instructions are being carried out. -/
  | running
  /-- The last instruction was a halt. -/
  | halted
  /-- The last instruction could not be carried out. -/
  | faulted (fault : Fault)
  deriving DecidableEq, Repr

structure Machine where
  registers : Registers := {}
  memory : Memory := .cleared
  status : Status := .stopped
  teleprinter : Teleprinter := {}
  /-- The number on the switches. It counts modulo 4096 where a program reads it. -/
  switches : Nat := 0
  tracing : Bool := true
  events : Tape Event := .off
  journal : Tape Machine.Record := .off

namespace Machine

instance : Inhabited Machine := ⟨{}⟩

def note (m : Machine) (record : Record) : Machine := { m with journal := m.journal.push record }

/-- Report events, if events are reported. -/
def report (m : Machine) (events : List Event) : Machine :=
  if m.tracing then { m with events := events.foldl .push m.events } else m

def setPc (m : Machine) (value : Nat) : Machine :=
  { m with registers := { m.registers with pc := Word.ofNat value } }

def setAc (m : Machine) (value : Nat) : Machine :=
  { m with registers := { m.registers with ac := Word.ofNat value } }

def setLink (m : Machine) (value : Bool) : Machine :=
  { m with registers := { m.registers with link := value } }

end Machine

end TwelveBit
