import TwelveBit.Machine.Cycle

/-!
# Running

A run carries out instructions until one halts or faults. It may never end, so `Machine.resume`
takes the number of instructions it may carry out, and a run that has used them up is `unfinished`:
it is no answer, and it goes on from the machine that it holds.

A *step* is a run of a single instruction. It leaves the machine stopped, unless the instruction
halts or faults.
-/

namespace TwelveBit

/-- How a run is started. -/
structure Launch where
  /-- Where to start, if not at the program counter. -/
  start : Option Nat := none
  stepping : Bool := false
  deriving DecidableEq, Repr

/-- How a run ended that did not fault. -/
structure Completion where
  steps : Nat
  last : Outcome
  deriving DecidableEq, Repr

namespace Machine

/-- How far a run has come. -/
inductive Progress where
  | finished (result : Except Fault Completion) (machine : Machine)
  /-- The run has carried out this many instructions and goes on from this machine. -/
  | unfinished (steps : Nat) (machine : Machine)

def start (launch : Launch) (m : Machine) : Machine :=
  let m := match launch.start with
    | some pc => m.setPc pc
    | none => m
  { m with status := .running }.note (.started m.registers.pc launch.stepping)

def noteHalt (steps : Nat) (m : Machine) : Machine := m.note (.halted m.registers.pc steps)

/-- Go on with a run that has carried out `steps` instructions, for at most `fuel` more. -/
def resume : (fuel steps : Nat) → Machine → Progress
  | 0, steps, m => .unfinished steps m
  | fuel + 1, steps, m =>
    match m.cycle with
    | (.error fault, m) => .finished (.error fault) m
    | (.ok .halted, m) => .finished (.ok ⟨steps + 1, .halted⟩) (m.noteHalt (steps + 1))
    | (.ok .retired, m) => resume fuel (steps + 1) m

/-- Carry out a single instruction of a run that has begun, and stop. -/
def single (m : Machine) : Except Fault Outcome × Machine :=
  match m.cycle with
  | (.error fault, m) => (.error fault, m)
  | (.ok .halted, m) => (.ok .halted, m.noteHalt 1)
  | (.ok .retired, m) => (.ok .retired, { m with status := .stopped })

/-- Take one step at the program counter. -/
def step (m : Machine) : Except Fault Outcome × Machine :=
  (m.start { stepping := true }).single

/-- Run the machine, for at most `fuel` instructions. -/
def run (launch : Launch) (fuel : Nat) (m : Machine) : Progress :=
  let m := m.start launch
  if launch.stepping then
    let (result, m) := m.single
    .finished (result.map fun last => ⟨1, last⟩) m
  else m.resume fuel 0

/-! ## Several steps -/

/-- What became of a number of steps. -/
structure Steps where
  count : Nat
  last : Option (Except Fault Outcome)
  machine : Machine

/-- Take steps on top of those taken, until one halts or faults, but at most `limit` more. -/
def Steps.extend : (limit : Nat) → Steps → Steps
  | 0, s => s
  | limit + 1, s =>
    match s.machine.step with
    | (.ok .retired, m) => extend limit ⟨s.count + 1, some (.ok .retired), m⟩
    | (last, m) => ⟨s.count + 1, some last, m⟩

/-- Take steps until one halts or faults, but at most `limit`. -/
def stepUpTo (limit : Nat) (m : Machine) : Steps := Steps.extend limit ⟨0, none, m⟩

end Machine

end TwelveBit
