import TwelveBit.Machine.Basic
import TwelveBit.Machine.Operate
import TwelveBit.Machine.Operation
import TwelveBit.Machine.Reader

/-!
# One instruction

A cycle fetches the word at the program counter, moves the counter on, decodes the word and carries
the operation out. What an operation does is computed first, as an `Effect`, and then applied:

* `Machine.effect` reads the machine and changes nothing,
* `Machine.apply` changes the machine and reports,
* `Machine.cycle` puts them together, and latches a fault if the word cannot be decoded.

An effect stores at most one word, so an instruction changes memory in at most one place.
-/

namespace TwelveBit

/-- How an instruction ended. -/
inductive Outcome where
  | retired
  | halted
  deriving DecidableEq, Repr

/-- The address that a memory reference at `location` acts on: the one that it names, or the one
held there if it is indirect. -/
def Instruction.effectiveAddress (i : Instruction) (location : Word) (memory : Memory) : Word :=
  if i.indirect then memory.get (i.direct location) else i.direct location

/-- What an instruction does to a machine. -/
structure Effect where
  registers : Registers
  teleprinter : Teleprinter
  /-- The address and the word of a store. -/
  store : Option (Word × Word) := none
  halts : Bool := false

namespace Effect

def outcome (e : Effect) : Outcome := if e.halts then .halted else .retired

/-- The events of an instruction: its store, its halt, and that it was carried out. -/
def events (e : Effect) (pc : Word) (i : Instruction) : List Event :=
  (e.store.toList.map fun (address, value) => .stored address value) ++
    (if e.halts then [.halted e.registers.pc] else []) ++ [.executed pc i e.registers]

end Effect

namespace Machine

/-- What an operation does, when the program counter has already moved past the instruction. A
memory reference acts on `address`. -/
def effect (m : Machine) (operation : Operation) (address : Word) : Effect :=
  let r := m.registers
  let plain (r : Registers) : Effect := { registers := r, teleprinter := m.teleprinter }
  match operation with
  | .and => plain { r with ac := r.ac &&& m.memory.get address }
  | .tad => plain { r with toLinkAccumulator := r.add (m.memory.get address) }
  | .isz =>
    let value := m.memory.get address + 1
    { plain (r.skipIf (value == 0)) with store := some (address, value) }
  | .dca => { plain { r with ac := 0 } with store := some (address, r.ac) }
  | .jms => { plain { r with pc := address + 1 } with store := some (address, r.pc) }
  | .jmp => plain { r with pc := address }
  | .reader operation => plain (r.skipIf (Reader.skips operation))
  | .teleprinter operation =>
    { registers := r.skipIf (m.teleprinter.skips operation)
      teleprinter := m.teleprinter.transfer operation r.ac.toNat }
  | .groupOne micro => plain { r with toLinkAccumulator := micro.apply r.toLinkAccumulator }
  | .groupTwo micro => { plain (micro.apply m.switches r) with halts := micro.halt }

def store (m : Machine) : Option (Word × Word) → Machine
  | none => m
  | some (address, value) => { m with memory := m.memory.set address value }

/-- Apply the effect of the instruction `i` at `pc`, and report it. -/
def apply (m : Machine) (e : Effect) (pc : Word) (i : Instruction) : Machine :=
  let m := m.store e.store
  let m := { m with registers := e.registers, teleprinter := e.teleprinter }
  let m := if e.halts then { m with status := .halted } else m
  (m.report (e.events pc i)).note (.executed pc i e.registers)

/-- Stop at a fault and keep it. -/
def latch (m : Machine) (fault : Fault) : Machine :=
  { m with status := .faulted fault }.note (.faulted fault)

/-- Carry out the instruction at the program counter. -/
def cycle (m : Machine) : Except Fault Outcome × Machine :=
  let pc := m.registers.pc
  let i : Instruction := m.memory.get pc
  let address := i.effectiveAddress pc m.memory
  let m := { m with registers := { m.registers with pc := pc + 1 } }
  match i.decode pc with
  | .error fault => (.error fault, m.latch fault)
  | .ok operation =>
    let e := m.effect operation address
    (.ok e.outcome, m.apply e pc i)

end Machine

end TwelveBit
