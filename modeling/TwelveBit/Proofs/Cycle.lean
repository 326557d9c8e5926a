import TwelveBit.Machine.Run

/-!
# What a cycle does

`Machine.cycle` in two equations, one for an instruction that can be carried out and one for an
instruction that cannot, and what each of its parts does to each field of a machine. Later modules
use these and do not unfold the cycle again. `Instruction.Decodes` has a case for each operation
that an instruction can be decoded as.

`apply_eq` is all that an instruction does to a machine that carries it out, the accounts that the
machine keeps included.
-/

namespace TwelveBit

/-! ## Skipping -/

namespace Registers

variable (condition : Bool) (r : Registers)

@[simp] theorem ac_skipIf : (r.skipIf condition).ac = r.ac := by
  cases condition <;> rfl

@[simp] theorem link_skipIf : (r.skipIf condition).link = r.link := by
  cases condition <;> rfl

theorem toNat_pc_skipIf : (r.skipIf condition).pc.toNat =
    if condition then (r.pc.toNat + 1) % 4096 else r.pc.toNat := by
  cases condition
  · rfl
  · exact BitVec.toNat_add r.pc 1

end Registers

/-! ## What an instruction is decoded as -/

namespace Instruction

/-- An instruction stands for an operation, by its operation code and the fields that it has with
that code. -/
inductive Decodes (i : Instruction) : Operation → Prop where
  | and (code : i.opcode = .and) : Decodes i .and
  | tad (code : i.opcode = .tad) : Decodes i .tad
  | isz (code : i.opcode = .isz) : Decodes i .isz
  | dca (code : i.opcode = .dca) : Decodes i .dca
  | jms (code : i.opcode = .jms) : Decodes i .jms
  | jmp (code : i.opcode = .jmp) : Decodes i .jmp
  | reader (code : i.opcode = .iot) (device : i.device = readerDevice) :
      Decodes i (.reader i.operation)
  | teleprinter (code : i.opcode = .iot) (device : i.device = teleprinterDevice) :
      Decodes i (.teleprinter i.operation)
  | groupOne (code : i.opcode = .opr) (group : i.operateGroup? = some .one) :
      Decodes i (.groupOne (.ofWord i))
  | groupTwo (code : i.opcode = .opr) (group : i.operateGroup? = some .two) :
      Decodes i (.groupTwo (.ofWord i))

theorem decodes_of_decode {i : Instruction} {pc : Word} {operation : Operation}
    (h : i.decode pc = .ok operation) : i.Decodes operation := by
  unfold decode at h
  cases hcode : i.opcode with
  | iot =>
      simp only [hcode, decodeTransfer] at h
      split at h
      · next hdevice =>
          cases h
          exact .reader hcode hdevice
      · split at h
        · next hdevice =>
            cases h
            exact .teleprinter hcode hdevice
        · cases h
  | opr =>
      simp only [hcode, decodeOperate] at h
      split at h
      · next hgroup =>
          cases h
          exact .groupOne hcode hgroup
      · next hgroup =>
          cases h
          exact .groupTwo hcode hgroup
      · cases h
  | and => simp only [hcode] at h; cases h; exact .and hcode
  | tad => simp only [hcode] at h; cases h; exact .tad hcode
  | isz => simp only [hcode] at h; cases h; exact .isz hcode
  | dca => simp only [hcode] at h; cases h; exact .dca hcode
  | jms => simp only [hcode] at h; cases h; exact .jms hcode
  | jmp => simp only [hcode] at h; cases h; exact .jmp hcode

end Instruction

namespace Machine

variable (m : Machine)

/-! ## The parts of a cycle -/

/-- The word at the program counter. -/
def fetch : Instruction := m.memory.get m.registers.pc

/-- The address on which the next instruction acts, if it is a memory reference. -/
def operand : Word := m.fetch.effectiveAddress m.registers.pc m.memory

/-- The machine with its program counter past the next instruction. -/
def advance : Machine := { m with registers := m.registers.skip }

/-- The next instruction as it is carried out, if it is this operation. -/
def nextEffect (operation : Operation) : Effect := m.advance.effect operation m.operand

/-- A cycle on a word that can be decoded. -/
theorem cycle_of_decode {m : Machine} {operation : Operation}
    (h : m.fetch.decode m.registers.pc = .ok operation) :
    m.cycle = (.ok (m.nextEffect operation).outcome,
      m.advance.apply (m.nextEffect operation) m.registers.pc m.fetch) := by
  rw [fetch] at h
  rw [cycle, h]
  rfl

/-- A cycle on a word that cannot be decoded. -/
theorem cycle_of_fault {m : Machine} {fault : Fault}
    (h : m.fetch.decode m.registers.pc = .error fault) :
    m.cycle = (.error fault, m.advance.latch fault) := by
  rw [fetch] at h
  rw [cycle, h]
  rfl

/-! ## Applying an effect -/

section Apply

variable (e : Effect) (pc : Word) (i : Instruction)

/-- All that applying an effect does. Everything that no field mentions stays. -/
theorem apply_eq : m.apply e pc i =
    { m with
      registers := e.registers
      memory := (m.store e.store).memory
      status := if e.halts then .halted else m.status
      teleprinter := e.teleprinter
      events := if m.tracing then (e.events pc i).foldl .push m.events else m.events
      journal := m.journal.push (.executed pc i e.registers) } := by
  obtain ⟨registers, teleprinter, store, halts⟩ := e
  obtain ⟨_, _, _, _, _, tracing, _, _⟩ := m
  cases store <;> cases halts <;> cases tracing <;> rfl

@[simp] theorem registers_apply : (m.apply e pc i).registers = e.registers := by rw [apply_eq]

@[simp] theorem memory_apply : (m.apply e pc i).memory = (m.store e.store).memory := by
  rw [apply_eq]

@[simp] theorem teleprinter_apply : (m.apply e pc i).teleprinter = e.teleprinter := by
  rw [apply_eq]

@[simp] theorem switches_apply : (m.apply e pc i).switches = m.switches := by rw [apply_eq]

end Apply

/-! ## One step -/

/-- A step starts no account of its own that an instruction could read. -/
theorem nextEffect_start (operation : Operation) :
    (m.start { stepping := true }).nextEffect operation = m.nextEffect operation := rfl

/-- A step that carries out an instruction other than a halt stops afterwards. -/
theorem step_of_retired {m : Machine} {operation : Operation}
    (h : m.fetch.decode m.registers.pc = .ok operation)
    (hhalts : (m.nextEffect operation).halts = false) :
    m.step = (.ok .retired,
      { (m.start { stepping := true }).advance.apply (m.nextEffect operation)
          m.registers.pc m.fetch with status := .stopped }) := by
  have hcycle := cycle_of_decode (m := m.start { stepping := true }) h
  rw [nextEffect_start, Effect.outcome, hhalts] at hcycle
  rw [step, single, hcycle]
  rfl

end Machine

end TwelveBit
