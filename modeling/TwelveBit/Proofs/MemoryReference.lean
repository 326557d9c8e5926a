import TwelveBit.Proofs.Addressing
import TwelveBit.Proofs.Cycle

/-!
# Memory references against a reference machine

`Reference.State` is a machine of numbers: a program counter, an accumulator, a link that is 0 or 1
and a memory that is a function. `Reference.State.step` says in arithmetic what each of the six
memory references does to it; a component that a line does not mention stays as it is.

`step_memoryReference` is the agreement: seen as numbers, a step of the machine on any memory
reference is a step of the reference machine, whatever the word points at, the word itself and the
pointer included. The rest of the machine does not change, and the step retires and stops.
-/

namespace TwelveBit

/-! ## The reference machine -/

namespace Reference

/-- A machine of numbers. -/
@[ext] structure State where
  pc : Nat
  ac : Nat
  /-- The link, as 0 or 1. -/
  link : Nat
  memory : Nat → Nat

namespace State

/-- The word at the program counter. -/
def word (s : State) : Nat := s.memory s.pc

/-- The address before a pointer is followed: the offset on page zero, or on the page of the word
itself. -/
def direct (s : State) : Nat :=
  if s.word / 128 % 2 = 1 then s.word % 128 else s.pc / 128 * 128 + s.word % 128

/-- The address that the word acts on. At most one pointer is followed. -/
def address (s : State) : Nat := if s.word / 256 % 2 = 1 then s.memory s.direct else s.direct

/-- Memory with another word at one address. -/
def write (s : State) (address value : Nat) : Nat → Nat :=
  fun b => if b % 4096 = address then value else s.memory b

/-- Carry out the memory reference at the program counter. -/
def step (s : State) : State :=
  let next := (s.pc + 1) % 4096
  let value := s.memory s.address
  match s.word / 512 with
  | 0 => { s with pc := next, ac := s.ac &&& value }
  | 1 => { s with pc := next, ac := (s.ac + value) % 4096, link := (s.ac + value) / 4096 }
  | 2 =>
    let sum := (value + 1) % 4096
    { s with
      pc := if sum = 0 then (next + 1) % 4096 else next
      memory := s.write s.address sum }
  | 3 => { s with pc := next, ac := 0, memory := s.write s.address s.ac }
  | 4 => { s with pc := (s.address + 1) % 4096, memory := s.write s.address next }
  | _ => { s with pc := s.address }

end State

end Reference

namespace Machine

open Reference

variable (m : Machine)

/-- A machine seen as numbers. -/
def numbers : State where
  pc := m.registers.pc.toNat
  ac := m.registers.ac.toNat
  link := m.registers.link.toNat
  memory a := (m.memory.read a).toNat

/-! ## The numbers of a machine -/

theorem read_toNat (memory : Memory) (a : Word) : memory.read a.toNat = memory.get a := by
  rw [Memory.read, Word.ofNat_toNat]

theorem numbers_word : m.numbers.word = m.fetch.toNat := by
  show (m.memory.read m.registers.pc.toNat).toNat = m.fetch.toNat
  rw [read_toNat]
  rfl

theorem numbers_direct : m.numbers.direct = m.fetch.directAddress m.registers.pc.toNat := by
  have hlt := m.registers.pc.isLt
  rw [State.direct, numbers_word, Instruction.directAddress, Nat.mod_eq_of_lt hlt]
  split
  · exact (Nat.zero_add _).symm
  · rfl

/-- The reference machine acts on the address that the machine acts on. -/
theorem numbers_address : m.numbers.address = m.operand.toNat := by
  have heffective := Instruction.effectiveAddress_eq m.fetch m.registers.pc.toNat m.memory
  rw [Word.ofNat_toNat] at heffective
  rw [State.address, numbers_word, numbers_direct, operand, heffective]
  split
  · rfl
  · rw [Word.toNat_ofNat_of_lt (Instruction.directAddress_lt _ _)]

theorem numbers_value : m.numbers.memory m.numbers.address = (m.memory.get m.operand).toNat := by
  rw [numbers_address]
  exact congrArg BitVec.toNat (read_toNat m.memory m.operand)

/-- Storing a word is writing its number. -/
theorem numbers_store (address value : Word) :
    (fun b => ((m.memory.set address value).read b).toNat) =
      m.numbers.write address.toNat value.toNat := by
  funext b
  have hb : Word.ofNat b = address ↔ b % 4096 = address.toNat := by
    rw [← BitVec.toNat_inj, Word.toNat_ofNat]
  rw [State.write, Memory.read, Memory.get_set]
  by_cases h : Word.ofNat b = address
  · rw [if_pos h, if_pos (hb.mp h)]
  · rw [if_neg h, if_neg (mt hb.mpr h)]
    rfl

theorem toNat_next : m.registers.skip.pc.toNat = (m.numbers.pc + 1) % 4096 :=
  BitVec.toNat_add m.registers.pc 1

/-! ## The agreement -/

/-- The numbers of a machine after an effect. -/
def numbersAfter (e : Effect) : State where
  pc := e.registers.pc.toNat
  ac := e.registers.ac.toNat
  link := e.registers.link.toNat
  memory b := ((m.store e.store).memory.read b).toNat

/-! ### Each operation in numbers -/

theorem numbersAfter_and : m.numbersAfter (m.nextEffect .and) =
    { m.numbers with
      pc := (m.numbers.pc + 1) % 4096
      ac := m.numbers.ac &&& m.numbers.memory m.numbers.address } := by
  refine State.ext m.toNat_next ?_ rfl rfl
  rw [numbers_value]
  exact BitVec.toNat_and _ _

theorem numbersAfter_tad : m.numbersAfter (m.nextEffect .tad) =
    { m.numbers with
      pc := (m.numbers.pc + 1) % 4096
      ac := (m.numbers.ac + m.numbers.memory m.numbers.address) % 4096
      link := (m.numbers.ac + m.numbers.memory m.numbers.address) / 4096 } := by
  -- the carry and the sum are the quotient and the remainder by 4096
  have hsum := Word.addCarry_toNat m.registers.ac (m.memory.get m.operand)
  have hac := (m.registers.ac.addCarry (m.memory.get m.operand)).1.isLt
  refine State.ext m.toNat_next ?_ ?_ rfl
  · rw [numbers_value]
    show (m.registers.ac.addCarry (m.memory.get m.operand)).1.toNat =
      (m.registers.ac.toNat + (m.memory.get m.operand).toNat) % 4096
    omega
  · rw [numbers_value]
    show (m.registers.ac.addCarry (m.memory.get m.operand)).2.toNat =
      (m.registers.ac.toNat + (m.memory.get m.operand).toNat) / 4096
    omega

theorem numbersAfter_isz : m.numbersAfter (m.nextEffect .isz) =
    let sum := (m.numbers.memory m.numbers.address + 1) % 4096
    { m.numbers with
      pc := if sum = 0 then ((m.numbers.pc + 1) % 4096 + 1) % 4096
        else (m.numbers.pc + 1) % 4096
      memory := m.numbers.write m.numbers.address sum } := by
  have hsum : (m.memory.get m.operand + 1).toNat =
      (m.numbers.memory m.numbers.address + 1) % 4096 := by
    rw [numbers_value]
    exact BitVec.toNat_add _ _
  have hskip : (m.nextEffect .isz).registers =
      m.registers.skip.skipIf (m.memory.get m.operand + 1 == 0) := rfl
  have hpc : (m.nextEffect .isz).registers.pc.toNat =
      if (m.numbers.memory m.numbers.address + 1) % 4096 = 0 then
        ((m.numbers.pc + 1) % 4096 + 1) % 4096
      else (m.numbers.pc + 1) % 4096 := by
    rw [hskip, Registers.toNat_pc_skipIf, toNat_next, ← hsum]
    simp only [beq_iff_eq, ← BitVec.toNat_inj]
    rfl
  refine State.ext hpc ?_ ?_ ?_
  · show (m.nextEffect .isz).registers.ac.toNat = m.registers.ac.toNat
    rw [hskip, Registers.ac_skipIf]
    rfl
  · show (m.nextEffect .isz).registers.link.toNat = m.registers.link.toNat
    rw [hskip, Registers.link_skipIf]
    rfl
  · show _ = m.numbers.write m.numbers.address ((m.numbers.memory m.numbers.address + 1) % 4096)
    rw [← hsum, numbers_address]
    exact m.numbers_store m.operand (m.memory.get m.operand + 1)

theorem numbersAfter_dca : m.numbersAfter (m.nextEffect .dca) =
    { m.numbers with
      pc := (m.numbers.pc + 1) % 4096
      ac := 0
      memory := m.numbers.write m.numbers.address m.numbers.ac } := by
  refine State.ext m.toNat_next rfl rfl ?_
  rw [numbers_address]
  exact m.numbers_store m.operand m.registers.ac

theorem numbersAfter_jms : m.numbersAfter (m.nextEffect .jms) =
    { m.numbers with
      pc := (m.numbers.address + 1) % 4096
      memory := m.numbers.write m.numbers.address ((m.numbers.pc + 1) % 4096) } := by
  rw [numbers_address, ← toNat_next]
  refine State.ext ?_ rfl rfl ?_
  · exact BitVec.toNat_add m.operand 1
  · exact m.numbers_store m.operand m.registers.skip.pc

theorem numbersAfter_jmp : m.numbersAfter (m.nextEffect .jmp) =
    { m.numbers with pc := m.numbers.address } := by
  rw [numbers_address]
  rfl

/-! ### A whole step -/

/-- A step whose effect neither halts nor moves the teleprinter, and agrees with the reference
machine, agrees with it as a whole. -/
theorem step_of_numbersAfter {m : Machine} {operation : Operation}
    (hdecode : m.fetch.decode m.registers.pc = .ok operation)
    (hhalts : (m.nextEffect operation).halts = false)
    (hteleprinter : (m.nextEffect operation).teleprinter = m.teleprinter)
    (hnumbers : m.numbersAfter (m.nextEffect operation) = m.numbers.step) :
    ∃ m', m.step = (.ok .retired, m') ∧ m'.numbers = m.numbers.step ∧ m'.status = .stopped ∧
      m'.teleprinter = m.teleprinter ∧ m'.switches = m.switches := by
  refine ⟨_, step_of_retired hdecode hhalts, ?_, rfl, ?_, ?_⟩
  · rw [← hnumbers]
    simp only [numbers, numbersAfter, registers_apply, memory_apply]
    rcases (m.nextEffect operation).store with _ | ⟨address, value⟩ <;> rfl
  · rw [← hteleprinter]
    exact teleprinter_apply _ _ _ _
  · exact switches_apply _ _ _ _

/-- The six operations that work on a word of memory. -/
theorem exists_memoryReference_operation (h : m.numbers.word / 512 < 6) :
    ∃ operation, m.fetch.decode m.registers.pc = .ok operation ∧
      (m.nextEffect operation).halts = false ∧
      (m.nextEffect operation).teleprinter = m.teleprinter ∧
      m.numbersAfter (m.nextEffect operation) = m.numbers.step := by
  have hcode : m.numbers.word / 512 = m.fetch.opcode.code.toNat := by
    rw [numbers_word, Instruction.toNat_code]
  rw [hcode] at h
  rw [Instruction.decode, State.step, hcode]
  cases hop : m.fetch.opcode with
  | and => exact ⟨.and, rfl, rfl, rfl, m.numbersAfter_and⟩
  | tad => exact ⟨.tad, rfl, rfl, rfl, m.numbersAfter_tad⟩
  | isz => exact ⟨.isz, rfl, rfl, rfl, m.numbersAfter_isz⟩
  | dca => exact ⟨.dca, rfl, rfl, rfl, m.numbersAfter_dca⟩
  | jms => exact ⟨.jms, rfl, rfl, rfl, m.numbersAfter_jms⟩
  | jmp => exact ⟨.jmp, rfl, rfl, rfl, m.numbersAfter_jmp⟩
  | iot => rw [hop] at h; exact absurd h (by decide)
  | opr => rw [hop] at h; exact absurd h (by decide)

/-- **A memory reference is carried out as the reference machine says**, and everything that the
reference machine does not have stays as it was. -/
theorem step_memoryReference (h : m.numbers.word / 512 < 6) :
    ∃ m', m.step = (.ok .retired, m') ∧ m'.numbers = m.numbers.step ∧ m'.status = .stopped ∧
      m'.teleprinter = m.teleprinter ∧ m'.switches = m.switches := by
  obtain ⟨operation, hdecode, hhalts, hteleprinter, hnumbers⟩ :=
    m.exists_memoryReference_operation h
  exact step_of_numbersAfter hdecode hhalts hteleprinter hnumbers

/-- A subroutine jump in the last word of memory that names itself: it is overwritten by the address
past it, which is 0, and the jump goes there. -/
theorem step_memoryReference_onto_itself :
    let m : Machine :=
      { registers := { pc := 0o7777 }, memory := Memory.cleared.set 0o7777 0o4177 }
    m.numbers.word / 512 < 6 ∧
      ∃ m', m.step = (.ok .retired, m') ∧ m'.numbers.pc = 0 ∧ m'.numbers.memory 0o7777 = 0 := by
  intro m
  have hword : m.numbers.word = 0o4177 := by
    rw [numbers_word, fetch, Memory.get_set, if_pos rfl]
    rfl
  have hpc : m.numbers.pc = 0o7777 := rfl
  have hdirect : m.numbers.direct = 0o7777 := by
    rw [State.direct, hword, hpc]
    decide
  have haddress : m.numbers.address = 0o7777 := by
    rw [State.address, hword, hdirect]
    rfl
  have hlt : m.numbers.word / 512 < 6 := by
    rw [hword]
    decide
  obtain ⟨m', hstep, hnumbers, -⟩ := m.step_memoryReference hlt
  rw [State.step, hword, haddress, hpc] at hnumbers
  refine ⟨hlt, m', hstep, ?_, ?_⟩
  · rw [hnumbers]
    rfl
  · rw [hnumbers]
    decide

end Machine

end TwelveBit
