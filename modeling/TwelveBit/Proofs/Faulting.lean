import TwelveBit.Proofs.Addressing
import TwelveBit.Proofs.Stepping

/-!
# Faults

Whether a word can be carried out depends on its bits alone. `Fault.of?` says in numbers which words
cannot and what their faults are, and `Instruction.decode_eq_error_iff` proves that the machine
decodes exactly the other words.

A fault comes up after the program counter has moved on and before anything else has happened.
`FrozenAt` says what that means for a machine that is left at a fault: it is the machine before the
instruction in everything but the program counter and the status, and the next step goes on behind
the instruction as if there had been no fault. `fault_freezes` proves it for every run and every
step, however many instructions have been carried out before.
-/

namespace TwelveBit

/-- The fault of a word at an address, if it has one. The word addresses a device that is not there,
or it is an operate instruction with both of the bits that tell the groups apart. -/
def Fault.of? (pc word : Nat) : Option Fault :=
  if word / 512 = 6 ∧ word / 8 % 64 ≠ 3 ∧ word / 8 % 64 ≠ 4 then
    some (.unknownDevice pc (word / 8 % 64) word)
  else if word / 512 = 7 ∧ word / 256 % 2 = 1 ∧ word % 2 = 1 then some (.undecodable pc word)
  else none

/-- A fault tells where its word stands and which word it is. -/
theorem Fault.of?_eq_some {pc word : Nat} {fault : Fault} (h : of? pc word = some fault) :
    fault.pc = pc ∧ fault.instruction = word := by
  rw [of?] at h
  split at h
  · cases h
    exact ⟨rfl, rfl⟩
  · split at h <;> cases h
    exact ⟨rfl, rfl⟩

/-! ## Which words are not decoded -/

namespace Instruction

variable {i : Instruction} {pc : Word} {fault : Fault}

theorem toNat_device (i : Instruction) : i.device.toNat = i.toNat / 8 % 64 := by
  rw [device, BitVec.extractLsb'_toNat, Nat.shiftRight_eq_div_pow]

theorem device_eq_iff {d : BitVec 6} : i.device = d ↔ i.toNat / 8 % 64 = d.toNat := by
  rw [← BitVec.toNat_inj, toNat_device]

/-- An instruction belongs to no group if both bits are set. -/
theorem operateGroup?_eq_none_iff :
    i.operateGroup? = none ↔ i.toNat / 256 % 2 = 1 ∧ i.toNat % 2 = 1 := by
  have hgroup := toNat_getLsbD i 8
  have hlast := toNat_getLsbD i 0
  rw [Nat.shiftRight_eq_div_pow] at hgroup
  rw [Nat.shiftRight_zero] at hlast
  rw [operateGroup?, ← hlast, show (256 : Nat) = 2 ^ 8 from rfl, ← hgroup]
  cases i.getLsbD 8 <;> cases i.getLsbD 0 <;> simp

theorem decodeTransfer_eq_error_iff : i.decodeTransfer pc = .error fault ↔
    (i.toNat / 8 % 64 ≠ 3 ∧ i.toNat / 8 % 64 ≠ 4) ∧
      .unknownDevice pc.toNat (i.toNat / 8 % 64) i.toNat = fault := by
  have hreader : i.device = readerDevice ↔ i.toNat / 8 % 64 = 3 := device_eq_iff
  have hteleprinter : i.device = teleprinterDevice ↔ i.toNat / 8 % 64 = 4 := device_eq_iff
  rw [decodeTransfer]
  simp only [hreader, hteleprinter, toNat_device]
  split
  · next h => simp [h]
  · next h =>
      split
      · next h' => simp [h']
      · next h' => simp [h, h']

theorem decodeOperate_eq_error_iff : i.decodeOperate pc = .error fault ↔
    (i.toNat / 256 % 2 = 1 ∧ i.toNat % 2 = 1) ∧ .undecodable pc.toNat i.toNat = fault := by
  rw [decodeOperate, ← operateGroup?_eq_none_iff]
  cases i.operateGroup? with
  | none => simp
  | some group => cases group <;> simp

/-- **A word is not decoded exactly if it has a fault.** -/
theorem decode_eq_error_iff : i.decode pc = .error fault ↔
    Fault.of? pc.toNat i.toNat = some fault := by
  have hcode := i.toNat_code
  rw [decode, Fault.of?]
  cases hop : i.opcode with
  | iot =>
      rw [hop] at hcode
      have hcode : i.toNat / 512 = 6 := hcode.symm
      simp [decodeTransfer_eq_error_iff, hcode]
  | opr =>
      rw [hop] at hcode
      have hcode : i.toNat / 512 = 7 := hcode.symm
      simp [decodeOperate_eq_error_iff, hcode]
  | _ =>
      -- a memory reference is always decoded
      rw [hop] at hcode
      have hlt : i.toNat / 512 < 6 := by
        rw [← hcode]
        decide
      simp [Nat.ne_of_lt hlt, Nat.ne_of_lt (Nat.lt_succ_of_lt hlt)]

end Instruction

namespace Machine

variable {m l m' before : Machine} {fault : Fault}

/-! ## A cycle that faults -/

/-- A cycle faults exactly if the word at the program counter has a fault. -/
theorem cycle_eq_error_iff : m.cycle = (.error fault, m') ↔
    Fault.of? m.registers.pc.toNat m.fetch.toNat = some fault ∧ m' = m.advance.latch fault := by
  rw [← Instruction.decode_eq_error_iff]
  cases hdecode : m.fetch.decode m.registers.pc with
  | error fault' =>
      rw [cycle_of_fault hdecode]
      constructor
      · intro h
        cases h
        exact ⟨rfl, rfl⟩
      · rintro ⟨h, rfl⟩
        cases h
        rfl
  | ok operation =>
      rw [cycle_of_decode hdecode]
      simp

/-- A step faults exactly if its only cycle does. -/
theorem step_eq_error_iff : m.step = (.error fault, m') ↔
    (m.start { stepping := true }).cycle = (.error fault, m') := by
  rw [step, single]
  rcases (m.start { stepping := true }).cycle with ⟨_ | _ | _, m₁⟩ <;> simp

/-- The fault of a step is that of the word at the program counter. -/
theorem exists_step_eq_error_iff : (∃ m', m.step = (.error fault, m')) ↔
    Fault.of? m.registers.pc.toNat m.fetch.toNat = some fault := by
  simp only [step_eq_error_iff, cycle_eq_error_iff]
  exact exists_and_left.trans (and_iff_left ⟨_, rfl⟩)

/-! ## What a fault leaves -/

/-- The machine is left by a fault of the instruction that the machine before it had come to. -/
structure FrozenAt (before : Machine) (fault : Fault) (m' : Machine) : Prop where
  /-- The fault is that of the word at the program counter. -/
  exact : Fault.of? before.registers.pc.toNat before.fetch.toNat = some fault
  latched : m'.status = .faulted fault
  place : fault.pc = before.registers.pc.toNat
  /-- The word is still there. -/
  instruction : (m'.memory.read fault.pc).toNat = fault.instruction
  moved : m'.registers.pc.toNat = (fault.pc + 1) % 4096
  /-- Registers, memory, teleprinter, switches and events are as before, the counter apart. -/
  kept : m' =
    { before with
      registers := { before.registers with pc := m'.registers.pc }
      status := m'.status
      journal := m'.journal }
  /-- The next step is the one that the machine would take behind the instruction. -/
  resumes : m'.step.1 = (before.setPc (fault.pc + 1)).step.1 ∧
    m'.step.2.withoutJournal = (before.setPc (fault.pc + 1)).step.2.withoutJournal

/-- A step does not read the status or the journal that it finds. -/
theorem step_congr (h : l.withoutJournal = { m with status := l.status }.withoutJournal) :
    l.step.1 = m.step.1 ∧ l.step.2.withoutJournal = m.step.2.withoutJournal := by
  have hstart : (l.start { stepping := true }).withoutJournal =
      (m.start { stepping := true }).withoutJournal := by
    rw [start_eq, start_eq]
    exact congrArg (fun m : Machine => { m with status := .running }) h
  obtain ⟨hanswer, hmachine⟩ := cycle_congr hstart
  rw [step, step, single, single]
  rcases hl : (l.start { stepping := true }).cycle with ⟨answer, l₁⟩
  rcases hm : (m.start { stepping := true }).cycle with ⟨answer', m₁⟩
  rw [hl, hm] at hanswer hmachine
  obtain rfl : answer = answer' := hanswer
  rcases answer with _ | _ | _
  · exact ⟨rfl, hmachine⟩
  · exact ⟨rfl, congrArg (fun m : Machine => { m with status := .stopped }) hmachine⟩
  · exact ⟨rfl, hmachine⟩

/-- A cycle that faults freezes the machine that it begins with. -/
theorem frozenAt_of_cycle (h : before.cycle = (.error fault, m')) : FrozenAt before fault m' := by
  obtain ⟨hfault, rfl⟩ := cycle_eq_error_iff.mp h
  obtain ⟨hpc, hinstruction⟩ := Fault.of?_eq_some hfault
  have hskip : before.registers.skip.pc = Word.ofNat (fault.pc + 1) := by
    rw [hpc, Word.ofNat, BitVec.ofNat_add, BitVec.ofNat_toNat, BitVec.setWidth_eq]
    rfl
  refine ⟨hfault, rfl, hpc, ?_, ?_, rfl, step_congr ?_⟩
  · rw [hpc, hinstruction, Memory.read, Word.ofNat_toNat]
    rfl
  · show before.registers.skip.pc.toNat = _
    rw [hskip, Word.toNat_ofNat]
  · rw [setPc, ← hskip]
    rfl

/-- The last step of a run faults. -/
theorem Ends.frozenAt {launch : Launch} (h : m.Ends launch (.error fault) m') :
    ∃ k before, Retires k (m.start launch) before ∧ FrozenAt before fault m' := by
  obtain ⟨k, before, hretires, hlast | ⟨-, hresult, -⟩⟩ := h.cases
  · cases hlast with
    | fault last => exact ⟨k, before, hretires, frozenAt_of_cycle last⟩
  · cases hresult

/-- A step that faults freezes the machine that it is asked of. -/
theorem frozenAt_of_step (h : m.step = (.error fault, m')) : FrozenAt m fault m' := by
  obtain ⟨exact, latched, place, instruction, moved, kept, resumes⟩ :=
    frozenAt_of_cycle (step_eq_error_iff.mp h)
  -- a step has begun a run before, which only the status and the journal tell
  have hstart := step_congr (l := (m.start { stepping := true }).setPc (fault.pc + 1))
    (m := m.setPc (fault.pc + 1)) rfl
  exact ⟨exact, latched, place, instruction, moved, kept,
    resumes.1.trans hstart.1, resumes.2.trans hstart.2⟩

/-- **Faults are exact, and leave the machine frozen.** A step faults exactly if the word at the
program counter has a fault, and with this fault. Every run that ends in a fault has carried out
some number of instructions, and leaves the machine that they have left frozen at the fault. So does
every step. -/
theorem fault_freezes (m : Machine) :
    (∀ fault, (∃ m', m.step = (.error fault, m')) ↔
      Fault.of? m.registers.pc.toNat m.fetch.toNat = some fault) ∧
    (∀ launch fault m', m.Ends launch (.error fault) m' →
      ∃ k before, Retires k (m.start launch) before ∧ FrozenAt before fault m') ∧
    ∀ fault m', m.step = (.error fault, m') → FrozenAt m fault m' := by
  refine ⟨?_, ?_, ?_⟩
  · intro fault
    exact exists_step_eq_error_iff
  · intro launch fault m' h
    exact h.frozenAt
  · intro fault m' h
    exact frozenAt_of_step h

/-- The second instruction of a run stands in the last word of memory and is for no device. The
accumulator keeps what the first has put there, and the next step begins at address 0. -/
theorem fault_freezes_at_the_top :
    let m : Machine :=
      { memory := (Memory.cleared.set 0o7776 0o7001).set 0o7777 0o6101 }
    ∃ fault m', m.Ends { start := some 0o7776 } (.error fault) m' ∧
      fault = .unknownDevice 0o7777 0o10 0o6101 ∧ m'.status = .faulted fault ∧
      m'.registers = { ac := 1 } ∧ (m'.memory.read 0o7777).toNat = 0o6101 := by
  intro m
  have hmemory (a : Word) : m.memory.get a =
      if a = 0o7777 then 0o6101 else if a = 0o7776 then 0o7001 else 0 := by
    simp only [m, Memory.get_set, Memory.get_cleared]
  let m₀ := m.start { start := some 0o7776 }
  have hfetch : m₀.fetch = 0o7001 := hmemory 0o7776
  have hdecode : m₀.fetch.decode m₀.registers.pc = .ok (.groupOne (.ofWord 0o7001)) := by
    rw [hfetch]
    rfl
  let m₁ := m₀.advance.apply (m₀.nextEffect (.groupOne (.ofWord 0o7001))) m₀.registers.pc m₀.fetch
  have hfirst : m₀.cycle = (.ok .retired, m₁) := cycle_of_decode hdecode
  have hregisters : m₁.registers = { ac := 1, pc := 0o7777 } := by
    rw [registers_apply]
    rfl
  have hfetch₁ : m₁.fetch = 0o6101 := by
    rw [fetch, hregisters, memory_apply]
    exact hmemory 0o7777
  have hlast : m₁.cycle = (.error (.unknownDevice 0o7777 0o10 0o6101), _) :=
    cycle_eq_error_iff.mpr ⟨by rw [hregisters, hfetch₁]; rfl, rfl⟩
  have hends : m.Ends { start := some 0o7776 } (.error (.unknownDevice 0o7777 0o10 0o6101)) _ :=
    ends_iff_retires.mpr ⟨1, m₁, .cons hfirst (.zero m₁), .fault hlast⟩
  obtain ⟨k, before, -, hfrozen⟩ := (fault_freezes m).2.1 _ _ _ hends
  refine ⟨_, _, hends, rfl, hfrozen.latched, ?_, hfrozen.instruction⟩
  show m₁.registers.skip = { ac := 1 }
  rw [hregisters]
  rfl

end Machine

end TwelveBit
