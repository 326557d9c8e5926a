import TwelveBit.Proofs.Access
import TwelveBit.Proofs.Conclusion

/-!
# Subroutines

A jump to a subroutine leaves the address behind itself in the first word of the subroutine, and the
subroutine comes back by an indirect jump through that word. Nothing else keeps the address, so
whether the jump back finds it depends on that one word of memory alone.

`Machine.StoresAt` says where the next instruction stores. A step that does not store at an address
leaves the word there alone (`get_step`), hence so do any number of steps (`get_afterSteps`), and
`subroutine_returns` is what follows for the word that the call has stored.
-/

namespace TwelveBit

/-- Whether an instruction with this code stores a word at its address. -/
def Opcode.storesWord : Opcode → Bool
  | .isz => true
  | .dca => true
  | .jms => true
  | _ => false

namespace Machine

variable {m : Machine} {a : Word} {n : Nat}

/-- The next instruction stores a word at this address. -/
def StoresAt (m : Machine) (a : Word) : Prop := m.fetch.opcode.storesWord = true ∧ m.operand = a

instance (m : Machine) (a : Word) : Decidable (m.StoresAt a) :=
  inferInstanceAs (Decidable (_ ∧ _))

/-! ## A word that is not stored to -/

/-- The store of an instruction is the one that its code tells. -/
theorem storesAt_of_store {operation : Operation} {b v : Word}
    (hdecode : m.fetch.decode m.registers.pc = .ok operation)
    (hstore : (m.nextEffect operation).store = some (b, v)) : m.StoresAt b := by
  obtain ⟨-, rfl⟩ := store_effect hstore
  cases Instruction.decodes_of_decode hdecode with
  | isz code => exact ⟨congrArg Opcode.storesWord code, rfl⟩
  | dca code => exact ⟨congrArg Opcode.storesWord code, rfl⟩
  | jms code => exact ⟨congrArg Opcode.storesWord code, rfl⟩
  | _ => cases hstore

/-- A step keeps every word that it does not store to, whatever it answers. -/
theorem get_step (h : ¬ m.StoresAt a) : m.step.2.memory.get a = m.memory.get a := by
  cases hdecode : m.fetch.decode m.registers.pc with
  | error fault =>
      obtain ⟨m', hstep⟩ :=
        exists_step_eq_error_iff.mpr (Instruction.decode_eq_error_iff.mp hdecode)
      rw [hstep, (step_fault hstep).1]
  | ok operation =>
      obtain ⟨m', hstep, hsteps⟩ := step_of_decode hdecode
      rw [hstep, hsteps.memory]
      refine get_store fun b v hstore => ?_
      rintro rfl
      exact h (storesAt_of_store hdecode hstore)

/-- So do any number of steps. -/
theorem get_afterSteps (h : ∀ i < n, ¬ (m.afterSteps i).StoresAt a) :
    (m.afterSteps n).memory.get a = m.memory.get a := by
  induction n generalizing m with
  | zero => rfl
  | succ n ih =>
      have hrest : (m.step.2.afterSteps n).memory.get a = m.step.2.memory.get a :=
        ih fun i hi => h (i + 1) (Nat.succ_lt_succ hi)
      exact hrest.trans (get_step (h 0 n.succ_pos))

/-! ## Going there and coming back -/

/-- A jump to a subroutine stores the address behind it in the first word of the subroutine, and
goes on with the second. -/
theorem step_of_jms (h : m.fetch.opcode = .jms) :
    m.step.1 = .ok .retired ∧ m.step.2.registers.pc = m.operand + 1 ∧
      m.step.2.memory.get m.operand = m.registers.pc + 1 := by
  have hdecode : m.fetch.decode m.registers.pc = .ok .jms := by
    rw [Instruction.decode, h]
  obtain ⟨m', hstep, hsteps⟩ := step_of_decode hdecode
  rw [hstep]
  refine ⟨rfl, ?_, ?_⟩
  · rw [hsteps.registers]
    rfl
  · rw [hsteps.memory]
    exact Memory.get_set_self m.memory m.operand (m.registers.pc + 1)

theorem step_of_jmp (h : m.fetch.opcode = .jmp) :
    m.step.1 = .ok .retired ∧ m.step.2.registers.pc = m.operand := by
  have hdecode : m.fetch.decode m.registers.pc = .ok .jmp := by
    rw [Instruction.decode, h]
  obtain ⟨m', hstep, hsteps⟩ := step_of_decode hdecode
  rw [hstep]
  refine ⟨rfl, ?_⟩
  rw [hsteps.registers]
  rfl

/-- **A subroutine comes back to its caller.** Take a machine that has come to a jump to a
subroutine, and any number of steps after the jump, whatever they do and answer, none of which
stores to the first word of the subroutine. If the machine has then come to an indirect jump through
that word, the jump is carried out and leads to the address behind the call. -/
theorem subroutine_returns (call : m.fetch.opcode = .jms)
    (kept : ∀ i, 0 < i → i ≤ n → ¬ (m.afterSteps i).StoresAt m.operand)
    (jump : (m.afterSteps (n + 1)).fetch.opcode = .jmp)
    (indirect : (m.afterSteps (n + 1)).fetch.indirect = true)
    (through : (m.afterSteps (n + 1)).fetch.direct (m.afterSteps (n + 1)).registers.pc =
      m.operand) :
    (m.nthStep (n + 1)).1 = .ok .retired ∧
      (m.nthStep (n + 1)).2.registers.pc.toNat = (m.registers.pc.toNat + 1) % 4096 := by
  obtain ⟨-, -, hstored⟩ := step_of_jms call
  obtain ⟨hretired, hpc⟩ := step_of_jmp jump
  -- the steps in question are those of the machine that the call has left
  have hkept : (m.afterSteps (n + 1)).memory.get m.operand = m.registers.pc + 1 :=
    (get_afterSteps fun i hi => kept (i + 1) i.succ_pos hi).trans hstored
  have hback : (m.afterSteps (n + 1)).operand = m.registers.pc + 1 := by
    rw [operand, Instruction.effectiveAddress, if_pos indirect, through, hkept]
  refine ⟨hretired, ?_⟩
  rw [nthStep, hpc, hback, Word.toNat_add_one]

/-- The call stands in the last word of memory, and goes through a pointer that points to itself:
the address to come back to, which is 0, takes its place. The subroutine increments its last
instruction, and only thereby makes it the jump back. -/
theorem subroutine_returns_through_its_pointer :
    let m : Machine :=
      { registers := { pc := 0o7777 }
        memory := (((Memory.cleared.set 0o7777 0o4620).set 0o20 0o20).set 0o21 0o2222).set
          0o22 0o5617 }
    m.fetch.opcode = .jms ∧ (∀ i, 0 < i → i ≤ 1 → ¬ (m.afterSteps i).StoresAt m.operand) ∧
      m.operand = 0o20 ∧ (m.afterSteps 2).fetch = 0o5620 ∧
      (m.nthStep 2).1 = .ok .retired ∧ (m.nthStep 2).2.registers.pc.toNat = 0 := by
  intro m
  have hcall : m.fetch.opcode = .jms := by decide +kernel
  have hoperand : m.operand = 0o20 := by decide +kernel
  have hkept : ∀ i, 0 < i → i ≤ 1 → ¬ (m.afterSteps i).StoresAt m.operand := by
    intro i hpos hle
    obtain rfl : i = 1 := Nat.le_antisymm hle hpos
    decide +kernel
  have hlast : (m.afterSteps 2).fetch = 0o5620 := by decide +kernel
  obtain ⟨hretired, hpc⟩ := subroutine_returns (n := 1) hcall hkept (by rw [hlast]; rfl)
    (by rw [hlast]; rfl) (by rw [hlast, hoperand]; decide +kernel)
  exact ⟨hcall, hkept, hoperand, hlast, hretired, hpc.trans (by decide +kernel)⟩

end Machine

end TwelveBit
