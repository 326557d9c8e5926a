import Mathlib.Algebra.BigOperators.Group.List.Basic
import Mathlib.Algebra.Ring.Int.Defs
import TwelveBit.Proofs.Access
import TwelveBit.Proofs.Operate

/-!
# Rotations one after another

`Rotation` are the four instructions that do nothing but rotate. A machine carries rotations out one
after another (`Machine.Turns`) if a step is taken on each of them; what happens between the steps
is left open, as long as nobody touches the link and the accumulator. So a row of rotations may
stand in memory and be stepped through (`turns_of_holds`), or wrap around the end of memory, or be
deposited word by word (`exists_turns`), and may be as long as one likes.

One step turns the thirteen bits by the places of its rotation (`Rotation.step`), and a sequence by
the sum of the places (`Turns.bits`). All else about sequences is the arithmetic of turns.
-/

namespace TwelveBit

/-- The instructions `RAR`, `RAL`, `RTR` and `RTL`. -/
inductive Rotation where
  | right
  | left
  | rightTwice
  | leftTwice
  deriving DecidableEq, Repr

namespace Rotation

def word : Rotation → Word
  | right => 0o7010
  | left => 0o7004
  | rightTwice => 0o7012
  | leftTwice => 0o7006

/-- The number of places to the left. -/
def places : Rotation → Int
  | right => -1
  | left => 1
  | rightTwice => -2
  | leftTwice => 2

/-! ## One rotation -/

variable (r : Rotation)

theorem decode_word (pc : Word) :
    Instruction.decode r.word pc = .ok (.groupOne (.ofWord r.word)) := by
  cases r <;> rfl

/-- The bits are turned by the places. -/
theorem bits_apply (x : LinkAccumulator) :
    ((GroupOne.ofWord r.word).apply x).bits = turned r.places x.bits := by
  have hright := GroupOne.bits_turn_right (.ofWord r.word) x
  have hleft := GroupOne.bits_turn_left (.ofWord r.word) x
  cases r with
  | right => exact hright.trans (rotateRight_eq_turned (by decide) _)
  | left => exact hleft.trans (rotateLeft_eq_turned (by decide) _)
  | rightTwice => exact hright.trans (rotateRight_eq_turned (by decide) _)
  | leftTwice => exact hleft.trans (rotateLeft_eq_turned (by decide) _)

/-- **A step on a rotation turns the bits**, goes on to the next word and leaves memory alone. -/
theorem step {m : Machine} (h : m.fetch = r.word) :
    ∃ m', m.step = (.ok .retired, m') ∧ m'.registers.bits = turned r.places m.registers.bits ∧
      m'.registers.pc = m.registers.pc + 1 ∧ m'.memory = m.memory := by
  have hdecode := r.decode_word m.registers.pc
  rw [← h] at hdecode
  obtain ⟨m', hstep, hm'⟩ := Machine.step_of_decode hdecode
  refine ⟨m', hstep, ?_, ?_, hm'.memory⟩
  · rw [hm'.registers, h]
    exact r.bits_apply m.registers.toLinkAccumulator
  · rw [hm'.registers]
    rfl

end Rotation

namespace Machine

/-! ## Sequences of rotations -/

/-- A machine carries out rotations one after another, each by a step that retires. Between the
steps anything may be done to it that keeps the link and the accumulator. -/
inductive Turns : Machine → List Rotation → Machine → Prop where
  | nil {m m' : Machine}
      (kept : m'.registers.toLinkAccumulator = m.registers.toLinkAccumulator) : Turns m [] m'
  | cons {m m₁ m₂ m' : Machine} {r : Rotation} {rs : List Rotation}
      (kept : m₁.registers.toLinkAccumulator = m.registers.toLinkAccumulator)
      (here : m₁.fetch = r.word) (step : m₁.step = (.ok .retired, m₂))
      (rest : Turns m₂ rs m') : Turns m (r :: rs) m'

variable {m m' : Machine} {rs : List Rotation}

/-- **Rotations one after another turn the bits by the sum of their places.** -/
theorem Turns.bits (h : m.Turns rs m') :
    m'.registers.bits = turned (rs.map Rotation.places).sum m.registers.bits := by
  induction h with
  | nil kept =>
      rw [kept]
      exact (turned_zero _).symm
  | @cons m m₁ m₂ m' r rs kept here step rest ih =>
      obtain ⟨m₃, hstep, hbits, -⟩ := r.step here
      rw [step] at hstep
      cases hstep
      rw [ih, hbits, kept, turned_turned, List.map_cons, List.sum_cons]

/-- Every sequence can be carried out, on every machine: by depositing each rotation where the
program counter stands. -/
theorem exists_turns (rs : List Rotation) (m : Machine) : ∃ m', m.Turns rs m' := by
  induction rs generalizing m with
  | nil => exact ⟨m, .nil rfl⟩
  | cons r rs ih =>
      have here : (m.withWord m.registers.pc r.word).fetch = r.word := Memory.get_set_self ..
      obtain ⟨m₂, hstep, -⟩ := r.step here
      obtain ⟨m', hrest⟩ := ih m₂
      have kept : (m.withWord m.registers.pc r.word).registers.toLinkAccumulator =
        m.registers.toLinkAccumulator := rfl
      exact ⟨m', .cons kept here hstep hrest⟩

/-- A row in memory can be counted from past the end of memory. -/
theorem holds_mod {memory : Memory} {origin : Nat} {row : List Word} :
    memory.Holds (origin % 4096) row ↔ memory.Holds origin row := by
  have hwrap (i : Nat) : Word.ofNat (origin % 4096 + i) = Word.ofNat (origin + i) := by
    apply BitVec.eq_of_toNat_eq
    rw [Word.toNat_ofNat, Word.toNat_ofNat, Nat.mod_add_mod]
  simp only [Memory.Holds, hwrap]

/-- Stepping through rotations that stand in memory carries them out. -/
theorem turns_of_holds (h : m.memory.Holds m.registers.pc.toNat (rs.map Rotation.word)) :
    (∀ i < rs.length, (m.nthStep i).1 = .ok .retired) ∧ m.Turns rs (m.afterSteps rs.length) := by
  induction rs generalizing m with
  | nil => exact ⟨fun i hi => absurd hi (Nat.not_lt_zero i), .nil rfl⟩
  | cons r rs ih =>
      obtain ⟨hword, hrow⟩ := Memory.holds_cons_iff.mp h
      rw [Word.ofNat_toNat] at hword
      obtain ⟨m₁, hstep, -, hpc, hmemory⟩ := r.step hword
      have hnext : m₁.memory.Holds m₁.registers.pc.toNat (rs.map Rotation.word) := by
        rw [hmemory, hpc, Word.toNat_add_one, holds_mod]
        exact hrow
      obtain ⟨hretire, hturns⟩ := ih hnext
      refine ⟨?_, ?_⟩
      · intro i hi
        cases i with
        | zero => exact congrArg Prod.fst hstep
        | succ i =>
            rw [nthStep, afterSteps, hstep]
            exact hretire i (Nat.lt_of_succ_lt_succ hi)
      · refine .cons rfl hword hstep ?_
        rw [List.length_cons, afterSteps, hstep]
        exact hturns

/-- **Rotations are turns of a ring of thirteen bits.** Every sequence of rotations can be carried
out, and is if it stands in memory from the program counter on. However it is carried out, it turns
the bits by the sum of its places. So the order of the rotations never matters, a sum that is a
multiple of thirteen brings the link and the accumulator back, and every bit is found again in the
place to which it has been turned. -/
theorem turns_cyclic (m : Machine) (rs : List Rotation) :
    (∃ m', m.Turns rs m') ∧
    (m.memory.Holds m.registers.pc.toNat (rs.map Rotation.word) →
      (∀ i < rs.length, (m.nthStep i).1 = .ok .retired) ∧ m.Turns rs (m.afterSteps rs.length)) ∧
    ∀ m', m.Turns rs m' →
      m'.registers.bits = turned (rs.map Rotation.places).sum m.registers.bits ∧
      (∀ rs' l', rs'.Perm rs → m.Turns rs' l' →
        l'.registers.toLinkAccumulator = m'.registers.toLinkAccumulator) ∧
      (13 ∣ (rs.map Rotation.places).sum →
        m'.registers.toLinkAccumulator = m.registers.toLinkAccumulator) ∧
      ∀ i : Nat, i < 13 →
        m'.registers.bits.getLsbD ((i + (rs.map Rotation.places).sum) % 13).toNat =
          m.registers.bits.getLsbD i := by
  refine ⟨exists_turns rs m, turns_of_holds, fun m' hturns => ⟨hturns.bits, ?_, ?_, ?_⟩⟩
  · intro rs' l' hperm hturns'
    have hsum : (rs'.map Rotation.places).sum = (rs.map Rotation.places).sum :=
      (hperm.map Rotation.places).sum_eq
    rw [← LinkAccumulator.bits_inj, hturns'.bits, hturns.bits, hsum]
  · intro hdvd
    rw [← LinkAccumulator.bits_inj, hturns.bits, turned_of_dvd hdvd]
  · intro i hi
    rw [hturns.bits, getLsbD_turned_add hi]

/-- Thirteen rotations by one place, from the program in memory, bring back what they began with. -/
theorem turns_cyclic_of_whole_turn :
    let rs := List.replicate 13 Rotation.left
    let m : Machine :=
      { registers := { link := true, ac := 0o1234, pc := 0o200 }
        memory := Memory.cleared.setFrom (Word.ofNat 0o200) (rs.map Rotation.word) }
    m.memory.Holds m.registers.pc.toNat (rs.map Rotation.word) ∧
      (m.afterSteps 13).registers.toLinkAccumulator = { link := true, ac := 0o1234 } := by
  intro rs m
  have hlength : (rs.map Rotation.word).length = 13 := rfl
  have hholds : m.memory.Holds m.registers.pc.toNat (rs.map Rotation.word) := by
    apply Memory.holds_setFrom
    rw [hlength]
    decide
  obtain ⟨-, hprogram, hturned⟩ := turns_cyclic m rs
  obtain ⟨-, hturns⟩ := hprogram hholds
  obtain ⟨-, -, hwhole, -⟩ := hturned _ hturns
  exact ⟨hholds, hwhole (by decide)⟩

end Machine

end TwelveBit
