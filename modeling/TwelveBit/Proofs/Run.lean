import TwelveBit.Proofs.Cycle

/-!
# Runs that end

A run is bounded by its fuel, so it *ends* if some fuel is enough (`Machine.Ends`), and how much
there was does not matter (`Machine.Ends.unique`).

A run that ends consists of cycles that retire and of one last cycle that does not
(`ends_iff_retires`). `Retires` is the relation for the former: what is true of a whole run is
proved by induction on it. `Closes` is the relation for the latter.
-/

namespace TwelveBit.Machine

variable {m m₁ m' : Machine} {steps : Nat} {result : Except Fault Completion}

/-! ## The beginning -/

/-- The machine with its program counter where a run is to start. -/
def seek (m : Machine) : Option Nat → Machine
  | some pc => m.setPc pc
  | none => m

/-- Only the program counter is set before a run, and the status and the journal tell of it. -/
theorem start_eq (launch : Launch) (m : Machine) : m.start launch =
    { m.seek launch.start with
      status := .running
      journal := m.journal.push
        (.started (m.seek launch.start).registers.pc launch.stepping) } := by
  obtain ⟨_ | pc, stepping⟩ := launch <;> rfl

/-! ## The loop -/

/-- A number of cycles, each of which retires its instruction. -/
inductive Retires : Nat → Machine → Machine → Prop where
  | zero (m : Machine) : Retires 0 m m
  | cons {n : Nat} {m m₁ m' : Machine} (first : m.cycle = (.ok .retired, m₁))
      (rest : Retires n m₁ m') : Retires (n + 1) m m'

/-- The last cycle of a run that has carried out `steps` instructions before. -/
inductive Closes (steps : Nat) (m : Machine) : Except Fault Completion → Machine → Prop where
  | halt {m' : Machine} (last : m.cycle = (.ok .halted, m')) :
      Closes steps m (.ok ⟨steps + 1, .halted⟩) (m'.noteHalt (steps + 1))
  | fault {m' : Machine} {fault : Fault} (last : m.cycle = (.error fault, m')) :
      Closes steps m (.error fault) m'

theorem retires_succ {n : Nat} :
    Retires (n + 1) m m' ↔ m.cycle.1 = .ok .retired ∧ Retires n m.cycle.2 m' := by
  constructor
  · intro h
    cases h with
    | cons first rest =>
        rw [first]
        exact ⟨rfl, rest⟩
  · rintro ⟨hfirst, hrest⟩
    exact .cons (Prod.ext hfirst rfl) hrest

theorem not_closes_of_retired (h : m.cycle = (.ok .retired, m₁)) : ¬ Closes steps m result m' := by
  rintro (last | last)
  · rw [h] at last; cases last
  · rw [h] at last; cases last

theorem closes_iff_of_halted (h : m.cycle = (.ok .halted, m₁)) :
    Closes steps m result m' ↔
      result = .ok ⟨steps + 1, .halted⟩ ∧ m' = m₁.noteHalt (steps + 1) := by
  constructor
  · rintro (last | last)
    · rw [h] at last; cases last; exact ⟨rfl, rfl⟩
    · rw [h] at last; cases last
  · rintro ⟨rfl, rfl⟩
    exact .halt h

theorem closes_iff_of_fault {fault : Fault} (h : m.cycle = (.error fault, m₁)) :
    Closes steps m result m' ↔ result = .error fault ∧ m' = m₁ := by
  constructor
  · rintro (last | last)
    · rw [h] at last; cases last
    · rw [h] at last; cases last; exact ⟨rfl, rfl⟩
  · rintro ⟨rfl, rfl⟩
    exact .fault h

theorem resume_of_retired {fuel : Nat} (h : m.cycle = (.ok .retired, m₁)) :
    resume (fuel + 1) steps m = resume fuel (steps + 1) m₁ := by
  rw [resume, h]

theorem resume_of_closes {fuel : Nat} (h : Closes steps m result m') :
    resume (fuel + 1) steps m = .finished result m' := by
  cases h with
  | halt last => rw [resume, last]
  | fault last => rw [resume, last]

/-- A cycle retires or is the last one. -/
theorem retires_or_closes (m : Machine) (steps : Nat) :
    (∃ m₁, m.cycle = (.ok .retired, m₁)) ∨ ∃ result m', Closes steps m result m' := by
  rcases h : m.cycle with ⟨fault | _ | _, m₁⟩
  · exact .inr ⟨_, _, .fault h⟩
  · exact .inl ⟨m₁, rfl⟩
  · exact .inr ⟨_, _, .halt h⟩

/-- With enough fuel the loop ends as its cycles say. -/
theorem exists_resume_iff :
    (∃ fuel, resume fuel steps m = .finished result m') ↔
      ∃ k m₁, Retires k m m₁ ∧ Closes (steps + k) m₁ result m' := by
  constructor
  · rintro ⟨fuel, h⟩
    -- on the fuel, which goes down by one with every cycle
    induction fuel generalizing steps m with
    | zero => cases h
    | succ fuel ih =>
        rcases m.retires_or_closes steps with ⟨m₁, hfirst⟩ | ⟨_, _, hlast⟩
        · rw [resume_of_retired hfirst] at h
          obtain ⟨k, m₂, hrest, hlast⟩ := ih h
          rw [Nat.add_right_comm, Nat.add_assoc] at hlast
          exact ⟨k + 1, m₂, .cons hfirst hrest, hlast⟩
        · rw [resume_of_closes hlast] at h
          cases h
          exact ⟨0, m, .zero m, hlast⟩
  · rintro ⟨k, m₁, hretires, hlast⟩
    induction hretires generalizing steps with
    | zero m => exact ⟨1, resume_of_closes hlast⟩
    | @cons n m m₁ m₂ first rest ih =>
        rw [← Nat.add_assoc, Nat.add_right_comm] at hlast
        obtain ⟨fuel, h⟩ := ih hlast
        exact ⟨fuel + 1, (resume_of_retired first).trans h⟩

/-- More fuel does not change a run that has ended. -/
theorem resume_add {fuel : Nat} (h : resume fuel steps m = .finished result m') (extra : Nat) :
    resume (fuel + extra) steps m = .finished result m' := by
  induction fuel generalizing steps m with
  | zero => cases h
  | succ fuel ih =>
      rw [Nat.add_right_comm]
      rcases m.retires_or_closes steps with ⟨m₁, hfirst⟩ | ⟨_, _, hlast⟩
      · rw [resume_of_retired hfirst] at h ⊢
        exact ih h
      · rw [resume_of_closes hlast] at h ⊢
        exact h

/-! ## Whole runs -/

/-- A run that is launched like this ends with this answer and leaves this machine. -/
def Ends (m : Machine) (launch : Launch) (result : Except Fault Completion) (m' : Machine) : Prop :=
  ∃ fuel, m.run launch fuel = .finished result m'

theorem run_of_not_stepping (m : Machine) (start : Option Nat) (fuel : Nat) :
    m.run { start } fuel = (m.start { start }).resume fuel 0 := rfl

theorem run_of_stepping (m : Machine) (start : Option Nat) (fuel : Nat) :
    m.run { start, stepping := true } fuel =
      .finished ((m.start { start, stepping := true }).single.1.map fun last => ⟨1, last⟩)
        (m.start { start, stepping := true }).single.2 := rfl

/-- A run ends after cycles that retire and a last one. -/
theorem ends_iff_retires {start : Option Nat} :
    m.Ends { start } result m' ↔
      ∃ k m₁, Retires k (m.start { start }) m₁ ∧ Closes k m₁ result m' := by
  refine exists_resume_iff.trans ?_
  simp only [Nat.zero_add]

/-- A run of a single instruction is a step. -/
theorem ends_iff_step {start : Option Nat} :
    m.Ends { start, stepping := true } result m' ↔
      result = (m.seek start).step.1.map (fun last => ⟨1, last⟩) ∧ m' = (m.seek start).step.2 := by
  have hrun (fuel : Nat) : m.run { start, stepping := true } fuel =
      .finished ((m.seek start).step.1.map fun last => ⟨1, last⟩) (m.seek start).step.2 := by
    cases start <;> rfl
  constructor
  · rintro ⟨fuel, h⟩
    rw [hrun] at h
    cases h
    exact ⟨rfl, rfl⟩
  · rintro ⟨rfl, rfl⟩
    exact ⟨0, hrun 0⟩

theorem ends_step (m : Machine) :
    m.Ends { stepping := true } (m.step.1.map fun last => ⟨1, last⟩) m.step.2 :=
  ends_iff_step.mpr ⟨rfl, rfl⟩

/-- However a run is launched, it ends after cycles that retire: with another cycle, or because it
was to carry out a single instruction. -/
theorem Ends.cases {launch : Launch} (h : m.Ends launch result m') :
    ∃ k m₁, Retires k (m.start launch) m₁ ∧
      (Closes k m₁ result m' ∨
        k = 1 ∧ result = .ok ⟨1, .retired⟩ ∧ m' = { m₁ with status := .stopped }) := by
  obtain ⟨start, _ | _⟩ := launch
  · obtain ⟨k, m₁, hretires, hlast⟩ := ends_iff_retires.mp h
    exact ⟨k, m₁, hretires, .inl hlast⟩
  · obtain ⟨fuel, h⟩ := h
    rw [run_of_stepping, single] at h
    rcases hfirst : (m.start { start, stepping := true }).cycle with ⟨fault | _ | _, m₁⟩ <;>
      rw [hfirst] at h <;> cases h
    · exact ⟨0, _, .zero _, .inl (.fault hfirst)⟩
    · exact ⟨1, m₁, .cons hfirst (.zero m₁), .inr ⟨rfl, rfl, rfl⟩⟩
    · exact ⟨0, _, .zero _, .inl (.halt hfirst)⟩

/-- A run has one end. -/
theorem Ends.unique {launch : Launch} {result₁ result₂ : Except Fault Completion}
    {m₁ m₂ : Machine} (h₁ : m.Ends launch result₁ m₁) (h₂ : m.Ends launch result₂ m₂) :
    result₁ = result₂ ∧ m₁ = m₂ := by
  obtain ⟨start, _ | _⟩ := launch
  · obtain ⟨fuel₁, h₁⟩ := h₁
    obtain ⟨fuel₂, h₂⟩ := h₂
    rw [run_of_not_stepping] at h₁ h₂
    replace h₁ := resume_add h₁ fuel₂
    replace h₂ := resume_add h₂ fuel₁
    rw [Nat.add_comm, h₁] at h₂
    cases h₂
    exact ⟨rfl, rfl⟩
  · obtain ⟨hresult₁, hm₁⟩ := ends_iff_step.mp h₁
    obtain ⟨hresult₂, hm₂⟩ := ends_iff_step.mp h₂
    exact ⟨hresult₁.trans hresult₂.symm, hm₁.trans hm₂.symm⟩

end TwelveBit.Machine
