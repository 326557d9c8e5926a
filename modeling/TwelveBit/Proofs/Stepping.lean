import TwelveBit.Proofs.Run

/-!
# Running is stepping

A run stays running from its first instruction to its last. A step begins and ends a run for every
instruction, and notes so in the journal. `Tracks` relates a machine in the middle of a run to the
machine that the same number of steps has left, and one more instruction keeps them so or ends both
alike (`Tracks.next`). So a run ends exactly as stepping does, after as many instructions, and the
machine is the same but for its journal (`ends_iff_stepsTo`).
-/

namespace TwelveBit.Machine

variable {m l m' l' : Machine} {k steps : Nat} {result : Except Fault Completion}
  {answer : Except Fault Outcome} {observed : Machine}

/-! ## The journal plays no part -/

/-- Everything of a machine that another machine can observe. -/
def withoutJournal (m : Machine) : Machine := { m with journal := .off }

theorem apply_withoutJournal (m : Machine) (e : Effect) (pc : Word) (i : Instruction) :
    m.withoutJournal.apply e pc i = (m.apply e pc i).withoutJournal := by
  rw [apply_eq, apply_eq]
  rcases e.store with _ | ⟨address, value⟩ <;> rfl

/-- An instruction does not read the journal. -/
theorem cycle_withoutJournal (m : Machine) :
    m.withoutJournal.cycle = (m.cycle.1, m.cycle.2.withoutJournal) := by
  cases h : m.fetch.decode m.registers.pc with
  | error fault =>
      rw [cycle_of_fault h, cycle_of_fault (m := m.withoutJournal) h]
      rfl
  | ok operation =>
      rw [cycle_of_decode h, cycle_of_decode (m := m.withoutJournal) h]
      exact congrArg (Prod.mk _) (apply_withoutJournal m.advance _ _ _)

/-- Machines that differ in their journals only carry out the next instruction alike. -/
theorem cycle_congr (h : l.withoutJournal = m.withoutJournal) :
    l.cycle.1 = m.cycle.1 ∧ l.cycle.2.withoutJournal = m.cycle.2.withoutJournal := by
  have hcycle := congrArg cycle h
  rw [cycle_withoutJournal, cycle_withoutJournal] at hcycle
  exact Prod.mk.inj hcycle

/-- An instruction that is carried out leaves the status alone, unless it halts. -/
theorem status_of_ok {outcome : Outcome} (h : m.cycle = (.ok outcome, m')) :
    m'.status = if outcome = .halted then .halted else m.status := by
  cases hdecode : m.fetch.decode m.registers.pc with
  | error fault => rw [cycle_of_fault hdecode] at h; cases h
  | ok operation =>
      rw [cycle_of_decode hdecode, Effect.outcome] at h
      obtain ⟨houtcome, rfl⟩ := Prod.mk.inj h
      obtain rfl := Except.ok.inj houtcome
      rw [apply_eq]
      cases (m.nextEffect operation).halts <;> rfl

theorem status_of_retired (h : m.cycle = (.ok .retired, m')) : m'.status = m.status :=
  status_of_ok h

theorem status_of_halted (h : m.cycle = (.ok .halted, m')) : m'.status = .halted := status_of_ok h

/-- The machine that a step leaves whose instruction has this effect. -/
structure StepsBy (m : Machine) (e : Effect) (m' : Machine) : Prop where
  registers : m'.registers = e.registers
  memory : m'.memory = (m.store e.store).memory
  status : m'.status = if e.halts then .halted else .stopped
  teleprinter : m'.teleprinter = e.teleprinter
  switches : m'.switches = m.switches
  events : m'.events =
    if m.tracing then (e.events m.registers.pc m.fetch).foldl .push m.events else m.events

/-- A step on a word that can be decoded. -/
theorem step_of_decode {operation : Operation} (h : m.fetch.decode m.registers.pc = .ok operation) :
    ∃ m', m.step = (.ok (m.nextEffect operation).outcome, m') ∧
      m.StepsBy (m.nextEffect operation) m' := by
  have hcycle := cycle_of_decode (m := m.start { stepping := true }) h
  rw [nextEffect_start, Effect.outcome] at hcycle
  rw [step, single, hcycle, apply_eq, Effect.outcome]
  generalize m.nextEffect operation = e
  obtain ⟨registers, teleprinter, store, halts⟩ := e
  -- a step that retires stops the machine, and one that halts notes so in the journal
  cases halts with
  | false => rcases store with _ | ⟨address, value⟩ <;> exact ⟨_, rfl, rfl, rfl, rfl, rfl, rfl, rfl⟩
  | true => rcases store with _ | ⟨address, value⟩ <;> exact ⟨_, rfl, rfl, rfl, rfl, rfl, rfl, rfl⟩

/-! ## Iterated steps -/

/-- The machine after a number of steps, whatever they answer. -/
def afterSteps : Nat → Machine → Machine
  | 0, m => m
  | n + 1, m => afterSteps n m.step.2

/-- The answer of one of the steps that are taken one after another, counted from 0, and the machine
that it leaves. -/
def nthStep (m : Machine) (i : Nat) : Except Fault Outcome × Machine := (m.afterSteps i).step

/-- The first `k` steps retire, and the one after them gives this answer and leaves this machine. -/
def StepsTo (m : Machine) (k : Nat) (answer : Except Fault Outcome) (m' : Machine) : Prop :=
  (∀ i < k, (m.nthStep i).1 = .ok .retired) ∧ m.nthStep k = (answer, m')

theorem stepsTo_zero : m.StepsTo 0 answer m' ↔ m.step = (answer, m') :=
  and_iff_right fun _ hi => absurd hi (Nat.not_lt_zero _)

theorem stepsTo_succ :
    m.StepsTo (k + 1) answer m' ↔ m.step.1 = .ok .retired ∧ m.step.2.StepsTo k answer m' := by
  constructor
  · rintro ⟨hretired, hlast⟩
    exact ⟨hretired 0 k.succ_pos, fun i hi => hretired (i + 1) (Nat.succ_lt_succ hi), hlast⟩
  · rintro ⟨hfirst, hretired, hlast⟩
    refine ⟨fun i hi => ?_, hlast⟩
    cases i with
    | zero => exact hfirst
    | succ i => exact hretired i (Nat.lt_of_succ_lt_succ hi)

/-! ## The two side by side -/

/-- The first machine is in a run, and the second is where stepping has come to by then. -/
def Tracks (l m : Machine) : Prop :=
  l.withoutJournal = { m with status := .running }.withoutJournal

theorem tracks_start (m : Machine) (launch : Launch) :
    Tracks (m.start launch) (m.seek launch.start) := by
  rw [Tracks, start_eq]
  rfl

/-- **The next instruction in a run and the next step do the same.** If it retires, the run goes on
from where stepping goes on. If it does not, both end with the same machine. -/
theorem Tracks.next (h : Tracks l m) :
    (∃ l₁ m₁, l.cycle = (.ok .retired, l₁) ∧ m.step = (.ok .retired, m₁) ∧ Tracks l₁ m₁) ∨
    (∃ l₁ m₁, l.cycle = (.ok .halted, l₁) ∧ m.step = (.ok .halted, m₁) ∧
      l₁.withoutJournal = m₁.withoutJournal) ∨
    ∃ fault l₁ m₁, l.cycle = (.error fault, l₁) ∧ m.step = (.error fault, m₁) ∧
      l₁.withoutJournal = m₁.withoutJournal := by
  obtain ⟨hanswer, hmachine⟩ :=
    cycle_congr (h.trans (tracks_start m { stepping := true }).symm)
  rw [step, single]
  rcases hl : l.cycle with ⟨answer, l₁⟩
  rcases hm : (m.start { stepping := true }).cycle with ⟨answer', m₁⟩
  rw [hl, hm] at hanswer hmachine
  change answer = answer' at hanswer
  subst hanswer
  rcases answer with fault | _ | _
  · exact .inr (.inr ⟨fault, l₁, m₁, rfl, rfl, hmachine⟩)
  · -- both are still running, and the step stops only afterwards
    refine .inl ⟨l₁, { m₁ with status := .stopped }, rfl, rfl, ?_⟩
    have hrunning : m₁.status = .running := (status_of_retired hm).trans (by rw [start_eq])
    rw [Tracks, hmachine, withoutJournal, withoutJournal, hrunning]
  · exact .inr (.inl ⟨l₁, m₁.noteHalt 1, rfl, rfl, hmachine⟩)

/-- The last cycle of a run ends it with the answer of the next step. -/
theorem Tracks.closes_iff (h : Tracks l m) :
    (∃ l', Closes steps l result l' ∧ l'.withoutJournal = observed) ↔
      (result = .ok ⟨steps + 1, .halted⟩ ∨ ∃ fault, result = .error fault) ∧
        ∃ m', m.step = (result.map (·.last), m') ∧ m'.withoutJournal = observed := by
  rcases h.next with ⟨l₁, m₁, hl, hm, -⟩ | ⟨l₁, m₁, hl, hm, heq⟩ | ⟨fault, l₁, m₁, hl, hm, heq⟩
  · refine iff_of_false ?_ ?_
    · rintro ⟨l', hlast, -⟩
      exact not_closes_of_retired hl hlast
    · rintro ⟨rfl | ⟨fault, rfl⟩, m', hstep, -⟩ <;> rw [hm] at hstep <;> cases hstep
  · constructor
    · rintro ⟨l', hlast, rfl⟩
      obtain ⟨rfl, rfl⟩ := (closes_iff_of_halted hl).mp hlast
      exact ⟨.inl rfl, m₁, hm, heq.symm⟩
    · rintro ⟨rfl | ⟨fault, rfl⟩, m', hstep, rfl⟩ <;> rw [hm] at hstep <;> cases hstep
      exact ⟨_, .halt hl, heq⟩
  · constructor
    · rintro ⟨l', hlast, rfl⟩
      obtain ⟨rfl, rfl⟩ := (closes_iff_of_fault hl).mp hlast
      exact ⟨.inr ⟨fault, rfl⟩, m₁, hm, heq.symm⟩
    · rintro ⟨rfl | ⟨fault, rfl⟩, m', hstep, rfl⟩ <;> rw [hm] at hstep <;> cases hstep
      exact ⟨l₁, .fault hl, heq⟩

/-- A run comes to its end after as many cycles as stepping takes steps to an answer other than that
it has retired. -/
theorem Tracks.retires_closes_iff (h : Tracks l m) :
    (∃ l₁ l', Retires k l l₁ ∧ Closes steps l₁ result l' ∧ l'.withoutJournal = observed) ↔
      (result = .ok ⟨steps + 1, .halted⟩ ∨ ∃ fault, result = .error fault) ∧
        ∃ m', m.StepsTo k (result.map (·.last)) m' ∧ m'.withoutJournal = observed := by
  -- on the cycles before the last one, each of which keeps the machines side by side
  induction k generalizing l m with
  | zero =>
      simp only [stepsTo_zero, ← h.closes_iff]
      constructor
      · rintro ⟨_, l', ⟨⟩, hlast⟩
        exact ⟨l', hlast⟩
      · rintro ⟨l', hlast⟩
        exact ⟨l, l', .zero l, hlast⟩
  | succ k ih =>
      simp only [retires_succ, stepsTo_succ]
      rcases h.next with ⟨l₁, m₁, hl, hm, hnext⟩ | ⟨l₁, m₁, hl, hm, -⟩ | ⟨fault, l₁, m₁, hl, hm, -⟩
      · simp only [hl, hm, true_and]
        exact ih hnext
      · simp [hl, hm]
      · simp [hl, hm]

/-! ## Whole runs -/

/-- A run that is not stepping ends as stepping ends, with everything that can be observed. -/
theorem exists_ends_iff_stepsTo {start : Option Nat} :
    (∃ m', m.Ends { start } result m' ∧ m'.withoutJournal = observed) ↔
      ∃ k m', (result = .ok ⟨k + 1, .halted⟩ ∨ ∃ fault, result = .error fault) ∧
        (m.seek start).StepsTo k (result.map (·.last)) m' ∧ m'.withoutJournal = observed := by
  constructor
  · rintro ⟨m', hends, hobserved⟩
    obtain ⟨k, l₁, hretires, hlast⟩ := ends_iff_retires.mp hends
    obtain ⟨hresult, m₁, hsteps, hm₁⟩ :=
      (tracks_start m { start }).retires_closes_iff.mp ⟨l₁, m', hretires, hlast, hobserved⟩
    exact ⟨k, m₁, hresult, hsteps, hm₁⟩
  · rintro ⟨k, m₁, hresult, hsteps, hm₁⟩
    obtain ⟨l₁, m', hretires, hlast, hobserved⟩ :=
      (tracks_start m { start }).retires_closes_iff.mpr ⟨hresult, m₁, hsteps, hm₁⟩
    exact ⟨m', ends_iff_retires.mpr ⟨k, l₁, hretires, hlast⟩, hobserved⟩

/-- **The run loop is iterated stepping.** From any machine and any start, a run answers that it
has ended after `n` instructions exactly if `n - 1` steps retire and the `n`-th halts, and a fault
exactly if some step after others that retire answers this fault. The machine that the run leaves
is the one that the last step leaves, but for the journal. -/
theorem ends_iff_stepsTo (m : Machine) (start : Option Nat) :
    (∀ n last observed,
      (∃ m', m.Ends { start } (.ok ⟨n, last⟩) m' ∧ m'.withoutJournal = observed) ↔
        last = .halted ∧ ∃ k m', n = k + 1 ∧
          (m.seek start).StepsTo k (.ok .halted) m' ∧ m'.withoutJournal = observed) ∧
    ∀ fault observed,
      (∃ m', m.Ends { start } (.error fault) m' ∧ m'.withoutJournal = observed) ↔
        ∃ k m', (m.seek start).StepsTo k (.error fault) m' ∧ m'.withoutJournal = observed := by
  constructor
  · intro n last observed
    rw [exists_ends_iff_stepsTo]
    constructor
    · rintro ⟨k, m', hresult | ⟨fault, hresult⟩, hsteps, hobserved⟩ <;> cases hresult
      exact ⟨rfl, k, m', rfl, hsteps, hobserved⟩
    · rintro ⟨rfl, k, m', rfl, hsteps, hobserved⟩
      exact ⟨k, m', .inl rfl, hsteps, hobserved⟩
  · intro fault observed
    rw [exists_ends_iff_stepsTo]
    constructor
    · rintro ⟨k, m', -, hsteps, hobserved⟩
      exact ⟨k, m', hsteps, hobserved⟩
    · rintro ⟨k, m', hsteps, hobserved⟩
      exact ⟨k, m', .inr ⟨fault, rfl⟩, hsteps, hobserved⟩

end TwelveBit.Machine
