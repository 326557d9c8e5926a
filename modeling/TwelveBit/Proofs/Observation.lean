import TwelveBit.Machine.Request
import TwelveBit.Proofs.Stepping

/-!
# Observation

Who follows a machine does not change what it does. `Machine.Unnoticed` says of a change to a
machine that no instruction and no request notices it: the changed machine answers the same, and
what is left is the machine that would have been left, with the same change. It is enough to see so
for one cycle and for the parts that a request sets; `Unnoticed.resume` carries it through a run of
any length, and `Unnoticed.serve` to every request but the one that reads the output.

To stop reporting events, and to put another tape in the place of theirs, is such a change
(`unnoticed_unwatched`). `serveAll_observed` is the result for whole histories.
-/

namespace TwelveBit.Machine

variable {f : Machine → Machine}

/-! ## Changes that go unnoticed -/

/-- The machine in which a run stands, changed. -/
def Progress.map (f : Machine → Machine) : Progress → Progress
  | .finished result m => .finished result (f m)
  | .unfinished steps m => .unfinished steps (f m)

/-- A change to a machine that leaves registers and memory alone, that can be made before or after
something else is set, and that the next instruction does not notice. -/
structure Unnoticed (f : Machine → Machine) : Prop where
  registers (m : Machine) : (f m).registers = m.registers
  memory (m : Machine) : (f m).memory = m.memory
  setRegisters (m : Machine) (r : Registers) :
    { f m with registers := r } = f { m with registers := r }
  setMemory (m : Machine) (memory : Memory) : { f m with memory } = f { m with memory }
  setStatus (m : Machine) (status : Status) : { f m with status } = f { m with status }
  /-- From outside only a word is set. -/
  setSwitches (m : Machine) (w : Word) :
    { f m with switches := w.toNat } = f { m with switches := w.toNat }
  note (m : Machine) (record : Record) : (f m).note record = f (m.note record)
  cycle (m : Machine) : (f m).cycle = (m.cycle.1, f m.cycle.2)

namespace Unnoticed

variable (hf : Unnoticed f)

include hf

theorem setPc (m : Machine) (value : Nat) : (f m).setPc value = f (m.setPc value) := by
  rw [Machine.setPc, hf.registers, hf.setRegisters]
  rfl

theorem start (m : Machine) (launch : Launch) : (f m).start launch = f (m.start launch) := by
  have hseek : (f m).seek launch.start = f (m.seek launch.start) := by
    cases launch.start with
    | none => rfl
    | some pc => exact hf.setPc m pc
  have hstart (m : Machine) : m.start launch =
      { m.seek launch.start with status := .running }.note
        (.started (m.seek launch.start).registers.pc launch.stepping) := by
    obtain ⟨_ | pc, stepping⟩ := launch
    · rfl
    · rfl
  rw [hstart, hstart, hseek, hf.registers, hf.setStatus, hf.note]

theorem noteHalt (m : Machine) (steps : Nat) : (f m).noteHalt steps = f (m.noteHalt steps) := by
  rw [Machine.noteHalt, hf.registers, hf.note]
  rfl

theorem single (m : Machine) : (f m).single = (m.single.1, f m.single.2) := by
  unfold Machine.single
  rw [hf.cycle]
  rcases m.cycle with ⟨_ | _ | _, m₁⟩
  · rfl
  · exact congrArg (Prod.mk _) (hf.setStatus m₁ .stopped)
  · exact congrArg (Prod.mk _) (hf.noteHalt m₁ 1)

theorem step (m : Machine) : (f m).step = (m.step.1, f m.step.2) := by
  unfold Machine.step
  rw [hf.start, hf.single]

/-- A run goes on in the same way, however far it comes. -/
theorem resume (fuel steps : Nat) (m : Machine) :
    (f m).resume fuel steps = (m.resume fuel steps).map f := by
  induction fuel generalizing steps m with
  | zero => rfl
  | succ fuel ih =>
      unfold Machine.resume
      rw [hf.cycle]
      rcases m.cycle with ⟨_ | _ | _, m₁⟩
      · rfl
      · exact ih (steps + 1) m₁
      · exact congrArg (Progress.finished _) (hf.noteHalt m₁ (steps + 1))

theorem run (launch : Launch) (fuel : Nat) (m : Machine) :
    (f m).run launch fuel = (m.run launch fuel).map f := by
  unfold Machine.run
  simp only [hf.start, hf.single, hf.resume]
  split <;> rfl

/-- **A change that no instruction notices is noticed by no request**, unless it asks for the
output. -/
theorem serve {request : Request} (h : request ≠ .takeOutput) (fuel : Nat) (m : Machine) :
    (f m).serve fuel request = ((m.serve fuel request).1, f (m.serve fuel request).2) := by
  cases request with
  | edit change => simp only [Machine.serve, hf.memory, hf.setMemory]
  | setPc value => simp only [Machine.serve, hf.setPc]
  | setAc value => simp only [Machine.serve, Machine.setAc, hf.registers, hf.setRegisters]
  | setLink value => simp only [Machine.serve, Machine.setLink, hf.registers, hf.setRegisters]
  | skip => simp only [Machine.serve, hf.registers, hf.setRegisters]
  | setSwitches value => simp only [Machine.serve, hf.setSwitches]
  | takeOutput => exact absurd rfl h
  | run launch =>
      simp only [Machine.serve, hf.run]
      cases m.run launch fuel <;> rfl
  | step => simp only [Machine.serve, hf.step]

end Unnoticed

/-- What no request notices, no history notices. -/
theorem serveAll_changed {fuel : Nat} (hserve : ∀ (m : Machine) (request : Request),
      (f m).serve fuel request = ((m.serve fuel request).1, f (m.serve fuel request).2))
    (m : Machine) (requests : List Request) :
    (f m).serveAll fuel requests =
      ((m.serveAll fuel requests).1, f (m.serveAll fuel requests).2) := by
  induction requests generalizing m with
  | nil => rfl
  | cons request rest ih =>
      unfold serveAll
      simp only [hserve, ih]

/-! ## Events -/

/-- The machine that reports no events, with this tape for them. -/
def unwatched (m : Machine) (events : Tape Event) : Machine := { m with tracing := false, events }

theorem apply_unwatched (m : Machine) (events : Tape Event) (e : Effect) (pc : Word)
    (i : Instruction) :
    (m.unwatched events).apply e pc i = (m.apply e pc i).unwatched events := by
  rw [apply_eq, apply_eq]
  rcases e.store with _ | ⟨address, value⟩
  · rfl
  · rfl

/-- No instruction notices whether its events are reported. -/
theorem unnoticed_unwatched (events : Tape Event) : Unnoticed (·.unwatched events) where
  registers _ := rfl
  memory _ := rfl
  setRegisters _ _ := rfl
  setMemory _ _ := rfl
  setStatus _ _ := rfl
  setSwitches _ _ := rfl
  note _ _ := rfl
  cycle m := by
    cases h : m.fetch.decode m.registers.pc with
    | error fault =>
        rw [cycle_of_fault h, cycle_of_fault (m := m.unwatched events) h]
        rfl
    | ok operation =>
        rw [cycle_of_decode h, cycle_of_decode (m := m.unwatched events) h]
        exact congrArg (Prod.mk _) (apply_unwatched m.advance events _ _ _)

theorem serve_unwatched (fuel : Nat) (m : Machine) (events : Tape Event) (request : Request) :
    (m.unwatched events).serve fuel request =
      ((m.serve fuel request).1, (m.serve fuel request).2.unwatched events) := by
  by_cases h : request = .takeOutput
  · subst h
    rfl
  · exact (unnoticed_unwatched events).serve h fuel m

/-- A history without events. -/
theorem serveAll_unwatched (fuel : Nat) (m : Machine) (events : Tape Event)
    (requests : List Request) :
    (m.unwatched events).serveAll fuel requests =
      ((m.serveAll fuel requests).1, (m.serveAll fuel requests).2.unwatched events) :=
  serveAll_changed (fun m request => serve_unwatched fuel m events request) m requests

/-- **Observation does not change execution.** Take any machine and any history of requests. With
events reported or not, and with any tape for them, be it off, every prefix of the history gets the
same answers, and leaves the same machine but for its events: the same registers, memory and status,
the same teleprinter with the same output, and the same journal. If events are not reported, their
tape stays as it is. -/
theorem serveAll_observed (m : Machine) (fuel : Nat) (requests : List Request) (tracing : Bool)
    (events : Tape Event) (k : Nat) :
    let watched : Machine := { m with tracing, events }
    (watched.serveAll fuel (requests.take k)).1 = (m.serveAll fuel (requests.take k)).1 ∧
      (watched.serveAll fuel (requests.take k)).2.unwatched .off =
        (m.serveAll fuel (requests.take k)).2.unwatched .off ∧
      ((m.unwatched events).serveAll fuel (requests.take k)).2.events = events := by
  intro watched
  have hsame : watched.unwatched .off = m.unwatched .off := rfl
  have hserve := congrArg (·.serveAll fuel (requests.take k)) hsame
  simp only [serveAll_unwatched, Prod.mk.injEq] at hserve
  refine ⟨hserve.1, hserve.2, ?_⟩
  rw [serveAll_unwatched]
  rfl

end TwelveBit.Machine
