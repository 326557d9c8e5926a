import TwelveBit.CommandLine.Basic
import TwelveBit.Proofs.Conclusion
import TwelveBit.Proofs.Translation

/-!
# Answers of the command line

A command line is answered by a report, unless it runs a program that comes to no end: `Responds` is
the relation between the two. What the answer is follows from where the command line gets to. The
arguments ask for no command (`responds_of_parse_error`), the source cannot be read
(`responds_of_read_error`) or assembled (`responds_of_assemble_error`), the program is printed
(`responds_list`), or it is run.

`responds_run` is the last of these, and the only one that takes time. Whether the program runs in
the loop of the machine or in steps that are counted, the answer is read off how the run concludes
(`endReport`).
-/

namespace TwelveBit.CommandLine

open Assembly (Assembler Program SourceError)
open Machine (Ending)

variable {read : Text → Except ReadError Text} {arguments : List Text} {report : Report}
  {command : Command} {r : RunArguments} {p : Program} {a : Assembler} {source : Text}
  {m m' : Machine} {ending : Ending} {k n start : Nat}

/-- Arguments are answered by this report, where `read` gives the source at a path. -/
def Responds (read : Text → Except ReadError Text) (arguments : List Text) (report : Report) :
    Prop :=
  ∃ fuel, respond read arguments fuel = some report

/-! ## Before a program is there -/

theorem responds_of_parse (h : Command.parse arguments = .ok command) :
    Responds read arguments report ↔
      ∃ fuel, command.report (read command.path) fuel = some report := by
  simp only [Responds, respond, interpret, h]

/-- Arguments that ask for no command. -/
theorem responds_of_parse_error {e : ArgumentError} (h : Command.parse arguments = .error e) :
    Responds read arguments report ↔ report = e.report := by
  simp only [Responds, respond, interpret, h, Option.some.injEq, exists_const]
  exact eq_comm

/-- A source that cannot be read. -/
theorem responds_of_read_error {e : ReadError} (hparse : Command.parse arguments = .ok command)
    (hread : read command.path = .error e) :
    Responds read arguments report ↔ report = e.report command.path := by
  simp only [responds_of_parse hparse, hread, Command.report, Option.some.injEq, exists_const]
  exact eq_comm

/-- A source that does not assemble. -/
theorem responds_of_assemble_error {e : SourceError}
    (hparse : Command.parse arguments = .ok command) (hread : read command.path = .ok source)
    (hassemble : (Assembler.assemble source).run {} = .error e a) :
    Responds read arguments report ↔ report = errorReport command.path e := by
  simp only [responds_of_parse hparse, hread, Command.report, hassemble, Option.some.injEq,
    exists_const]
  exact eq_comm

/-- A program that is printed. -/
theorem responds_list {path : Text} (hparse : Command.parse arguments = .ok (.list path))
    (hread : read path = .ok source)
    (hassemble : (Assembler.assemble source).run {} = .ok p a) :
    Responds read arguments report ↔ report = listReport p := by
  have hread : read (Command.list path).path = .ok source := hread
  simp only [responds_of_parse hparse, hread, Command.report, hassemble, Command.apply,
    Option.some.injEq, exists_const]
  exact eq_comm

/-! ## Running a program -/

/-- The machine in which a program runs, where it starts. -/
def runStart (p : Program) (r : RunArguments) : Machine :=
  (runMachine p r).setPc (startAddress p r)

/-- A program runs in a machine that has its image for memory. -/
theorem runMachine_eq (p : Program) (r : RunArguments) :
    runMachine p r = {
      memory := p.image
      switches := r.switches.toNat
      tracing := r.trace
      events := if r.trace then .blank else .off } :=
  p.install_eq _

/-- What the teleprinter has printed, as lines of an answer. -/
def printedLines (output : Text) : List Text := if output.isEmpty then [] else [output]

/-- What is shown of a run, however it ended. -/
def shown (m : Machine) : List Text :=
  m.events.toList.map eventLine ++ printedLines m.teleprinter.output

/-- The answer when a run concludes like this, after so many instructions, and leaves this
machine. -/
def endReport (ending : Ending) (k : Nat) (m : Machine) : Report :=
  match ending with
  | .halted => { out := shown m ++ [registersLine m.registers] }
  | .faulted fault => { status := 1, out := shown m, err := faultLines m.memory fault }
  | .exhausted => { status := 1, out := shown m, err := [unendedLine k m.registers.pc] }

theorem runReport_of_halted (hstatus : m.status = .halted) (limit : Option Nat) :
    runReport m none limit = endReport .halted k m := by
  simp only [runReport, hstatus, if_true]
  rfl

theorem runReport_of_stopped (hstatus : m.status = .stopped) :
    runReport m none (some n) = endReport .exhausted n m := by
  rw [runReport, hstatus, if_neg (by decide)]
  rfl

/-- No report shows the journal. -/
theorem runReport_congr (h : m.withoutJournal = m'.withoutJournal) (fault : Option Fault)
    (limit : Option Nat) : runReport m fault limit = runReport m' fault limit := by
  have hignored (m : Machine) : runReport m.withoutJournal fault limit = runReport m fault limit :=
    rfl
  rw [← hignored m, h, hignored]

/-- Steps with a limit give the report of how the run concludes. -/
theorem exists_runFrom_of_concludes (hstatus : m.status = .stopped)
    (h : (m.setPc start).Concludes (some n) ending k m') :
    ∃ fault m₁, (∀ fuel, runFrom m start (some n) fuel = some (fault, m₁)) ∧
      runReport m₁ fault (some n) = endReport ending k m' := by
  cases h with
  | halted steps within =>
      have hsteps := Machine.stepUpTo_of_stepsTo steps Machine.halted_ne_retired (within n rfl)
      refine ⟨none, m', fun _ => ?_, runReport_of_halted ?_ _⟩
      · simp only [runFrom, hsteps]
        rfl
      · exact Machine.status_of_step_halted steps.2
  | @faulted k fault m' steps within =>
      have hsteps := Machine.stepUpTo_of_stepsTo steps (Machine.error_ne_retired _) (within n rfl)
      refine ⟨some fault, m', fun _ => ?_, rfl⟩
      simp only [runFrom, hsteps]
      rfl
  | exhausted bound retire =>
      cases bound
      refine ⟨none, _, fun _ => ?_, runReport_of_stopped (retire.status hstatus)⟩
      simp only [runFrom, Machine.stepUpTo_of_allRetire retire]
      split <;> rfl

/-- A run of the loop that ends gives the report of how the steps conclude that it comes to. -/
theorem exists_concludes_of_run {fault : Option Fault} {fuel : Nat}
    (h : runFrom m start none fuel = some (fault, m')) :
    ∃ ending k m₁, (m.setPc start).Concludes none ending k m₁ ∧
      runReport m' fault none = endReport ending k m₁ := by
  unfold runFrom at h
  dsimp only at h
  split at h
  · next result m₁ hrun =>
      cases h
      obtain ⟨k, m₂, hresult | ⟨fault, hresult⟩, hsteps, hobserved⟩ :=
        Machine.exists_ends_iff_stepsTo.mp ⟨m', ⟨fuel, hrun⟩, rfl⟩
      · subst hresult
        refine ⟨.halted, k + 1, m₂, .halted hsteps (Machine.within_none k), ?_⟩
        rw [← runReport_congr hobserved]
        exact runReport_of_halted (Machine.status_of_step_halted hsteps.2) none
      · subst hresult
        refine ⟨.faulted fault, k, m₂, .faulted hsteps (Machine.within_none k), ?_⟩
        rw [← runReport_congr hobserved]
        rfl
  · cases h

/-- Steps that conclude without a limit give the report of a run of the loop. -/
theorem exists_run_of_concludes (h : (m.setPc start).Concludes none ending k m') :
    ∃ fuel fault m₁, runFrom m start none fuel = some (fault, m₁) ∧
      runReport m₁ fault none = endReport ending k m' := by
  cases h with
  | @halted k m' steps within =>
      obtain ⟨m₁, ⟨fuel, hrun⟩, hobserved⟩ :
          ∃ m₁, m.Ends { start := some start } (.ok ⟨k + 1, .halted⟩) m₁ ∧
            m₁.withoutJournal = m'.withoutJournal :=
        Machine.exists_ends_iff_stepsTo.mpr ⟨k, m', .inl rfl, steps, rfl⟩
      refine ⟨fuel, none, m₁, ?_, ?_⟩
      · simp only [runFrom, hrun]
      · rw [runReport_congr hobserved]
        exact runReport_of_halted (Machine.status_of_step_halted steps.2) none
  | @faulted k fault m' steps within =>
      obtain ⟨m₁, ⟨fuel, hrun⟩, hobserved⟩ :
          ∃ m₁, m.Ends { start := some start } (.error fault) m₁ ∧
            m₁.withoutJournal = m'.withoutJournal :=
        Machine.exists_ends_iff_stepsTo.mpr ⟨k, m', .inr ⟨fault, rfl⟩, steps, rfl⟩
      refine ⟨fuel, some fault, m₁, ?_, ?_⟩
      · simp only [runFrom, hrun]
      · rw [runReport_congr hobserved]
        rfl
  | exhausted bound retire => cases bound

/-- Between the loop and the steps beside it no report shows a difference. -/
theorem endReport_of_tracks (h : Machine.Tracks m m') (ending : Ending) (k : Nat) :
    endReport ending k m = endReport ending k m' := by
  have hignored (m : Machine) : endReport ending k m.withoutJournal = endReport ending k m := by
    cases ending <;> rfl
  rw [← hignored m, h, hignored]
  cases ending <;> rfl

/-- The events of a program are those of its groups, if it is traced. -/
theorem events_of_tells {groups : List Event.Group} (h : (runStart p r).Tells groups m) :
    m.events.toList = if r.trace then groups.flatMap Event.Group.events else [] := by
  have hevents : m.events = if r.trace then
      (groups.flatMap Event.Group.events).foldl .push (if r.trace then .blank else .off)
      else if r.trace then .blank else .off := h.events
  rw [hevents]
  cases r.trace with
  | false => rfl
  | true =>
      simp only [if_true, Tape.blank]
      rw [Tape.foldl_push_on [], List.nil_append]
      rfl

/-- A program has printed what the instructions have that its groups tell of. -/
theorem output_of_tells {groups : List Event.Group} (h : (runStart p r).Tells groups m) :
    m.teleprinter.output =
      ((groups.map Event.Group.execution).filter Execution.prints).map Execution.character :=
  h.prints.output

/-- **A program that is run is answered by how its run concludes**, with a limit or without. -/
theorem responds_run (hparse : Command.parse arguments = .ok (.run r))
    (hread : read r.path = .ok source)
    (hassemble : (Assembler.assemble source).run {} = .ok p a) :
    Responds read arguments report ↔
      ∃ ending k m', (runStart p r).Concludes r.limit ending k m' ∧
        report = endReport ending k m' := by
  have hreport (fuel : Nat) : (Command.run r).report (read r.path) fuel = some report ↔
      ∃ fault m', runFrom (runMachine p r) (startAddress p r) r.limit fuel = some (fault, m') ∧
        runReport m' fault r.limit = report := by
    simp only [hread, Command.report, hassemble, Command.apply]
    cases runFrom (runMachine p r) (startAddress p r) r.limit fuel with
    | none => simp
    | some result => simp [Prod.ext_iff, and_assoc]
  rw [responds_of_parse hparse]
  simp only [Command.path, hreport]
  cases r.limit with
  | none =>
      constructor
      · rintro ⟨fuel, fault, m', hrun, rfl⟩
        obtain ⟨ending, k, m₁, hconcludes, hreport⟩ := exists_concludes_of_run hrun
        exact ⟨ending, k, m₁, hconcludes, hreport⟩
      · rintro ⟨ending, k, m', hconcludes, rfl⟩
        obtain ⟨fuel, fault, m₁, hrun, hreport⟩ := exists_run_of_concludes hconcludes
        exact ⟨fuel, fault, m₁, hrun, hreport⟩
  | some n =>
      constructor
      · rintro ⟨fuel, fault, m', hrun, rfl⟩
        obtain ⟨ending, k, m₁, hconcludes⟩ := (runStart p r).exists_concludes n
        obtain ⟨fault', m₂, hrun', hreport⟩ := exists_runFrom_of_concludes rfl hconcludes
        cases hrun.symm.trans (hrun' fuel)
        exact ⟨ending, k, m₁, hconcludes, hreport⟩
      · rintro ⟨ending, k, m', hconcludes, rfl⟩
        obtain ⟨fault, m₁, hrun, hreport⟩ := exists_runFrom_of_concludes rfl hconcludes
        exact ⟨0, fault, m₁, hrun 0, hreport⟩

/-- A program that is run has one answer. -/
theorem eq_endReport_of_responds (h : Responds read arguments report)
    (hparse : Command.parse arguments = .ok (.run r)) (hread : read r.path = .ok source)
    (hassemble : (Assembler.assemble source).run {} = .ok p a)
    (hconcludes : (runStart p r).Concludes r.limit ending k m') :
    report = endReport ending k m' := by
  obtain ⟨ending', k', m₁, hconcludes', rfl⟩ := (responds_run hparse hread hassemble).mp h
  obtain ⟨rfl, rfl, rfl⟩ := hconcludes.unique hconcludes'
  rfl

/-- A program that has been assembled, with something that has been computed from it. -/
theorem exists_assembled {α : Type} {f : Program → α} {value : α}
    (h : ((Assembler.assemble source).run' {}).map f = some value) :
    ∃ p a, (Assembler.assemble source).run {} = .ok p a ∧ f p = value :=
  Assembly.Pass.eq_ok_of_run' h

/-- An answer that has been computed. -/
theorem responds_of_run' (fuel : Nat) (hparse : Command.parse arguments = .ok (.run r))
    (hread : read r.path = .ok source)
    (h : ((Assembler.assemble source).run' {}).map (fun p =>
        (runFrom {
          memory := p.image
          switches := r.switches.toNat
          tracing := r.trace
          events := if r.trace then .blank else .off } (startAddress p r) r.limit fuel).map
            fun (fault, m) => runReport m fault r.limit) = some (some report)) :
    Responds read arguments report := by
  obtain ⟨p, a, hassemble, hreport⟩ := exists_assembled h
  obtain ⟨⟨fault, m⟩, hrun, hreport⟩ := Option.map_eq_some_iff.mp hreport
  rw [← runMachine_eq] at hrun
  rw [responds_of_parse hparse]
  refine ⟨fuel, ?_⟩
  simp only [Command.path, hread, Command.report, hassemble, Command.apply, hrun]
  exact congrArg some hreport

end TwelveBit.CommandLine
