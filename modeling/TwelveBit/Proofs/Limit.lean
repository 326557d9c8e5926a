import TwelveBit.Proofs.Response

/-!
# Runs with a limit

A run without a limit is taken by the loop of the machine, a run with one by steps that are counted.
`Machine.StopsAt` numbers the instruction with which the loop comes to its end. A limit that leaves
room for this instruction is not noticed (`concludes_iff_of_stopsAt`), and under any other all steps
retire (`allRetire_of_not_stopsAt`). `responds_limit` is what follows for the answers of the command
line.
-/

namespace TwelveBit

namespace Machine

variable {m m' : Machine} {ending : Ending} {k n number : Nat}

/-- The loop comes to its end with the instruction of this number, counted from 1: those before it
retire, and it halts or faults. -/
def StopsAt (m : Machine) (number : Nat) : Prop :=
  ∃ k m₁ result m', number = k + 1 ∧ Retires k (m.start {}) m₁ ∧ Closes k m₁ result m'

/-- The loop comes to its end where stepping does. -/
theorem stopsAt_iff : m.StopsAt number ↔
    ∃ k answer m', number = k + 1 ∧ m.StepsTo k answer m' ∧ answer ≠ .ok .retired := by
  have htracks : Tracks (m.start {}) m := m.tracks_start {}
  constructor
  · rintro ⟨k, m₁, result, m', hnumber, hretires, hcloses⟩
    obtain ⟨hresult, m₂, hsteps, -⟩ :=
      htracks.retires_closes_iff.mp ⟨m₁, m', hretires, hcloses, rfl⟩
    refine ⟨k, _, m₂, hnumber, hsteps, ?_⟩
    rcases hresult with rfl | ⟨fault, rfl⟩
    · exact halted_ne_retired
    · exact error_ne_retired fault
  · rintro ⟨k, answer, m', hnumber, hsteps, hanswer⟩
    -- the answer of the last step is the one that ends the run
    obtain ⟨result, hresult, rfl⟩ : ∃ result : Except Fault Completion,
        (result = .ok ⟨k + 1, .halted⟩ ∨ ∃ fault, result = .error fault) ∧
          answer = result.map (·.last) := by
      rcases answer with fault | _ | _
      · exact ⟨.error fault, .inr ⟨fault, rfl⟩, rfl⟩
      · exact absurd rfl hanswer
      · exact ⟨.ok ⟨k + 1, .halted⟩, .inl rfl, rfl⟩
    obtain ⟨m₁, l', hretires, hcloses, -⟩ :=
      htracks.retires_closes_iff.mpr ⟨hresult, m', hsteps, rfl⟩
    exact ⟨k, m₁, result, l', hnumber, hretires, hcloses⟩

/-- A run that comes to its end concludes. -/
theorem exists_concludes_of_stopsAt (h : m.StopsAt number) :
    ∃ ending k m', m.Concludes none ending k m' := by
  obtain ⟨k, answer, m', -, hsteps, hanswer⟩ := stopsAt_iff.mp h
  obtain ⟨ending, j, hconcludes⟩ := hsteps.exists_concludes hanswer (within_none k)
  exact ⟨ending, j, m', hconcludes⟩

/-- A limit that leaves room for the last instruction is not noticed. -/
theorem concludes_iff_of_stopsAt (h : m.StopsAt number) (hlimit : number ≤ n) :
    m.Concludes (some n) ending k m' ↔ m.Concludes none ending k m' := by
  obtain ⟨j, answer, m₁, rfl, hsteps, hanswer⟩ := stopsAt_iff.mp h
  have hlimited {k : Nat} (hk : k = j) : ∀ n' ∈ some n, k < n' := by
    rintro n' ⟨⟩
    rw [hk]
    exact hlimit
  constructor
  · intro hconcludes
    cases hconcludes with
    | halted steps within => exact .halted steps (within_none _)
    | faulted steps within => exact .faulted steps (within_none _)
    | exhausted bound retire =>
        cases bound
        exact absurd hlimit (Nat.not_lt.mpr (hsteps.le_of_allRetire hanswer retire))
  · intro hconcludes
    cases hconcludes with
    | halted steps within =>
        exact .halted steps (hlimited (steps.unique halted_ne_retired hsteps hanswer).1)
    | faulted steps within =>
        exact .faulted steps (hlimited (steps.unique (error_ne_retired _) hsteps hanswer).1)
    | exhausted bound retire => cases bound

/-- Up to a number at which a run does not come to its end, all steps retire. -/
theorem allRetire_of_not_stopsAt (h : ∀ number ≤ n, ¬ m.StopsAt number) : m.AllRetire n := by
  rcases m.exists_stepsTo_or_allRetire n with ⟨k, hk, answer, m', hsteps, hanswer⟩ | hretire
  · exact absurd (stopsAt_iff.mpr ⟨k, answer, m', rfl, hsteps, hanswer⟩) (h (k + 1) hk)
  · exact hretire

end Machine

namespace CommandLine

open Assembly (Assembler Program)

variable {read : Text → Except ReadError Text} {source : Text} {p : Program} {a : Assembler}
  {r : RunArguments} {n : Nat}

/-- A program starts at an address of memory. -/
theorem startAddress_lt (hassemble : (Assembler.assemble source).run {} = .ok p a) :
    startAddress p r < 4096 := by
  unfold startAddress
  cases r.start with
  | some word => exact word.isLt
  | none =>
      cases hsymbol : p.symbols.address? "START" with
      | none => decide
      | some address => exact Assembler.address?_lt_of_assemble hassemble hsymbol

theorem toNat_pc_runStart (hassemble : (Assembler.assemble source).run {} = .ok p a) :
    (runStart p r).registers.pc.toNat = startAddress p r :=
  Word.toNat_ofNat_of_lt (startAddress_lt hassemble)

/-- **A limit changes nothing until it is reached.** Take two command lines that run the same
program with the same options, the one without a limit and the other with one. If the run without a
limit comes to its end with an instruction within the limit, it has an answer, and both have the
same. If it does not, be it that it goes on for longer or for ever, then its first `n` instructions
retire, where `n` is the limit. The answer to the run with the limit shows the events of these, if
they are asked for, and what they have printed, and says where they have come to. -/
theorem responds_limit {unlimited limited : List Text}
    (hunlimited : Command.parse unlimited = .ok (.run r)) (hnone : r.limit = none)
    (hlimited : Command.parse limited = .ok (.run { r with limit := some n }))
    (hread : read r.path = .ok source)
    (hassemble : (Assembler.assemble source).run {} = .ok p a) :
    (∀ number ≤ n, (runStart p r).StopsAt number →
      (∃ report, Responds read unlimited report) ∧
        ∀ report, Responds read limited report ↔ Responds read unlimited report) ∧
    ((∀ number ≤ n, ¬ (runStart p r).StopsAt number) →
      ∃ m groups, Machine.Retires n ((runStart p r).start {}) m ∧
        groups.length = n ∧
        Replay (runStart p r).memory (runStart p r).registers groups m.memory m.registers ∧
        m.events.toList = (if r.trace then groups.flatMap Event.Group.events else []) ∧
        m.teleprinter.output = ((groups.map Event.Group.execution).filter Execution.prints).map
          Execution.character ∧
        ∀ report, Responds read limited report ↔ report = {
          status := 1
          out := m.events.toList.map eventLine ++ printedLines m.teleprinter.output
          err := ["error: no HLT within ".toList ++ Numeral.decimal n ++ " steps (pc ".toList ++
            Numeral.octal 4 m.registers.pc.toNat ++ ")".toList] }) ∧
    (runStart p r).registers.pc.toNat = startAddress p r := by
  have hstart : runStart p { r with limit := some n } = runStart p r := rfl
  refine ⟨?_, ?_, toNat_pc_runStart hassemble⟩
  · intro number hnumber hstops
    obtain ⟨ending, k, m', hconcludes⟩ := Machine.exists_concludes_of_stopsAt hstops
    refine ⟨⟨endReport ending k m', ?_⟩, fun report => ?_⟩
    · rw [responds_run hunlimited hread hassemble, hnone]
      exact ⟨ending, k, m', hconcludes, rfl⟩
    · rw [responds_run hunlimited hread hassemble, responds_run hlimited hread hassemble, hstart,
        hnone]
      simp only [Machine.concludes_iff_of_stopsAt hstops hnumber]
  · intro hnumber
    have hretire := Machine.allRetire_of_not_stopsAt hnumber
    obtain ⟨groups, hlength, htells, -⟩ := hretire.exists_tells
    obtain ⟨m, hretires, htracks⟩ := hretire.exists_retires ((runStart p r).tracks_start {})
    have htells' := htells.of_tracks htracks
    have hconcludes : (runStart p r).Concludes (some n) .exhausted n _ := .exhausted rfl hretire
    have hreport := endReport_of_tracks htracks .exhausted n
    refine ⟨m, groups, hretires, hlength, htells'.replay, events_of_tells htells',
      output_of_tells htells', fun report => ?_⟩
    constructor
    · intro h
      exact (eq_endReport_of_responds h hlimited hread hassemble hconcludes).trans hreport.symm
    · rintro rfl
      exact (responds_run hlimited hread hassemble).mpr ⟨_, _, _, hconcludes, hreport⟩

/-! ### At the last instruction -/

/-- Prints a character and halts. -/
private def printAndHalt : Text := "*200\nTAD A\nTLS\nHLT\nA, 101\n"

/-- A run of the program with its events. -/
private def printAndHaltRun : RunArguments := { path := "a".toList, trace := true }

/-- The program halts with its third instruction, and with no other. -/
private theorem stopsAt_printAndHalt :
    ∃ p a, (Assembler.assemble printAndHalt).run {} = .ok p a ∧
      ∀ number, (runStart p printAndHaltRun).StopsAt number ↔ number = 3 := by
  have hanswers : ((Assembler.assemble printAndHalt).run' {}).map (fun p =>
      let m : Machine := { memory := p.image, tracing := true, events := .blank }
      (List.range 3).map fun i =>
        ((m.setPc (startAddress p printAndHaltRun)).nthStep i).1.toOption) =
        some [some .retired, some .retired, some .halted] := by
    decide +kernel
  obtain ⟨p, a, hassemble, hanswers⟩ := exists_assembled hanswers
  have hstart : runStart p printAndHaltRun =
      ({ memory := p.image, tracing := true, events := .blank } : Machine).setPc
        (startAddress p printAndHaltRun) := by
    rw [runStart, runMachine_eq]
    rfl
  dsimp only at hanswers
  rw [← hstart] at hanswers
  have hok {answer : Except Fault Outcome} {outcome : Outcome}
      (h : answer.toOption = some outcome) : answer = .ok outcome := by
    cases answer with
    | error fault => cases h
    | ok _ => exact congrArg Except.ok (Option.some.inj h)
  obtain ⟨hfirst, hsecond, hthird⟩ :
      ((runStart p printAndHaltRun).nthStep 0).1.toOption = some .retired ∧
        ((runStart p printAndHaltRun).nthStep 1).1.toOption = some .retired ∧
        ((runStart p printAndHaltRun).nthStep 2).1.toOption = some .halted := by
    simpa [List.range_succ] using hanswers
  rcases hlast : (runStart p printAndHaltRun).nthStep 2 with ⟨answer, m'⟩
  rw [hlast] at hthird
  obtain rfl : answer = .ok .halted := hok hthird
  have hsteps : (runStart p printAndHaltRun).StepsTo 2 (.ok .halted) m' := by
    refine ⟨fun i hi => ?_, hlast⟩
    match i with
    | 0 => exact hok hfirst
    | 1 => exact hok hsecond
  refine ⟨p, a, hassemble, fun number => ?_⟩
  rw [Machine.stopsAt_iff]
  constructor
  · rintro ⟨k, answer, m', rfl, hsteps', hanswer⟩
    rw [(hsteps'.unique hanswer hsteps Machine.halted_ne_retired).1]
  · rintro rfl
    exact ⟨2, _, _, rfl, hsteps, Machine.halted_ne_retired⟩

/-- A limit of three leaves room for the halt, and a limit of two does not. -/
theorem responds_limit_at_the_halt :
    let read : Text → Except ReadError Text := fun _ => .ok printAndHalt
    let unlimited := ["run".toList, "a".toList, "--trace".toList]
    let limited (numeral : Text) :=
      ["run".toList, "--max-steps".toList, numeral, "a".toList, "--trace".toList]
    let unended : Report :=
      { status := 1
        out := ["0200  1003  TAD 0203         AC 0101 (  +65)  L 0  PC 0201".toList,
          "0201  6046  TLS              AC 0101 (  +65)  L 0  PC 0202".toList, "A".toList]
        err := ["error: no HLT within 2 steps (pc 0202)".toList] }
    (∃ report, Responds read unlimited report) ∧
      (∀ report, Responds read (limited "3") report ↔ Responds read unlimited report) ∧
      ∀ report, Responds read (limited "2") report ↔ report = unended := by
  intro read unlimited limited unended
  have hunlimited : Command.parse unlimited = .ok (.run printAndHaltRun) := rfl
  have hthree : Command.parse (limited "3") =
      .ok (.run { printAndHaltRun with limit := some 3 }) := rfl
  have htwo : Command.parse (limited "2") =
      .ok (.run { printAndHaltRun with limit := some 2 }) := rfl
  have hread : read printAndHaltRun.path = .ok printAndHalt := rfl
  obtain ⟨p, a, hassemble, hstops⟩ := stopsAt_printAndHalt
  obtain ⟨hroom, -, -⟩ := responds_limit hunlimited rfl hthree hread hassemble
  obtain ⟨-, hnone, -⟩ := responds_limit hunlimited rfl htwo hread hassemble
  obtain ⟨hanswered, hsame⟩ := hroom 3 (Nat.le_refl 3) ((hstops 3).mpr rfl)
  obtain ⟨m, groups, -, -, -, -, -, hreport⟩ := hnone fun number hnumber h => by
    rw [(hstops number).mp h] at hnumber
    exact absurd hnumber (by decide)
  have hunended : Responds read (limited "2") unended :=
    responds_of_run' 0 htwo hread (by decide +kernel)
  refine ⟨hanswered, hsame, fun report => ?_⟩
  rw [hreport, ← (hreport unended).mp hunended]

end CommandLine

end TwelveBit
