import TwelveBit.Proofs.Arguments
import TwelveBit.Proofs.Response

/-!
# Traces

A run that is traced does what it does without, and its answer shows more: the events come first,
and then everything that is shown without them. That no instruction notices whether events are
reported (`Machine.unnoticed_unwatched`) is carried from one step to how a run concludes
(`Machine.Unnoticed.exists_concludes`), and from there to the answer (`responds_trace`).

`TraceOf` says which events these are: none if there is nothing to run, and else those of the
machine, which come in groups, one for each instruction that was carried out. `LineOf` says what is
shown of an event.
-/

namespace TwelveBit

namespace Machine

variable {f : Machine → Machine} {m m₁ : Machine} {answer : Except Fault Outcome}
  {limit : Option Nat} {ending : Ending} {k n : Nat}

namespace Unnoticed

variable (hf : Unnoticed f)

include hf

theorem afterSteps (n : Nat) (m : Machine) : (f m).afterSteps n = f (m.afterSteps n) := by
  induction n generalizing m with
  | zero => rfl
  | succ n ih =>
      rw [Machine.afterSteps, hf.step]
      exact ih m.step.2

theorem nthStep (m : Machine) (i : Nat) :
    (f m).nthStep i = ((m.nthStep i).1, f (m.nthStep i).2) := by
  rw [Machine.nthStep, hf.afterSteps, hf.step]
  rfl

theorem allRetire_iff : (f m).AllRetire n ↔ m.AllRetire n := by
  simp only [AllRetire, hf.nthStep]

/-- Steps come to the same end in both machines. -/
theorem exists_stepsTo (h : (f m).StepsTo k answer m₁) :
    ∃ m', m.StepsTo k answer m' ∧ m₁ = f m' := by
  obtain ⟨hretire, hlast⟩ := h
  rw [hf.nthStep] at hlast
  obtain ⟨hanswer, rfl⟩ := Prod.mk.inj hlast
  exact ⟨_, ⟨hf.allRetire_iff.mp hretire, Prod.ext hanswer rfl⟩, rfl⟩

/-- **A change that no instruction notices changes nothing in how a run concludes.** -/
theorem exists_concludes (h : (f m).Concludes limit ending k m₁) :
    ∃ m', m.Concludes limit ending k m' ∧ m₁ = f m' := by
  cases h with
  | halted steps within =>
      obtain ⟨m', hsteps, rfl⟩ := hf.exists_stepsTo steps
      exact ⟨m', .halted hsteps within, rfl⟩
  | faulted steps within =>
      obtain ⟨m', hsteps, rfl⟩ := hf.exists_stepsTo steps
      exact ⟨m', .faulted hsteps within, rfl⟩
  | exhausted bound retire =>
      exact ⟨_, .exhausted bound (hf.allRetire_iff.mp retire), hf.afterSteps _ m⟩

end Unnoticed

end Machine

namespace CommandLine

open Assembly (Assembler Program SourceError)
open Machine (Ending)
open Numeral (octalDigits)

variable {read : Text → Except ReadError Text} {arguments : List Text} {report : Report}
  {r : RunArguments}

/-! ## Lines -/

/-- A word as a signed number in five columns: blanks, the sign, and the digits. The upper half of
the words stand for the numbers below zero. -/
inductive SignedColumn : Word → Text → Prop where
  | positive {w : Word} {blanks : Nat} (low : w.toNat < 2048)
      (filled : blanks + (Nat.toDigits 10 w.toNat).length = 4) :
      SignedColumn w (List.replicate blanks ' ' ++ '+' :: Nat.toDigits 10 w.toNat)
  | negative {w : Word} {blanks : Nat} (high : 2048 ≤ w.toNat)
      (filled : blanks + (Nat.toDigits 10 (4096 - w.toNat)).length = 4) :
      SignedColumn w (List.replicate blanks ' ' ++ '-' :: Nat.toDigits 10 (4096 - w.toNat))

/-- The line that an event is shown on. A store is shown with its address and its word, the halt
with the address behind it. An instruction is shown with its address, its word, how it is written,
and the registers that it left. How it is written takes sixteen columns, or more if it is longer. -/
inductive LineOf : Event → Text → Prop where
  | executed {pc : Word} {i : Instruction} {after : Registers} {blanks : Nat} {number : Text}
      (filled : blanks = 16 - (disassemble i pc).length) (signed : SignedColumn after.ac number) :
      LineOf (.executed pc i after)
        (octalDigits pc.toNat ++ "  " ++ octalDigits i.toNat ++ "  " ++
          (disassemble i pc ++ List.replicate blanks ' ') ++ " AC " ++
          octalDigits after.ac.toNat ++ " (" ++ number ++ ")  L " ++
          [if after.link then '1' else '0'] ++ "  PC " ++ octalDigits after.pc.toNat)
  | stored (address value : Word) :
      LineOf (.stored address value)
        ("      set " ++ octalDigits address.toNat ++ " to " ++ octalDigits value.toNat)
  | halted (pc : Word) : LineOf (.halted pc) ("Halted at " ++ octalDigits pc.toNat)

/-- Five columns are enough for every word. -/
theorem signedColumn_padStart (w : Word) :
    SignedColumn w (Text.padStart 5 ' ' (Numeral.signedDecimal w.signed)) := by
  have hlength {n : Nat} (hn : n ≤ 4096) : (Nat.toDigits 10 n).length ≤ 4 :=
    (Nat.length_toDigits_le_iff (by decide) (by decide)).mpr (by omega)
  rcases Nat.lt_or_ge w.toNat 2048 with low | high
  · have hdigits := hlength (n := w.toNat) (by omega)
    have hsigned : w.signed = w.toNat := by
      rw [Word.signed, BitVec.toInt_eq_toNat_cond, if_pos (by omega)]
    rw [hsigned, Numeral.signedDecimal, if_neg (by omega), Int.natAbs_natCast, Numeral.decimal,
      Text.padStart, List.length_cons]
    exact .positive low (by omega)
  · have hdigits := hlength (n := 4096 - w.toNat) (by omega)
    have hsigned : w.signed = w.toNat - 4096 := by
      rw [Word.signed, BitVec.toInt_eq_toNat_cond, if_neg (by omega)]
      rfl
    have hw := w.isLt
    have habs : w.signed.natAbs = 4096 - w.toNat := by omega
    rw [Numeral.signedDecimal, if_pos (by omega), habs, Numeral.decimal, Text.padStart,
      List.length_cons]
    exact .negative high (by omega)

/-- Every event is shown on its line. -/
theorem lineOf_eventLine (event : Event) : LineOf event (eventLine event) := by
  have hwords (w : Word) : octalDigits w.toNat = Numeral.octal 4 w.toNat :=
    (Numeral.octal_four w.isLt).symm
  cases event with
  | executed pc i after =>
      have hline : LineOf (.executed pc i after) _ :=
        .executed rfl (signedColumn_padStart after.ac)
      have hlink : [if after.link then '1' else '0'] = bitText after.link := by
        cases after.link <;> rfl
      rw [hwords, hwords, hwords, hwords, hlink] at hline
      exact hline
  | stored address value =>
      have hline := LineOf.stored address value
      rw [hwords, hwords] at hline
      exact hline
  | halted pc =>
      have hline := LineOf.halted pc
      rw [hwords] at hline
      exact hline

theorem forall₂_lineOf (events : List Event) :
    List.Forall₂ LineOf events (events.map eventLine) :=
  List.forall₂_map_right_iff.mpr (List.forall₂_same.mpr fun event _ => lineOf_eventLine event)

/-! ## What is told -/

/-- The events that are told of what the arguments ask to be run. There are none if nothing can be
run. Otherwise they are those that the machine reports, and come in groups: one for each instruction
that was carried out, with its store, its halt if it is the one that ends the run, and what it left
in the registers. They can be replayed to the memory and the registers that are left, but for the
program counter where the run ends in a fault: nothing is told of the instruction that faults. -/
inductive TraceOf (read : Text → Except ReadError Text) (r : RunArguments) : List Event → Prop where
  | unread {e : ReadError} (unreadable : read r.path = .error e) : TraceOf read r []
  | unassembled {source : Text} {e : SourceError} {a : Assembler} (found : read r.path = .ok source)
      (rejected : (Assembler.assemble source).run {} = .error e a) : TraceOf read r []
  | ran {source : Text} {p : Program} {a : Assembler} {ending : Ending} {k : Nat} {m' : Machine}
      {groups : List Event.Group} {registers : Registers} (found : read r.path = .ok source)
      (assembled : (Assembler.assemble source).run {} = .ok p a)
      (concludes : (runStart p { r with trace := true }).Concludes r.limit ending k m')
      (told : m'.events.toList = groups.flatMap Event.Group.events)
      (count : groups.length = k)
      (halts : ∀ i g, groups[i]? = some g →
        (g.instruction.halts = true ↔ ending = .halted ∧ i + 1 = k))
      (replay : Replay (runStart p r).memory (runStart p r).registers groups m'.memory registers)
      (left : m'.registers = ending.leave registers) : TraceOf read r m'.events.toList

/-- Without a trace a program runs in the machine that it would be traced in, with its events
off. -/
theorem runStart_of_untraced (p : Program) (h : r.trace = false) :
    runStart p r = (runStart p { r with trace := true }).unwatched .off := by
  obtain ⟨path, start, switches, trace, limit⟩ := r
  obtain rfl : trace = false := h
  rfl

/-- The answer with the events is the answer without, after the events. -/
theorem endReport_unwatched (ending : Ending) (k : Nat) (m : Machine) :
    endReport ending k m =
      { endReport ending k (m.unwatched .off) with
        out := m.events.toList.map eventLine ++ (endReport ending k (m.unwatched .off)).out } := by
  have hshown : shown m = m.events.toList.map eventLine ++ shown (m.unwatched .off) := rfl
  cases ending with
  | halted =>
      rw [endReport, hshown, List.append_assoc]
      rfl
  | faulted fault =>
      rw [endReport, hshown]
      rfl
  | exhausted =>
      rw [endReport, hshown]
      rfl

/-- **A trace only comes before what is shown without it.** Take arguments of a run that do not ask
for a trace, and sources for which there is an answer. With `--trace` after the arguments there is
one answer, with the same status and the same error output. On its output the lines of the events
stand before all that is shown without them, in the order of the events, and the events tell of the
instructions that were carried out. -/
theorem responds_trace (hparse : Command.parse ("run".toList :: arguments) = .ok (.run r))
    (huntraced : "--trace".toList ∉ arguments)
    (h : Responds read ("run".toList :: arguments) report) :
    ∃ events lines, TraceOf read r events ∧ List.Forall₂ LineOf events lines ∧
      ∀ traced, Responds read ("run".toList :: (arguments ++ ["--trace".toList])) traced ↔
        traced = { report with out := lines ++ report.out } := by
  have htrace : r.trace = false := trace_of_readRun (parse_run_eq_ok_iff.mp hparse) huntraced
  have htraced := parse_run_trace hparse
  cases hread : read r.path with
  | error e =>
      obtain rfl := (responds_of_read_error hparse hread).mp h
      refine ⟨[], [], .unread hread, .nil, fun traced => ?_⟩
      rw [responds_of_read_error htraced hread]
      rfl
  | ok source =>
      cases hassemble : (Assembler.assemble source).run {} with
      | error e a =>
          obtain rfl := (responds_of_assemble_error hparse hread hassemble).mp h
          refine ⟨[], [], .unassembled hread hassemble, .nil, fun traced => ?_⟩
          rw [responds_of_assemble_error htraced hread hassemble]
          rfl
      | ok p a =>
          obtain ⟨ending, k, m', hconcludes, rfl⟩ := (responds_run hparse hread hassemble).mp h
          rw [runStart_of_untraced p htrace] at hconcludes
          obtain ⟨m, hwatched, rfl⟩ :=
            (Machine.unnoticed_unwatched .off).exists_concludes hconcludes
          obtain ⟨groups, last, hlength, htells, hhalts, hmemory, -, hevents, hregisters⟩ :=
            hwatched.exists_tells
          refine ⟨m.events.toList, m.events.toList.map eventLine,
            .ran hread hassemble hwatched ?_ hlength hhalts ?_ hregisters,
            forall₂_lineOf m.events.toList, fun traced => ?_⟩
          · rw [hevents]
            exact events_of_tells htells
          · rw [hmemory]
            exact htells.replay
          · rw [← endReport_unwatched]
            constructor
            · intro h
              exact eq_endReport_of_responds h htraced hread hassemble hwatched
            · rintro rfl
              exact (responds_run htraced hread hassemble).mpr ⟨_, _, _, hwatched, rfl⟩

/-- Prints a character, stores a word and halts. -/
private def storeAndHalt : Text := "*200\nTAD A\nTLS\nDCA A\nHLT\nA, 101\n"

/-- Prints a character, stores a word and faults. -/
private def storeAndFault : Text := "*200\nTAD A\nTLS\nDCA A\n6777\nA, 101\n"

/-- The answers when the two programs are run. -/
private def storeAndHaltReport : Report where
  out := ["A".toList, "AC 0000  L 0  PC 0204".toList]

private def storeAndFaultReport : Report where
  status := 1
  out := ["A".toList]
  err := ["error: unknown device 77 in instruction 6777 at 0203".toList,
    "  0201  6046  TLS".toList, "  0202  3004  DCA 0204".toList,
    "> 0203  6777  6777".toList, "  0204  0101  AND 0301".toList, "  0205  0000  AND 0200".toList]

/-- What the traces of both programs show of the three instructions that they begin with. -/
private def printLines : List Text :=
  ["0200  1004  TAD 0204         AC 0101 (  +65)  L 0  PC 0201".toList,
    "0201  6046  TLS              AC 0101 (  +65)  L 0  PC 0202".toList,
    "      set 0204 to 0101".toList,
    "0202  3004  DCA 0204         AC 0000 (   +0)  L 0  PC 0203".toList]

/-- The trace of a source, run without options, shows these lines before its answer. -/
private def Traces (source : Text) (report : Report) (lines : List Text) : Prop :=
  let read : Text → Except ReadError Text := fun _ => .ok source
  Responds read ["run".toList, "a".toList] report ∧
    ∃ events, TraceOf read { path := "a".toList } events ∧ List.Forall₂ LineOf events lines ∧
      ∀ traced, Responds read ["run".toList, "a".toList, "--trace".toList] traced ↔
        traced = { report with out := lines ++ report.out }

/-- The halt has a line of its own and is told of as an instruction. The instruction that faults is
not told of. -/
theorem responds_trace_of_halt_and_fault :
    Command.parse ["run".toList, "a".toList] = .ok (.run { path := "a".toList }) ∧
      "--trace".toList ∉ ["a".toList] ∧
      Traces storeAndHalt storeAndHaltReport (printLines ++ ["Halted at 0204".toList,
        "0203  7402  HLT              AC 0000 (   +0)  L 0  PC 0204".toList]) ∧
      Traces storeAndFault storeAndFaultReport printLines := by
  have hparse : Command.parse ["run".toList, "a".toList] = .ok (.run { path := "a".toList }) := rfl
  have huntraced : "--trace".toList ∉ ["a".toList] := by decide
  -- the lines are those of the answer that has been computed with `--trace`
  have htraces {source : Text} {report : Report} {lines : List Text}
      (h : Responds (fun _ => .ok source) ["run".toList, "a".toList] report)
      (htraced : Responds (fun _ => .ok source) ["run".toList, "a".toList, "--trace".toList]
        { report with out := lines ++ report.out }) : Traces source report lines := by
    obtain ⟨events, lines', htrace, hlines, hreport⟩ := responds_trace hparse huntraced h
    obtain rfl := List.append_cancel_right (congrArg Report.out ((hreport _).mp htraced))
    exact ⟨h, events, htrace, hlines, hreport⟩
  refine ⟨hparse, huntraced, ?_, ?_⟩
  · exact htraces (responds_of_run' 5 hparse rfl (by decide +kernel))
      (responds_of_run' 5 (parse_run_trace hparse) rfl (by decide +kernel))
  · exact htraces (responds_of_run' 4 hparse rfl (by decide +kernel))
      (responds_of_run' 4 (parse_run_trace hparse) rfl (by decide +kernel))

end CommandLine

end TwelveBit
