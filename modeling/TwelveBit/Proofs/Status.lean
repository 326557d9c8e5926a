import TwelveBit.Proofs.Arguments
import TwelveBit.Proofs.Response

/-!
# The status of an answer

`Succeeds` lists the ways in which a command line can go well, and `Fails` those in which it can go
wrong. Each of them tells the status and whether there is a message on the error output
(`Succeeds.silent`, `Fails.reported`), and every command line that is answered is one or the other
(`Responds.cases`), with one exception: where help is asked for among the arguments of a command, it
is given on the output, as if nothing was wrong, and the status says that something was.
-/

namespace TwelveBit.CommandLine

open Assembly (Assembler Program SourceError)

variable {read : Text → Except ReadError Text} {arguments : List Text} {report : Report}

/-- All goes well: help is asked for in place of a command, a program is printed, or a program runs
to a halt. -/
inductive Succeeds (read : Text → Except ReadError Text) (arguments : List Text) : Prop where
  | help {argument : Text} {rest : List Text} (first : arguments = argument :: rest)
      (asked : asksHelp argument)
  | listed {path source : Text} {p : Program} {a : Assembler}
      (parse : Command.parse arguments = .ok (.list path)) (found : read path = .ok source)
      (assembled : (Assembler.assemble source).run {} = .ok p a)
  | halted {r : RunArguments} {source : Text} {p : Program} {a : Assembler} {k : Nat} {m' : Machine}
      (parse : Command.parse arguments = .ok (.run r)) (found : read r.path = .ok source)
      (assembled : (Assembler.assemble source).run {} = .ok p a)
      (concludes : (runStart p r).Concludes r.limit .halted k m')

/-- Something goes wrong: the arguments, reading the source, assembling it, or running the
program. -/
inductive Fails (read : Text → Except ReadError Text) (arguments : List Text) : Prop where
  | misused {e : ArgumentError} (parse : Command.parse arguments = .error e)
      (command : e ≠ .help) (commandHelp : e ≠ .commandHelp)
  | unread {command : Command} {e : ReadError} (parse : Command.parse arguments = .ok command)
      (unreadable : read command.path = .error e)
  | unassembled {command : Command} {source : Text} {e : SourceError} {a : Assembler}
      (parse : Command.parse arguments = .ok command) (found : read command.path = .ok source)
      (assembled : (Assembler.assemble source).run {} = .error e a)
  | faulted {r : RunArguments} {source : Text} {p : Program} {a : Assembler} {fault : Fault}
      {k : Nat} {m' : Machine}
      (parse : Command.parse arguments = .ok (.run r)) (found : read r.path = .ok source)
      (assembled : (Assembler.assemble source).run {} = .ok p a)
      (concludes : (runStart p r).Concludes r.limit (.faulted fault) k m')
  | exhausted {r : RunArguments} {source : Text} {p : Program} {a : Assembler} {k : Nat}
      {m' : Machine}
      (parse : Command.parse arguments = .ok (.run r)) (found : read r.path = .ok source)
      (assembled : (Assembler.assemble source).run {} = .ok p a)
      (concludes : (runStart p r).Concludes r.limit .exhausted k m')

/-- What goes well is answered by status 0 and without a message. -/
theorem Succeeds.silent (hsucceeds : Succeeds read arguments) (h : Responds read arguments report) :
    report.status = 0 ∧ report.err = [] := by
  cases hsucceeds with
  | @help argument rest first asked =>
      have hparse : Command.parse arguments = .error .help := by
        rw [first, Command.parse, if_pos asked]
      rw [(responds_of_parse_error hparse).mp h]
      exact ⟨rfl, rfl⟩
  | listed parse found assembled =>
      rw [(responds_list parse found assembled).mp h]
      exact ⟨rfl, rfl⟩
  | halted parse found assembled concludes =>
      rw [eq_endReport_of_responds h parse found assembled concludes]
      exact ⟨rfl, rfl⟩

/-- What goes wrong is answered by status 1 and with a message. -/
theorem Fails.reported (hfails : Fails read arguments) (h : Responds read arguments report) :
    report.status = 1 ∧ report.err ≠ [] := by
  cases hfails with
  | @misused e parse command commandHelp =>
      rw [(responds_of_parse_error parse).mp h]
      cases e with
      | help => exact absurd rfl command
      | commandHelp => exact absurd rfl commandHelp
      | _ => exact ⟨rfl, List.cons_ne_nil _ _⟩
  | unread parse unreadable =>
      rw [(responds_of_read_error parse unreadable).mp h]
      exact ⟨rfl, List.cons_ne_nil _ _⟩
  | unassembled parse found assembled =>
      rw [(responds_of_assemble_error parse found assembled).mp h]
      exact ⟨rfl, List.cons_ne_nil _ _⟩
  | faulted parse found assembled concludes =>
      rw [eq_endReport_of_responds h parse found assembled concludes]
      exact ⟨rfl, List.cons_ne_nil _ _⟩
  | exhausted parse found assembled concludes =>
      rw [eq_endReport_of_responds h parse found assembled concludes]
      exact ⟨rfl, List.cons_ne_nil _ _⟩

/-- What is answered goes well or goes wrong, or is a request for help among the arguments of a
command. -/
theorem Responds.cases (h : Responds read arguments report) :
    Succeeds read arguments ∨ Fails read arguments ∨
      Command.parse arguments = .error .commandHelp := by
  cases hparse : Command.parse arguments with
  | error e =>
      by_cases he : e.message? = none
      · rcases asksHelp_of_parse hparse he with ⟨rfl, argument, rest, hfirst, hasks⟩ | ⟨rfl, -⟩
        · exact .inl (.help hfirst hasks)
        · exact .inr (.inr rfl)
      · refine .inr (.inl (.misused hparse ?_ ?_))
        · rintro rfl
          exact he rfl
        · rintro rfl
          exact he rfl
  | ok command =>
      cases hread : read command.path with
      | error e => exact .inr (.inl (.unread hparse hread))
      | ok source =>
          cases hassemble : (Assembler.assemble source).run {} with
          | error e a => exact .inr (.inl (.unassembled hparse hread hassemble))
          | ok p a =>
              cases command with
              | list path => exact .inl (.listed hparse hread hassemble)
              | run r =>
                  obtain ⟨ending, k, m', hconcludes, -⟩ :=
                    (responds_run hparse hread hassemble).mp h
                  cases ending with
                  | halted => exact .inl (.halted hparse hread hassemble hconcludes)
                  | faulted fault => exact .inr (.inl (.faulted hparse hread hassemble hconcludes))
                  | exhausted => exact .inr (.inl (.exhausted hparse hread hassemble hconcludes))

/-- **The status tells whether something went wrong, and so does the error output.** Take any
arguments and sources for which there is an answer. Unless help is asked for among the arguments of
a command, the answer has status 0 and an empty error output, and all went well, or status 1 and a
message on the error output, and something went wrong. Where help is asked for among the arguments
of a command, it is shown on the output, with status 1 and an empty error output. -/
theorem responds_status (h : Responds read arguments report) :
    (Command.parse arguments ≠ .error .commandHelp →
      (report.status = 0 ∧ report.err = [] ∧ Succeeds read arguments ∧ ¬ Fails read arguments) ∨
      (report.status = 1 ∧ report.err ≠ [] ∧ Fails read arguments ∧ ¬ Succeeds read arguments)) ∧
    (Command.parse arguments = .error .commandHelp →
      report = { status := 1, out := usage } ∧ ∃ argument ∈ arguments.tail, asksHelp argument) := by
  constructor
  · intro hcommand
    rcases h.cases with hsucceeds | hfails | hhelp
    · obtain ⟨hstatus, herr⟩ := hsucceeds.silent h
      refine .inl ⟨hstatus, herr, hsucceeds, fun hfails => ?_⟩
      exact (hfails.reported h).2 herr
    · obtain ⟨hstatus, herr⟩ := hfails.reported h
      refine .inr ⟨hstatus, herr, hfails, fun hsucceeds => ?_⟩
      exact herr (hsucceeds.silent h).2
    · exact absurd hhelp hcommand
  · intro hhelp
    refine ⟨(responds_of_parse_error hhelp).mp h, ?_⟩
    rcases asksHelp_of_parse hhelp rfl with ⟨he, -⟩ | ⟨-, hasks⟩
    · cases he
    · exact hasks

/-- A program that has printed a character and comes to a word that is no instruction. -/
theorem responds_status_of_fault :
    let read : Text → Except ReadError Text := fun _ =>
      .ok "*200\nTAD A\nTLS\n7401\nA, 101\n".toList
    let arguments := ["run".toList, "a".toList, "--max-steps".toList, "3".toList]
    let report : Report :=
      { status := 1
        out := ["A".toList]
        err := ["error: cannot decode instruction 7401 at 0202".toList,
          "  0200  1003  TAD 0203".toList, "  0201  6046  TLS".toList,
          "> 0202  7401  7401".toList, "  0203  0101  AND 0301".toList,
          "  0204  0000  AND 0200".toList] }
    Responds read arguments report ∧ Command.parse arguments ≠ .error .commandHelp ∧
      Fails read arguments ∧ ¬ Succeeds read arguments := by
  intro read arguments report
  have hparse : Command.parse arguments = .ok (.run { path := "a".toList, limit := some 3 }) := rfl
  have hresponds : Responds read arguments report :=
    responds_of_run' 0 hparse rfl (by decide +kernel)
  have hcommand : Command.parse arguments ≠ .error .commandHelp := by
    rw [hparse]
    simp
  rcases (responds_status hresponds).1 hcommand with ⟨hzero, -⟩ | ⟨-, -, hfails, hsucceeds⟩
  · exact absurd hzero Nat.one_ne_zero
  · exact ⟨hresponds, hcommand, hfails, hsucceeds⟩

/-- Where help is asked for among the arguments of a command, the status tells of an error and the
error output does not. -/
theorem not_responds_status_of_commandHelp :
    ∃ report, Responds (fun _ => .error .missing) ["run".toList, "--help".toList] report ∧
      ¬ (report.status = 0 ↔ report.err = []) := by
  refine ⟨ArgumentError.commandHelp.report, ⟨0, rfl⟩, ?_⟩
  decide

end TwelveBit.CommandLine
