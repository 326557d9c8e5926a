import TwelveBit.Assembly.Assembler
import TwelveBit.CommandLine.Listing
import TwelveBit.CommandLine.Run

/-!
# The command line

From arguments to a report. Between the two the source has to be read, which is the only thing that
is asked of the outside: `interpret` says which command is to be carried out, and `Command.report`
carries it out once the source is there. `respond` is the two together, for sources that a function
gives.
-/

namespace TwelveBit.CommandLine

/-- The command that arguments ask for, or the report if they ask for none. -/
def interpret (arguments : List Text) : Except Report Command :=
  match Command.parse arguments with
  | .ok command => .ok command
  | .error e => .error e.report

namespace Command

/-- Carry out a command on a program. -/
def apply (command : Command) (p : Assembly.Program) (fuel : Nat) : Option Report :=
  match command with
  | .list _ => some (listReport p)
  | .run arguments =>
    match runFrom (runMachine p arguments) (startAddress p arguments) arguments.limit fuel with
    | none => none
    | some (fault, m) => some (runReport m fault arguments.limit)

/-- Carry out a command on a source. Answers nothing if a run has not ended after `fuel`
instructions. -/
def report (command : Command) (source : Except ReadError Text) (fuel : Nat) : Option Report :=
  match source with
  | .error e => some (e.report command.path)
  | .ok source =>
    match (Assembly.Assembler.assemble source).run {} with
    | .error e _ => some (errorReport command.path e)
    | .ok p _ => command.apply p fuel

end Command

/-- The answer to arguments, where `read` gives the source at a path. The records that the assembler
and the machine keep on the way go to their journals and are not in it. -/
def respond (read : Text → Except ReadError Text) (arguments : List Text) (fuel : Nat) :
    Option Report :=
  match interpret arguments with
  | .error report => some report
  | .ok command => command.report (read command.path) fuel

end TwelveBit.CommandLine
