import TwelveBit.Assembly.Program
import TwelveBit.CommandLine.Report
import TwelveBit.Machine.Run
import TwelveBit.Window

/-!
# Running a program

A program starts where the arguments say, else at its name `START`, else at octal 200. A run without
a limit goes on until a halt or a fault; a run with a limit may also come to no end within it, which
is an error. The answer shows the events if they are asked for, then what was printed, then how the
run ended. A fault is shown with the words around it.
-/

namespace TwelveBit.CommandLine

open Assembly (Program)

/-! ## Lines -/

def bitText (b : Bool) : Text := if b then "1" else "0"

def eventLine : Event → Text
  | .executed pc i after =>
    Numeral.octal 4 pc.toNat ++ "  " ++ Numeral.octal 4 i.toNat ++ "  " ++
      Text.padEnd 16 (disassemble i pc) ++ " AC " ++ Numeral.octal 4 after.ac.toNat ++ " (" ++
      Text.padStart 5 ' ' (Numeral.signedDecimal after.ac.signed) ++ ")  L " ++
      bitText after.link ++ "  PC " ++ Numeral.octal 4 after.pc.toNat
  | .stored address value =>
    "      set " ++ Numeral.octal 4 address.toNat ++ " to " ++ Numeral.octal 4 value.toNat
  | .halted pc => "Halted at " ++ Numeral.octal 4 pc.toNat

/-- The registers as they are printed at the end. -/
def registersLine (r : Registers) : Text :=
  "AC " ++ Numeral.octal 4 r.ac.toNat ++ "  L " ++ bitText r.link ++ "  PC " ++
    Numeral.octal 4 r.pc.toNat

/-- A fault as it is printed, with the words around it. The row of the fault is marked. -/
def faultLines (memory : Memory) (fault : Fault) : List Text :=
  ("error: " ++ fault.message) ::
    (memory.window (Word.ofNat fault.pc) 2 2).map fun row =>
      (if row.address.toNat = fault.pc then "> " else "  ") ++ row.display

/-- A run that has come to no end, as it is printed. -/
def unendedLine (limit : Nat) (pc : Word) : Text :=
  "error: no HLT within " ++ Numeral.decimal limit ++ " steps (pc " ++
    Numeral.octal 4 pc.toNat ++ ")"

/-! ## The run -/

def startAddress (p : Program) (arguments : RunArguments) : Nat :=
  match arguments.start with
  | some word => word.toNat
  | none => (p.symbols.address? "START").getD 0o200

/-- The machine in which a program runs. -/
def runMachine (p : Program) (arguments : RunArguments) : Machine :=
  p.install {
    switches := arguments.switches.toNat
    tracing := arguments.trace
    events := if arguments.trace then .blank else .off }

/-- Run a machine from an address: the fault, if there was one, and the machine afterwards. A run
without a limit may carry out `fuel` instructions; if they do not suffice there is no answer. -/
def runFrom (m : Machine) (start : Nat) (limit : Option Nat) (fuel : Nat) :
    Option (Option Fault × Machine) :=
  let faultOf {α : Type} : Except Fault α → Option Fault
    | .error fault => some fault
    | .ok _ => none
  match limit with
  | some limit =>
    let steps := (m.setPc start).stepUpTo limit
    some (steps.last.bind faultOf, steps.machine)
  | none =>
    match m.run { start := some start } fuel with
    | .finished result m => some (faultOf result, m)
    | .unfinished _ _ => none

def runReport (m : Machine) (fault : Option Fault) (limit : Option Nat) : Report :=
  let output := m.teleprinter.output
  let out := m.events.toList.map eventLine ++ if output.isEmpty then [] else [output]
  match fault with
  | some fault => { status := 1, out, err := faultLines m.memory fault }
  | none =>
    if m.status = .halted then { out := out ++ [registersLine m.registers] }
    else { status := 1, out, err := [unendedLine (limit.getD 0) m.registers.pc] }

end TwelveBit.CommandLine
