import TwelveBit.Assembly.Program
import TwelveBit.CommandLine.Report

/-!
# Printing a program

The listing of a program, followed by its symbols if it has any. A source that does not assemble is
answered by its error.
-/

namespace TwelveBit.CommandLine

open Assembly (Program SourceError)

def symbolLine (name : Text) (address : Nat) : Text :=
  "  " ++ Text.padEnd 8 name ++ " " ++ Numeral.octal 4 address

def programLines (p : Program) : List Text :=
  let symbols := p.symbolList.map fun (name, address) => symbolLine name address
  p.listing.map (·.display) ++ if symbols.isEmpty then [] else [] :: "Symbols:" :: symbols

/-- The answer that prints a program. -/
def listReport (p : Program) : Report := { out := programLines p }

/-- The answer when a source does not assemble. -/
def errorReport (path : Text) (e : SourceError) : Report :=
  { status := 1, err := [path ++ ":" ++ Numeral.decimal e.line ++ ": error: " ++ e.detail] }

end TwelveBit.CommandLine
