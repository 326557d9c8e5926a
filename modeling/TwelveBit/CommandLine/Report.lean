import TwelveBit.CommandLine.Arguments

/-!
# Reports

What a command answers: lines on the output, lines on the error output, and a status, which is 0
exactly when all went well.

Records of journals are no part of a report. The program shows them on its error output as well,
each with the time and from a level on that is set for the program, which is `warn` unless something
else is asked for: the warning of a name that is defined again, say, stands there beside the lines
of the report.
-/

namespace TwelveBit.CommandLine

/-- The answer of a command, without the records of journals. -/
structure Report where
  status : Nat := 0
  out : List Text := []
  err : List Text := []
  deriving DecidableEq, Repr

/-- How the command line is used. The last line is empty. -/
def usage : List Text :=
  ["Usage: pal8 <command> [options]",
   "",
   "Commands:",
   "  list <input>                 Assemble and print the listing and symbols",
   "  run  <input> [options]       Assemble, load, and run until HLT",
   "",
   "Run options:",
   "  --start <octal>      Start address (default: START label, else 0200)",
   "  --switches <octal>   Front-panel switch register read by OSR",
   "  --trace              Print every executed instruction",
   "  --max-steps <n>      Give up after n instructions",
   "  -h, --help           Show this help message",
   "",
   "Examples:",
   "  pal8 list mult.pal",
   "  pal8 run mult.pal --trace",
   "  pal8 run echo.pal --start 200 --switches 7777",
   ""]

namespace ArgumentError

/-- The message for a reader, for arguments that are out of place. -/
def message? : ArgumentError → Option Text
  | help => none
  | commandHelp => none
  | missingCommand => some "missing command"
  | unknownCommand name => some ("unknown command: " ++ name)
  | missingValue option => some ("missing value for " ++ option)
  | invalidWord option value => some ("invalid octal word for " ++ option ++ ": " ++ value)
  | invalidCount value => some ("invalid step count: " ++ value)
  | unknownOption option => some ("unknown option: " ++ option)
  | severalPaths => some "multiple input paths provided"
  | missingPath => some "missing input path"

/-- The answer to arguments that ask for no command. Help is the answer to a question only where it
stands in place of a command. -/
def report (e : ArgumentError) : Report :=
  match e.message? with
  | none => { status := if e = help then 0 else 1, out := usage }
  | some message => { status := 1, err := ("error: " ++ message) :: usage }

end ArgumentError

/-! ## Reading the source -/

/-- Why a source could not be read. -/
inductive ReadError where
  | missing
  | forbidden
  | directory
  | notDirectory
  /-- The path, or a name in it, is longer than the system takes. -/
  | nameTooLong
  | notText
  /-- Anything else, in the words of the system. -/
  | other (message : Text)
  deriving DecidableEq, Repr

def ReadError.message : ReadError → Text
  | missing => "No such file or directory (os error 2)"
  | forbidden => "Permission denied (os error 13)"
  | directory => "Is a directory (os error 21)"
  | notDirectory => "Not a directory (os error 20)"
  | nameTooLong => "File name too long (os error 36)"
  | notText => "stream did not contain valid UTF-8"
  | other message => message

/-- The answer when a source could not be read. -/
def ReadError.report (e : ReadError) (path : Text) : Report :=
  { status := 1, err := ["error: failed to read " ++ path ++ ": " ++ e.message] }

end TwelveBit.CommandLine
