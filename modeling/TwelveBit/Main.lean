import TwelveBit.CommandLine.Basic

/-!
# The program

Reads the source, asks the library, and prints its report.
-/

namespace TwelveBit.CommandLine

/-- Read a source. A path that goes on below a file cannot be opened, and the error then names it; a
directory can be opened and not read. -/
def readSource (path : Text) : IO (Except ReadError Text) := do
  try
    let bytes ← IO.FS.readBinFile (String.ofList path)
    match String.fromUTF8? bytes with
    | some source => return .ok source.toList
    | none => return .error .notText
  catch
    | .noFileOrDirectory _ _ _ => return .error .missing
    | .permissionDenied _ _ _ => return .error .forbidden
    | .inappropriateType none _ _ => return .error .directory
    | .inappropriateType (some _) _ _ => return .error .notDirectory
    | .invalidArgument (some _) _ _ => return .error .nameTooLong
    | e => return .error (.other (toString e).toList)

/-- Print a report, and answer its status. -/
def Report.print (report : Report) : IO UInt32 := do
  (← IO.getStdout).putStr (String.ofList (Text.unlines report.out))
  (← IO.getStderr).putStr (String.ofList (Text.unlines report.err))
  return report.status.toUInt32

/-- Answer the arguments of the command line. A run may carry out `fuel` instructions. -/
def serve (arguments : List Text) (fuel : Nat) : IO UInt32 := do
  match interpret arguments with
  | .error report => report.print
  | .ok command =>
    match command.report (← readSource command.path) fuel with
    | some report => report.print
    | none => return 1

end TwelveBit.CommandLine

/-- The program. No run lives to carry out as many instructions as it may. -/
def main (arguments : List String) : IO UInt32 :=
  TwelveBit.CommandLine.serve (arguments.map String.toList) 0x4000000000000000
