import TwelveBit.Assembly.Radix

/-!
# Arguments

What the arguments of the command line ask for. The first names a command and the others belong to
it. Options and the path may come in any order; an option that is given again replaces what it said
before. The arguments are read from left to right, and the first that is out of place is the error.
-/

namespace TwelveBit.CommandLine

/-- What a run is asked for. -/
structure RunArguments where
  path : Text
  start : Option Word := none
  switches : Word := 0
  trace : Bool := false
  /-- After how many instructions to give up, if it is said. -/
  limit : Option Nat := none
  deriving DecidableEq, Repr

inductive Command where
  | list (path : Text)
  | run (arguments : RunArguments)
  deriving DecidableEq, Repr

/-- Why arguments ask for nothing that can be done. -/
inductive ArgumentError where
  /-- Help is asked for in place of a command. -/
  | help
  /-- Help is asked for among the arguments of a command. -/
  | commandHelp
  | missingCommand
  | unknownCommand (name : Text)
  | missingValue (option : Text)
  | invalidWord (option value : Text)
  | invalidCount (value : Text)
  | unknownOption (option : Text)
  | severalPaths
  | missingPath
  deriving DecidableEq, Repr

/-- Whether an argument asks for help. -/
def asksHelp (argument : Text) : Bool := argument = "--help".toList || argument = "-h".toList

/-- Whether an argument has the form of an option. -/
def isOption (argument : Text) : Bool := argument.head? = some '-'

/-- The number of instructions that a numeral stands for, if it fits into 64 bits. -/
def readCount? (numeral : Text) : Option Nat :=
  match Numeral.read? 10 numeral with
  | some n => if n < 0x10000000000000000 then some n else none
  | none => none

/-! ## Listing -/

/-- Read the arguments of a listing, when a path may have been given already. -/
def readListing (path : Option Text) : List Text → Except ArgumentError Text
  | [] =>
    match path with
    | some path => .ok path
    | none => .error .missingPath
  | argument :: rest =>
    if asksHelp argument then .error .commandHelp
    else if isOption argument then .error (.unknownOption argument)
    else if path.isSome then .error .severalPaths
    else readListing (some argument) rest

/-! ## Running -/

/-- The arguments of a run that have been read so far. -/
structure Draft where
  path : Option Text := none
  start : Option Word := none
  switches : Word := 0
  trace : Bool := false
  limit : Option Nat := none
  deriving DecidableEq, Repr

namespace Draft

/-- What has been asked for, once all arguments have been read. -/
def finish (d : Draft) : Except ArgumentError RunArguments :=
  match d.path with
  | none => .error .missingPath
  | some path =>
    .ok { path, start := d.start, switches := d.switches, trace := d.trace, limit := d.limit }

def addPath (d : Draft) (argument : Text) : Except ArgumentError Draft :=
  if isOption argument then .error (.unknownOption argument)
  else if d.path.isSome then .error .severalPaths
  else .ok { d with path := some argument }

end Draft

inductive ValueOption where
  | start
  | switches
  | limit
  deriving DecidableEq, Repr

namespace ValueOption

def name : ValueOption → Text
  | start => "--start"
  | switches => "--switches"
  | limit => "--max-steps"

/-- The option that an argument names. -/
def ofName? (argument : Text) : Option ValueOption :=
  [start, switches, limit].find? fun option => option.name = argument

/-- A word given to an option. -/
def word (option : ValueOption) (value : Text) : Except ArgumentError Word :=
  match Assembly.Radix.octal.word? value with
  | some w => .ok w
  | none => .error (.invalidWord option.name value)

/-- Take the value of an option. -/
def set (option : ValueOption) (d : Draft) (value : Text) : Except ArgumentError Draft :=
  match option with
  | start => (option.word value).map fun w => { d with start := some w }
  | switches => (option.word value).map fun w => { d with switches := w }
  | limit =>
    match readCount? value with
    | some n => .ok { d with limit := some n }
    | none => .error (.invalidCount value)

end ValueOption

/-- Read the arguments of a run on top of those already read. -/
def readRun (d : Draft) : List Text → Except ArgumentError RunArguments
  | [] => d.finish
  | argument :: rest =>
    if asksHelp argument then .error .commandHelp
    else if argument = "--trace" then readRun { d with trace := true } rest
    else match ValueOption.ofName? argument with
      | some option =>
        match rest with
        | [] => .error (.missingValue option.name)
        | value :: rest =>
          match option.set d value with
          | .error e => .error e
          | .ok d => readRun d rest
      | none =>
        match d.addPath argument with
        | .error e => .error e
        | .ok d => readRun d rest

/-! ## Commands -/

def Command.parse : List Text → Except ArgumentError Command
  | [] => .error .missingCommand
  | name :: rest =>
    if asksHelp name then .error .help
    else if name = "list" then (readListing none rest).map .list
    else if name = "run" then (readRun {} rest).map .run
    else .error (.unknownCommand name)

def Command.path : Command → Text
  | .list path => path
  | .run arguments => arguments.path

end TwelveBit.CommandLine
