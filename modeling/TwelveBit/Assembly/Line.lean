import TwelveBit.Assembly.Statement

/-!
# Lines

A line is code and, after the first slash, a comment. The code is a statement with an optional label
in front, which a comma ends. Text before a comma that is not a name is no label: it belongs to the
statement.

A line without code is blank and plays no part, except that it counts when lines are numbered.
-/

namespace TwelveBit.Assembly

structure Line where
  label : Option Text
  statement : Statement
  deriving DecidableEq, Repr

/-- The code of a line: what stands before the comment, without blanks at its ends. -/
def code (t : Text) : Text := Text.trim (t.takeWhile (· != '/'))

namespace Line

/-- Cut the code of a line into its label and its statement. -/
def splitLabel (t : Text) : Option Text × Text :=
  let label := Text.trim (t.takeWhile (· != ','))
  match t.dropWhile (· != ',') with
  | [] => (none, t.trim)
  | _ :: body => if isName label then (some label, Text.trim body) else (none, t.trim)

def parse (t : Text) : Except Error Line :=
  let (label, body) := splitLabel t
  match Statement.parse? body with
  | some statement => .ok { label, statement }
  | none => .error .unrecognized

def render (l : Line) : Text :=
  match l.label with
  | none => l.statement.render
  | some label => label ++ ", " ++ l.statement.render

end Line

/-! ## Numbered lines -/

/-- A line of a source with its number. -/
structure SourceLine where
  /-- The number of the line, from 1. -/
  number : Nat
  text : Text
  deriving DecidableEq, Repr

namespace SourceLine

/-- The lines of a source that have code. -/
def ofSource (source : Text) : List SourceLine :=
  (source.lines.zipIdx 1).filterMap fun (text, number) =>
    if (code text).isEmpty then none else some { number, text }

def parse (l : SourceLine) : Except Error Line := Line.parse (code l.text)

def locate (l : SourceLine) (error : Error) : SourceError :=
  { error, line := l.number, text := l.text.trim }

end SourceLine

example : (Line.parse "LOOP, TAD I Z .-1".toList).toOption =
    some ⟨some "LOOP",
      .emit (.reference .tad true true ⟨false, .here, some (.minus, .literal "1")⟩)⟩ := by
  decide

example : (Line.parse "CLA CLL".toList).toOption = some ⟨none, .emit (.operate 0o7300)⟩ := by decide

example : (Line.parse "A B, 1".toList).toOption = none := by decide

end TwelveBit.Assembly
