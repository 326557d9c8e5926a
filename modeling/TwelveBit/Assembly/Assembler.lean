import TwelveBit.Assembly.Builder
import TwelveBit.Assembly.Program
import TwelveBit.Journal
import TwelveBit.Tape

/-!
# The assembler

A source is assembled in two passes over its lines. The first defines the labels, and emits a zero
wherever a word will be, so that every label gets its address before any operand is looked at. The
second goes over the same lines again and emits the words themselves.

Both passes stop at the line that ends the program. An error ends a pass at once, so a source has at
most one: what the first pass can see, wherever it is, comes before what only the second can see.
-/

namespace TwelveBit.Assembly

/-! ## The journal -/

/-- A record of the assembler's journal. -/
inductive Record where
  | laying (lines : Nat)
  /-- A line has defined a name that was defined before. -/
  | redefined (redefinition : Redefinition)
  | laidOut (symbols : Nat)
  | emitted (words : Nat)
  deriving DecidableEq, Repr

namespace Record

def level : Record → Level
  | redefined _ => .warn
  | _ => .debug

def message : Record → Text
  | laying lines => "pass 1: " ++ Numeral.decimal lines ++ " lines"
  | redefined r =>
    "line " ++ Numeral.decimal r.now.line ++ ": " ++ r.name ++ " redefined as " ++
      Numeral.octal 4 r.now.address ++ " (was " ++ Numeral.octal 4 r.before.address ++
      " at line " ++ Numeral.decimal r.before.line ++ ")"
  | laidOut symbols => "pass 1 defined " ++ Numeral.decimal symbols ++ " symbols"
  | emitted words => "pass 2 planted " ++ Numeral.decimal words ++ " words"

end Record

/-! ## Passes -/

/-- An assembler, which can be used again and again. -/
structure Assembler where
  builder : Builder := {}
  journal : Tape Record := .off

instance : Inhabited Assembler := ⟨{}⟩

/-- Work of an assembler that may end in an error. -/
abbrev Pass := EStateM SourceError Assembler

namespace Pass

def note (record : Record) : Pass Unit :=
  modify fun a => { a with journal := a.journal.push record }

/-- Take a result, or fail at a line. -/
def check {α : Type} (l : SourceLine) : Except Error α → Pass α
  | .ok x => pure x
  | .error e => throw (l.locate e)

def builder : Pass Builder := do return (← get).builder

def setBuilder (b : Builder) : Pass Unit := modify fun a => { a with builder := b }

/-- Work on the builder, or fail at a line. The builder is the one that the work leaves, also where
it fails. -/
def build {α : Type} (l : SourceLine) (work : Building α) : Pass α := fun a =>
  match work a.builder with
  | .ok x b => .ok x { a with builder := b }
  | .error e b => .error (l.locate e) { a with builder := b }

/-- Let the label of a line, if it has one, stand for the place of the next word. -/
def define (l : SourceLine) (label : Option Text) : Pass Unit := do
  match ← build l (Builder.label label l.number) with
  | some r => note (.redefined r)
  | none => pure ()

/-! ### Walking over the lines -/

/-- What a pass finds on a line. -/
inductive Finding where
  | finish
  | nothing
  | entry (entry : Entry)
  deriving DecidableEq, Repr

/-- Visit the lines in order up to the end of the program. Answers the entries that were found. -/
def walk (visit : SourceLine → Pass Finding) : List SourceLine → Pass (List Entry)
  | [] => pure []
  | l :: rest => do
    match ← visit l with
    | .finish => return []
    | .nothing => walk visit rest
    | .entry entry => return entry :: (← walk visit rest)

@[simp] theorem walk_nil (visit : SourceLine → Pass Finding) (a : Assembler) :
    walk visit [] a = .ok [] a := rfl

/-- A walk goes on from where the visit of the first line has left the assembler. -/
theorem walk_cons (visit : SourceLine → Pass Finding) (l : SourceLine) (rest : List SourceLine)
    (a : Assembler) :
    walk visit (l :: rest) a =
      match visit l a with
      | .error e a => .error e a
      | .ok .finish a => .ok [] a
      | .ok .nothing a => walk visit rest a
      | .ok (.entry entry) a =>
        match walk visit rest a with
        | .error e a => .error e a
        | .ok entries a => .ok (entry :: entries) a := by
  simp only [walk, bind, EStateM.bind]
  rcases visit l a with ⟨finding, a⟩ | ⟨e, a⟩
  · cases finding with
    | finish => rfl
    | nothing => rfl
    | entry entry =>
      simp only [EStateM.bind]
      cases walk visit rest a <;> rfl
  · rfl

/-- What a statement means for a walk if it emits no word. -/
def Finding.ofStatement (s : Statement) : Finding :=
  match s with
  | .finish => .finish
  | _ => .nothing

/-- The first pass over a line: define its label and make room for its word. -/
def layOut (l : SourceLine) : Pass Finding := do
  let line ← check l l.parse
  define l line.label
  build l (Builder.makeRoom line.statement)
  return .ofStatement line.statement

/-- The second pass over a line: emit its word. -/
def fill (l : SourceLine) : Pass Finding := do
  let line ← check l l.parse
  match ← build l (Builder.fill line.statement) with
  | some (address, word) => return .entry { address, word, line := l }
  | none => return .ofStatement line.statement

end Pass

/-! ## Assembling -/

namespace Assembler

/-- Assemble a source. Nothing that was assembled before plays a part. -/
def assemble (source : Text) : Pass Program := do
  Pass.setBuilder (← Pass.builder).reset
  let lines := SourceLine.ofSource source
  Pass.note (.laying lines.length)
  let _ ← Pass.walk Pass.layOut lines
  Pass.note (.laidOut (← Pass.builder).symbols.size)
  Pass.setBuilder (← Pass.builder).restart
  let listing ← Pass.walk Pass.fill lines
  Pass.note (.emitted listing.length)
  let b ← Pass.builder
  return { image := b.image, symbols := b.symbols, listing }

/-- Assemble one line at address 0, and answer the word it emits there. -/
def instruction (text : Text) : Pass Word := do
  return (← assemble text).word 0

end Assembler

end TwelveBit.Assembly
