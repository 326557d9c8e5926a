import TwelveBit.Assembly.Line
import TwelveBit.Machine.Basic

/-!
# Programs

What assembly produces: the words of all of memory, the symbols, and a listing with one entry for
every word that a line emitted.
-/

namespace TwelveBit.Assembly

/-- A word in a listing, with the line that emitted it. -/
structure Entry where
  address : Word
  word : Word
  line : SourceLine
  deriving DecidableEq, Repr

namespace Entry

/-- The text of the line, without the blanks at its end. -/
def source (e : Entry) : Text := e.line.text.trimEnd

def display (e : Entry) : Text :=
  Numeral.octal 4 e.address.toNat ++ "  " ++ Numeral.octal 4 e.word.toNat ++ "  " ++
    Text.padStart 4 ' ' (Numeral.decimal e.line.number) ++ "  " ++ e.source

end Entry

structure Program where
  image : Memory
  symbols : SymbolTable
  listing : List Entry
  deriving DecidableEq

namespace Program

/-- All of memory, in order of address. -/
def words (p : Program) : List Word := p.image.toList

/-- The word at an address. Past the end of memory there are zeros. -/
def word (p : Program) (address : Nat) : Word := (p.words[address]?).getD 0

/-- Whether a symbol is listed before another: by address, and by name where addresses are equal. -/
def listedBefore (a b : Text × Nat) : Bool := a.2 < b.2 || (a.2 == b.2 && a.1.notAfter b.1)

/-- The names with their addresses, in the order in which they are listed. -/
def symbolList (p : Program) : List (Text × Nat) :=
  (p.symbols.entries.map fun (name, s) => (name, s.address)).mergeSort listedBefore

/-- Put a program into a machine. What its memory held before is gone. -/
def install (p : Program) (m : Machine) : Machine :=
  { m with memory := .ofList p.words }

end Program

end TwelveBit.Assembly
