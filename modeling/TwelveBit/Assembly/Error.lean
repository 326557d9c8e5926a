import TwelveBit.Numeral
import TwelveBit.Word

/-!
# Errors in assembler text

What can be wrong with a line. A `SourceError` also tells which line it is and shows its text.
-/

namespace TwelveBit.Assembly

/-- What is wrong with a line. -/
inductive Error where
  /-- The line has no shape that a statement has. -/
  | unrecognized
  /-- A name that no line defines. -/
  | undefinedSymbol (name : Text)
  /-- An operand that is neither on page zero nor on the page of its instruction. -/
  | unreachable (address : Nat) (page : Word)
  /-- A numeral that has a digit too large, or that does not fit into a word. -/
  | invalidLiteral (text : Text)
  /-- The program goes past the end of memory. -/
  | overflow
  deriving DecidableEq, Repr

def Error.message : Error → Text
  | unrecognized => "syntax error"
  | undefinedSymbol name => "undefined symbol " ++ name
  | unreachable address page =>
    "address " ++ Numeral.octal 4 address ++ " is not reachable from page " ++
      Numeral.octal 4 page.toNat
  | invalidLiteral text => "invalid literal " ++ text
  | overflow => "instruction counter overflowed past 7777"

/-- What is wrong, and where. -/
structure SourceError where
  error : Error
  /-- The number of the line, from 1. -/
  line : Nat
  /-- The line without blanks at its ends. -/
  text : Text
  deriving DecidableEq, Repr

/-- What is wrong, with the text it is wrong with. -/
def SourceError.detail (e : SourceError) : Text := e.error.message ++ ": " ++ e.text

def SourceError.message (e : SourceError) : Text :=
  "line " ++ Numeral.decimal e.line ++ ": " ++ e.detail

end TwelveBit.Assembly
