import TwelveBit.Assembly.Radix
import TwelveBit.Assembly.Symbol

/-!
# Expressions

An operand is a term, or the sum or the difference of two terms. A minus sign in front belongs to
the first term alone. The grammar, in which blanks may stand between any two parts:

    expression   ::=  ["-"] term [("+" | "-") term]
    term         ::=  "." | symbol | literal
    symbol       ::=  letter {letter | digit}
    literal      ::=  digit {digit}

Reading keeps the digits of a literal as they are: what they stand for depends on the radix in force
where the expression is evaluated. `Expression.render` writes an expression without blanks.

Expressions are computed in sixteen bits, in which numbers wrap around, and only what comes out is
cut down to a word.
-/

namespace TwelveBit.Assembly

/-- The sixteen bits in which expressions are computed. -/
abbrev Wide := BitVec 16

/-! ## Terms -/

/-- One operand of an expression. -/
inductive Term where
  /-- The address at which the statement stands. -/
  | here
  /-- The address that a name stands for. -/
  | symbol (name : Text)
  /-- A number in the radix in force. -/
  | literal (digits : Text)
  deriving DecidableEq, Repr

/-- Whether a text is a name: a letter and then letters and digits, all of them ASCII. -/
def isName : Text → Bool
  | [] => false
  | c :: rest => c.isAlpha && rest.all Char.isAlphanum

/-- Whether a text is one or more ASCII digits. -/
def isDigits (t : Text) : Bool := !t.isEmpty && t.all Char.isDigit

namespace Term

/-- The term that a run of letters and digits spells. -/
def ofToken? (t : Text) : Option Term :=
  if isDigits t then some (.literal t)
  else if isName t then some (.symbol t)
  else none

/-- Read a term at the front of a text, and answer what follows it. -/
def read? (t : Text) : Option (Term × Text) :=
  match t.trimStart with
  | '.' :: rest => some (.here, rest)
  | t => (ofToken? (t.takeWhile Char.isAlphanum)).map (·, t.dropWhile Char.isAlphanum)

/-- A term as it is written. -/
def render : Term → Text
  | here => "."
  | symbol name => name
  | literal digits => digits

/-- What a term stands for at the address `location`. A literal stands for a word. -/
def evaluate (t : Term) (location : Nat) (symbols : SymbolTable) (radix : Radix) :
    Except Error Wide :=
  match t with
  | here => .ok (BitVec.ofNat 16 location)
  | symbol name =>
    match symbols.address? name with
    | some address => .ok (BitVec.ofNat 16 address)
    | none => .error (.undefinedSymbol name)
  | literal digits => (radix.literal digits).map (BitVec.setWidth 16)

end Term

/-! ## Operators -/

/-- How a second term is joined to the first. -/
inductive Operator where
  | plus
  | minus
  deriving DecidableEq, Repr

namespace Operator

/-- The character of an operator. -/
def char : Operator → Char
  | plus => '+'
  | minus => '-'

/-- Read an operator at the front of a text, if one stands there, and answer what follows it. -/
def read? (t : Text) : Option (Operator × Text) :=
  match t.trimStart with
  | '+' :: rest => some (.plus, rest)
  | '-' :: rest => some (.minus, rest)
  | _ => none

/-- Join two terms. -/
def apply : Operator → Wide → Wide → Wide
  | plus, a, b => a + b
  | minus, a, b => a - b

end Operator

/-! ## Expressions -/

/-- A term, or two terms with an operator between them. -/
structure Expression where
  /-- Whether a minus sign stands in front. -/
  negated : Bool
  first : Term
  second : Option (Operator × Term)
  deriving DecidableEq, Repr

namespace Expression

/-- Read a minus sign at the front of a text, if one stands there, and answer what follows it. -/
def readSign (t : Text) : Bool × Text :=
  match t.trimStart with
  | '-' :: rest => (true, rest)
  | t => (false, t)

/-- Read an operator and a second term, or nothing, up to the end of the text. -/
def readSecond? (t : Text) : Option (Option (Operator × Term)) :=
  match Operator.read? t with
  | none => if t.all isBlank then some none else none
  | some (operator, t) =>
    match Term.read? t with
    | none => none
    | some (term, t) => if t.all isBlank then some (some (operator, term)) else none

/-- The expression that a whole text spells. -/
def parse? (t : Text) : Option Expression :=
  let (negated, t) := readSign t
  match Term.read? t with
  | none => none
  | some (first, t) => (readSecond? t).map fun second => { negated, first, second }

/-- An expression as it is written, without blanks. -/
def render (e : Expression) : Text :=
  (if e.negated then ['-'] else []) ++ e.first.render ++
    match e.second with
    | none => []
    | some (operator, term) => operator.char :: term.render

/-- The name, if an expression is a single name and nothing else. -/
def name? (e : Expression) : Option Text :=
  match e with
  | { negated := false, first := .symbol name, second := none } => some name
  | _ => none

/-- The word that an expression stands for at the address `location`: the low twelve bits of its
value. The terms are evaluated from left to right, and the first that stands for nothing is the
error. -/
def evaluate (e : Expression) (location : Nat) (symbols : SymbolTable) (radix : Radix) :
    Except Error Word := do
  let first ← e.first.evaluate location symbols radix
  let mut value := if e.negated then -first else first
  if let some (operator, term) := e.second then
    value := operator.apply value (← term.evaluate location symbols radix)
  return value.setWidth 12

end Expression

example : Expression.parse? " - A +.".toList =
    some { negated := true, first := .symbol "A", second := some (.plus, .here) } := by decide

example : Expression.parse? "1A".toList = none := by decide

example : Expression.parse? "A B".toList = none := by decide

end TwelveBit.Assembly
