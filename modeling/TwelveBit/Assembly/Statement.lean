import TwelveBit.Assembly.Expression
import TwelveBit.Instruction.Disassembly

/-!
# Statements

What one line asks of the assembler: to emit an `Item`, which is always one word, or to go on in
some other way. Nothing marks the kind of a statement, so the kinds are tried in a fixed order and
the first that fits is taken:

1. a memory reference, `TAD I Z expression`
2. micro-operations, `CLA CLL`
3. an input or output instruction, `TLS`
4. an origin, `*200`
5. a directive, `OCTAL`, `DECIMAL` or `$`
6. a constant, which is any expression
7. nothing at all, which reserves a word

A name can therefore hide a constant: `TLS` is never the value of a symbol `TLS`. `Statement.render`
writes a statement in one of the ways in which it can be written.
-/

namespace TwelveBit.Assembly

/-- What a line puts into memory: one word, whatever it is. -/
inductive Item where
  | reference (opcode : Opcode) (indirect pageZero : Bool) (operand : Expression)
  | operate (word : Word)
  | inputOutput (word : Word)
  | constant (value : Expression)
  | reserve
  deriving DecidableEq, Repr

/-- What a line asks for. -/
inductive Statement where
  | emit (item : Item)
  /-- Go on at another address. -/
  | origin (digits : Text)
  /-- Read numerals in another radix from here on. -/
  | radix (radix : Radix)
  | finish
  deriving DecidableEq, Repr

namespace Item

/-! ## Reading what is emitted -/

/-- Take a word off the front of a line, if it stands there. -/
def takeFlag (flag : Text) : List Text → Bool × List Text
  | [] => (false, [])
  | word :: rest => if word = flag then (true, rest) else (false, word :: rest)

def reference? (body : Text) : Option Item :=
  match body.words with
  | [] => none
  | name :: rest =>
    match Mnemonic.memoryReference? name with
    | none => none
    | some opcode =>
      let (indirect, rest) := takeFlag "I" rest
      let (pageZero, rest) := takeFlag "Z" rest
      (Expression.parse? (Text.unwords rest)).map (reference opcode indirect pageZero)

def operate? (body : Text) : Option Item := (Mnemonic.operateWord? body.words).map operate

def inputOutput? (body : Text) : Option Item := (Mnemonic.inputOutput? body).map inputOutput

def constant? (body : Text) : Option Item := (Expression.parse? body).map constant

def reserve? (body : Text) : Option Item := if body.isEmpty then some reserve else none

def instruction? (body : Text) : Option Item :=
  reference? body <|> operate? body <|> inputOutput? body

/-- Read what stands for its value. -/
def data? (body : Text) : Option Item := constant? body <|> reserve? body

def render : Item → Text
  | reference opcode indirect pageZero operand =>
    opcode.mnemonic ++ (if indirect then " I" else "") ++ (if pageZero then " Z" else "") ++
      " " ++ operand.render
  | operate word => disassemble word 0
  | inputOutput word => disassemble word 0
  | constant value => value.render
  | reserve => []

end Item

namespace Statement

def emits : Statement → Bool
  | emit _ => true
  | _ => false

/-! ## Reading statements -/

def origin? : Text → Option Statement
  | '*' :: rest => if isDigits (Text.trim rest) then some (origin (Text.trim rest)) else none
  | _ => none

def directive? (body : Text) : Option Statement :=
  if body = "OCTAL" then some (radix .octal)
  else if body = "DECIMAL" then some (radix .decimal)
  else if body = "$" then some finish
  else none

/-- The statement that a text without blanks at its ends spells. -/
def parse? (body : Text) : Option Statement :=
  (Item.instruction? body).map emit <|> origin? body <|> directive? body <|>
    (Item.data? body).map emit

def render : Statement → Text
  | emit item => item.render
  | origin digits => '*' :: digits
  | radix .octal => "OCTAL"
  | radix .decimal => "DECIMAL"
  | finish => "$"

end Statement

end TwelveBit.Assembly
