import TwelveBit.Text.Blank

/-!
# Text

Text is a list of characters throughout the library, so that a function on text is a recursion on a
list and its laws are laws of lists. A string literal stands for its characters.

* `Text.trim` drops blank characters at both ends.
* `Text.words` is the list of maximal runs without a blank.
* `Text.lines` cuts at line feeds, and takes a carriage return before a line feed with it.
-/

namespace TwelveBit

/-- Text, as its characters. -/
abbrev Text := List Char

instance : Coe String Text := ⟨String.toList⟩

namespace Text

def trimStart (t : Text) : Text := t.dropWhile isBlank

def trimEnd (t : Text) : Text := (t.reverse.dropWhile isBlank).reverse

def trim (t : Text) : Text := trimEnd (trimStart t)

/-- The maximal runs of characters that are not blank. -/
def words (t : Text) : List Text := (t.splitOnP isBlank).filter (!·.isEmpty)

/-- Join pieces with single spaces between them. -/
def unwords (pieces : List Text) : Text := [' '].intercalate pieces

/-! ## Lines -/

/-- Drop one carriage return at the back. -/
def dropReturn (t : Text) : Text := if t.getLast? = some '\r' then t.dropLast else t

/-- The lines whose line feeds have been cut away. The last piece was ended by none: it is a line
only if something stands in it, and it keeps a carriage return. -/
def linesOfPieces : List Text → List Text
  | [] => []
  | [last] => if last.isEmpty then [] else [last]
  | piece :: next :: rest => dropReturn piece :: linesOfPieces (next :: rest)

/-- The lines of a text, without their ends. -/
def lines (t : Text) : List Text := linesOfPieces (t.splitOn '\n')

def unlines (ls : List Text) : Text := ls.flatMap (· ++ ['\n'])

example : lines "a\r\n\nb\r".toList = ["a".toList, [], "b\r".toList] := by decide

/-! ## Order -/

/-- Whether a text comes before another in a dictionary, or is equal to it. Characters are ordered
by their code points. -/
def notAfter : Text → Text → Bool
  | [], _ => true
  | _ :: _, [] => false
  | a :: s, b :: t => a.toNat < b.toNat || (a == b && notAfter s t)

/-! ## Columns -/

/-- Fill up at the front to a width. Longer text stays as it is. -/
def padStart (width : Nat) (fill : Char) (t : Text) : Text :=
  List.replicate (width - t.length) fill ++ t

/-- Fill up at the back with spaces to a width. Longer text stays as it is. -/
def padEnd (width : Nat) (t : Text) : Text :=
  t ++ List.replicate (width - t.length) ' '

end Text

end TwelveBit
