import TwelveBit.Proofs.Tokens
import TwelveBit.Proofs.Translation

/-!
# Constants

Data of a program are lines with a constant, one after another, whose values may be anything.
`IsConstant` says that a text is such a line, whatever its digits are, and what the line says
follows from that.

A row of constants fills a row of words (`collect_word?_row`), and words in a row are in the image
one after another (`foldl_placedFrom`).
-/

namespace TwelveBit.Assembly

/-! ## Rows of words -/

/-- A row of words with its addresses, from an origin on. -/
def placedFrom (origin : Nat) (row : List Word) : List (Word × Word) :=
  (row.zipIdx origin).map fun (w, address) => (Word.ofNat address, w)

theorem placedFrom_append (origin : Nat) (first second : List Word) :
    placedFrom origin (first ++ second) =
      placedFrom origin first ++ placedFrom (origin + first.length) second := by
  rw [placedFrom, List.zipIdx_append, List.map_append]
  rfl

/-- Storing the words at their addresses is storing them one after another. -/
theorem foldl_placedFrom (origin : Nat) (row : List Word) (m : Memory) :
    (placedFrom origin row).foldl (fun m placed => m.set placed.1 placed.2) m =
      m.setFrom (Word.ofNat origin) row := by
  induction row generalizing origin m with
  | nil => rfl
  | cons w rest ih =>
      rw [Memory.setFrom, ← Word.ofNat_succ, ← ih]
      rfl

/-! ## Constants -/

/-- The line is a constant, written in digits, with or without a label. -/
structure IsConstant (label : Option Text) (digits : Text) (t : Text) : Prop where
  coded : (code t).isEmpty = false
  parse : Line.parse (code t) = .ok { label, statement := .emit (.constant (.ofDigits digits)) }

/-! ### Reading a constant -/

section Reading

variable {name blanks digits : Text} (hblanks : blanks.all isBlank = true)
  (hne : digits ≠ []) (hdigits : ∀ c ∈ digits, c.isDigit = true)

include hne hdigits

theorem isWord_of_isDigit : Text.IsWord digits :=
  Text.isWord_of_isAlphanum hne fun c hc => isAlphanum_of_isDigit (hdigits c hc)

include hblanks

/-- Digits after blanks are the digits. -/
theorem trim_blanks_digits : Text.trim (blanks ++ digits) = digits := by
  rw [Text.trim_blank_append (List.all_eq_true.mp hblanks)]
  exact (isWord_of_isDigit hne hdigits).trim_eq

/-- There is no comment after digits. -/
theorem code_blanks_digits : code (blanks ++ digits) = digits := by
  have hslash : '/' ∉ digits := fun hmem => by cases hdigits '/' hmem
  rw [code_blank_append (List.all_eq_true.mp hblanks), code, takeWhile_slash hslash]
  exact (isWord_of_isDigit hne hdigits).trim_eq

/-- Digits after blanks are a constant. -/
theorem IsConstant.of_digits : IsConstant none digits (blanks ++ digits) := by
  have hcode := code_blanks_digits hblanks hne hdigits
  have hcomma : ',' ∉ digits := fun hmem => by cases hdigits ',' hmem
  refine ⟨?_, ?_⟩
  · rw [hcode, List.isEmpty_eq_false_iff]
    exact hne
  · apply Line.parse_eq_ok_iff.mpr
    rw [hcode, Line.splitLabel_of_not_mem hcomma, (isWord_of_isDigit hne hdigits).trim_eq]
    exact ⟨rfl, Statement.parse?_digits hne hdigits⟩

variable (hname : isName name = true)

include hname

theorem code_labelled :
    code (name ++ ',' :: (blanks ++ digits)) = name ++ ',' :: (blanks ++ digits) := by
  have htoken := isToken_of_isName hname
  have hslash : (name ++ ',' :: (blanks ++ digits)).takeWhile (· != '/') =
      name ++ ',' :: (blanks ++ digits) := by
    rw [List.takeWhile_eq_self_iff, List.forall_mem_append, List.forall_mem_cons,
      List.forall_mem_append]
    exact ⟨Text.bne_of_kind htoken.alphanum (by decide), by decide,
      Text.bne_of_kind (List.all_eq_true.mp hblanks) (by decide),
      Text.bne_of_kind hdigits (by decide)⟩
  -- the line begins with the name and ends with a digit, so no end of it is blank
  obtain ⟨front, c, rfl, hlast⟩ := (isWord_of_isDigit hne hdigits).exists_concat
  rw [code, hslash, Text.trim, Text.trimStart_of_isWord htoken.isWord]
  simp only [← List.append_assoc, ← List.cons_append]
  exact Text.trimEnd_of_not_blank _ hlast

/-- Digits after a name with a comma and blanks are a constant with the name for a label. -/
theorem IsConstant.of_labelled :
    IsConstant (some name) digits (name ++ ',' :: (blanks ++ digits)) := by
  have hcode := code_labelled hblanks hne hdigits hname
  refine ⟨?_, ?_⟩
  · rw [hcode, List.isEmpty_eq_false_iff]
    exact List.append_ne_nil_of_left_ne_nil (isToken_of_isName hname).ne_nil _
  · apply Line.parse_eq_ok_iff.mpr
    rw [hcode, Line.splitLabel_append hname, trim_blanks_digits hblanks hne hdigits]
    exact ⟨rfl, Statement.parse?_digits hne hdigits⟩

end Reading

/-! ### What a constant says -/

namespace IsConstant

variable {label : Option Text} {digits t : Text} {p : Position} {w : Word}

/-- A constant says its label. -/
theorem visit_label? (h : IsConstant label digits t) (hroom : p.counter < 4096) :
    p.visit Position.label? t =
      some (label.toList.map fun name => (name, p.counter),
        { p with counter := p.counter + 1 }) := by
  apply Position.visit_of_parse h.coded h.parse Statement.noConfusion
  · cases label with
    | none => rfl
    | some name => exact if_pos hroom
  · exact if_pos hroom

/-- A constant says its value, in the radix in force. -/
theorem visit_word? (h : IsConstant label digits t) (hroom : p.counter < 4096)
    (hvalue : p.radix.literal digits = .ok w) (symbols : SymbolTable) :
    p.visit (Position.word? symbols) t =
      some ([(Word.ofNat p.counter, w)], { p with counter := p.counter + 1 }) := by
  apply Position.visit_of_parse h.coded h.parse Statement.noConfusion
  · have hword : (Item.constant (.ofDigits digits)).encode p.counter symbols p.radix = .ok w := by
      rw [Item.encode, encodeConstant, Expression.evaluate_ofDigits, hvalue]
    rw [Position.word?]
    dsimp only
    rw [hword]
  · exact if_pos hroom

end IsConstant

/-! ### A row of constants -/

section Row

variable {line digits : Word → Text} {row : List Word} {p : Position}
  (h : ∀ w, IsConstant none (digits w) (line w)) (hroom : p.counter + row.length ≤ 4096)

include h hroom

/-- A row of constants without labels says no label. -/
theorem collect_label?_row : p.collect Position.label? (row.map line) =
    some ([], { p with counter := p.counter + row.length }) := by
  induction row generalizing p with
  | nil => rfl
  | cons w rest ih =>
      rw [List.length_cons, ← Nat.add_assoc, Nat.add_right_comm] at hroom ⊢
      exact Position.collect_cons ((h w).visit_label? (by omega)) (ih hroom)

/-- A row of constants says its values one after another. -/
theorem collect_word?_row (hvalue : ∀ w, p.radix.literal (digits w) = .ok w)
    (symbols : SymbolTable) : p.collect (Position.word? symbols) (row.map line) =
      some (placedFrom p.counter row, { p with counter := p.counter + row.length }) := by
  induction row generalizing p with
  | nil => rfl
  | cons w rest ih =>
      rw [List.length_cons, ← Nat.add_assoc, Nat.add_right_comm] at hroom ⊢
      exact Position.collect_cons ((h w).visit_word? (by omega) (hvalue w) symbols)
        (ih hroom hvalue)

end Row

end TwelveBit.Assembly
