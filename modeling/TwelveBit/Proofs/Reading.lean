import TwelveBit.Proofs.PageRule
import TwelveBit.Proofs.Rendering

/-!
# Reading what the disassembler writes

The text of a word is a row of words of letters and digits (`Instruction.pieces`), so cutting it up
gives the pieces back. What kind of statement they are read as is then a question of the first
piece: the mnemonic of a memory reference, a name of the operate or input and output tables, or a
numeral. `Item.ofWord` is the item that a word is read as, and `parse?_disassemble` proves that it
is the one.
-/

namespace TwelveBit

open Assembly

/-! ## The pieces of a text -/

namespace Instruction

/-- The words of the text of a word of memory. -/
def pieces (i : Instruction) (location : Word) : List Text :=
  if i.opcode.isMemoryReference then
    i.opcode.mnemonic :: ((if i.indirect then ["I".toList] else []) ++
      ((if i.pageZero then ["Z".toList] else []) ++
        [Numeral.octal 4 (i.direct location).toNat]))
  else match i.names? with
    | some names => names
    | none => [Numeral.octal 4 i.toNat]

theorem pieces_of_isMemoryReference {i : Instruction} (hop : i.opcode.isMemoryReference = true)
    (location : Word) :
    i.pieces location = i.opcode.mnemonic :: ((if i.indirect then ["I".toList] else []) ++
      ((if i.pageZero then ["Z".toList] else []) ++
        [Numeral.octal 4 (i.direct location).toNat])) :=
  if_pos hop

theorem pieces_of_names? {i : Instruction} (hop : i.opcode.isMemoryReference = false)
    {names : List Text} (h : i.names? = some names) (location : Word) :
    i.pieces location = names := by
  rw [pieces, if_neg (Bool.eq_false_iff.mp hop), h]

theorem pieces_of_no_names {i : Instruction} (hop : i.opcode.isMemoryReference = false)
    (h : i.names? = none) (location : Word) : i.pieces location = [Numeral.octal 4 i.toNat] := by
  rw [pieces, if_neg (Bool.eq_false_iff.mp hop), h]

/-- The text of a word is its pieces with spaces between them. -/
theorem disassemble_eq_unwords (i : Instruction) (location : Word) :
    disassemble i location = Text.unwords (i.pieces location) := by
  rw [disassemble, pieces]
  split
  · rw [referenceText]
    cases i.indirect <;> cases i.pageZero <;>
      simp [Text.unwords_cons_cons, Text.unwords_singleton]
  · cases i.names? with
    | some names => rfl
    | none => exact (Text.unwords_singleton _).symm

/-! ### Which names an instruction has -/

/-- An instruction with names is an input or output instruction with the name that its table has,
or an operate instruction whose names are joined to it again. -/
theorem names?_cases {i : Instruction} (hop : i.opcode.isMemoryReference = false)
    {names : List Text} (h : i.names? = some names) :
    (i.opcode = .iot ∧ ∃ name, names = [name] ∧ Mnemonic.inputOutput.name? i = some name) ∨
    (i.opcode = .opr ∧ Mnemonic.operateWord? names = some i) := by
  rw [names?] at h
  split at h
  · next hiot =>
      obtain ⟨name, hname, rfl⟩ := Option.map_eq_some_iff.mp h
      exact Or.inl ⟨hiot, name, rfl, hname⟩
  · next hiot =>
      have hopr : i.opcode = .opr := by
        revert hop hiot
        cases i.opcode <;> decide
      exact Or.inr ⟨hopr, operateWord?_operateNames hopr h⟩

/-- The names of an instruction are one or more, made of letters, and no memory references. -/
theorem name_of_names? {i : Instruction} (hop : i.opcode.isMemoryReference = false)
    {names : List Text} (h : i.names? = some names) :
    names ≠ [] ∧ ∀ n ∈ names, n ≠ [] ∧ n.all Char.isAlphanum = true ∧
      Mnemonic.memoryReference? n = none := by
  rcases names?_cases hop h with ⟨-, name, rfl, hname⟩ | ⟨-, hword⟩
  · obtain ⟨-, -, v, hv⟩ := Mnemonic.inputOutput?_of_name? hname
    refine ⟨List.cons_ne_nil name [], fun n hn => ?_⟩
    rw [List.mem_singleton.mp hn]
    exact Mnemonic.name_of_mem _ hv
  · obtain ⟨hne, hmem⟩ := Mnemonic.mem_of_operateWord? hword
    refine ⟨hne, fun n hn => ?_⟩
    obtain ⟨v, hv⟩ := hmem n hn
    exact Mnemonic.name_of_mem _ hv

/-- The pieces are made of letters and digits. -/
theorem isAlphanum_pieces (i : Instruction) (location : Word) :
    ∀ w ∈ i.pieces location, w ≠ [] ∧ w.all Char.isAlphanum = true := by
  have hnumeral (n : Nat) : Numeral.octal 4 n ≠ [] ∧
      (Numeral.octal 4 n).all Char.isAlphanum = true := by
    refine ⟨Numeral.octal_ne_nil 4 n, List.all_eq_true.mpr fun c hc => ?_⟩
    exact isAlphanum_of_isDigit (Numeral.isDigit_of_mem_octal hc)
  cases hop : i.opcode.isMemoryReference with
  | true =>
      rw [pieces_of_isMemoryReference hop, List.forall_mem_cons, List.forall_mem_append,
        List.forall_mem_append]
      refine ⟨?_, ?_, ?_, ?_⟩
      · cases i.opcode <;> decide
      · cases i.indirect <;> decide
      · cases i.pageZero <;> decide
      · intro w hw
        rw [List.mem_singleton.mp hw]
        exact hnumeral _
  | false =>
      cases hnames : i.names? with
      | some names =>
          rw [pieces_of_names? hop hnames]
          intro w hw
          obtain ⟨hne, hletters, -⟩ := (name_of_names? hop hnames).2 w hw
          exact ⟨hne, hletters⟩
      | none =>
          rw [pieces_of_no_names hop hnames]
          intro w hw
          rw [List.mem_singleton.mp hw]
          exact hnumeral _

/-- No text is empty. -/
theorem pieces_ne_nil (i : Instruction) (location : Word) : i.pieces location ≠ [] := by
  cases hop : i.opcode.isMemoryReference with
  | true =>
      rw [pieces_of_isMemoryReference hop]
      exact List.cons_ne_nil _ _
  | false =>
      cases hnames : i.names? with
      | some names =>
          rw [pieces_of_names? hop hnames]
          exact (name_of_names? hop hnames).1
      | none =>
          rw [pieces_of_no_names hop hnames]
          exact List.cons_ne_nil _ _

/-- Cutting the text of a word gives its pieces. -/
theorem words_disassemble (i : Instruction) (location : Word) :
    Text.words (disassemble i location) = i.pieces location := by
  rw [disassemble_eq_unwords]
  apply Text.words_unwords
  intro w hw
  obtain ⟨hne, halnum⟩ := i.isAlphanum_pieces location w hw
  exact Text.isWord_of_isAlphanum hne (List.all_eq_true.mp halnum)

end Instruction

namespace Assembly

/-! ## Numerals -/

/-- Digits on their own as an expression. -/
def Expression.ofDigits (digits : Text) : Expression where
  negated := false
  first := .literal digits
  second := none

theorem isDigits_of_forall {t : Text} (hne : t ≠ []) (hdigits : ∀ c ∈ t, c.isDigit = true) :
    isDigits t = true := by
  rw [isDigits, List.all_eq_true.mpr hdigits, List.isEmpty_eq_false_iff.mpr hne]
  rfl

theorem Expression.render_ofDigits (digits : Text) : (ofDigits digits).render = digits :=
  List.append_nil digits

theorem Expression.wellFormed_ofDigits {t : Text} (hne : t ≠ [])
    (hdigits : ∀ c ∈ t, c.isDigit = true) : (ofDigits t).WellFormed where
  first := isDigits_of_forall hne hdigits
  second := nofun

/-- A numeral of a word is read as the word. -/
theorem Radix.literal_of_read? {radix : Radix} {numeral : Text} {w : Word}
    (h : Numeral.read? radix.base numeral = some w.toNat) : radix.literal numeral = .ok w := by
  have hword : radix.word? numeral = some w := by
    rw [word?, h]
    show (if w.toNat < 4096 then some (Word.ofNat w.toNat) else none) = some w
    rw [if_pos w.isLt, Word.ofNat_toNat]
  rw [literal, hword]

/-- An octal numeral of any width is read as the word that it was written for. -/
theorem Radix.literal_octal (width : Nat) (w : Word) :
    Radix.octal.literal (Numeral.octal width w.toNat) = .ok w :=
  literal_of_read? (Numeral.read?_octal width w.toNat)

theorem Radix.literal_decimal (w : Word) :
    Radix.decimal.literal (Numeral.decimal w.toNat) = .ok w :=
  literal_of_read? (Numeral.read?_decimal w.toNat)

/-- Digits on their own are worth what they are read as. -/
theorem Expression.evaluate_ofDigits (digits : Text) (location : Nat) (symbols : SymbolTable)
    (radix : Radix) :
    (Expression.ofDigits digits).evaluate location symbols radix = radix.literal digits := by
  show ((radix.literal digits).map (BitVec.setWidth 16)).bind
    (fun value => .ok (value.setWidth 12)) = _
  cases radix.literal digits with
  | ok w =>
      have hword : (w.setWidth 16).setWidth 12 = w :=
        (BitVec.setWidth_setWidth_of_le w (by decide)).trans (BitVec.setWidth_eq w)
      exact congrArg Except.ok hword
  | error e => rfl

/-- The numeral of a word as an expression. -/
def Expression.numeral (w : Word) : Expression where
  negated := false
  first := .literal (Numeral.octal 4 w.toNat)
  second := none

theorem Expression.evaluate_numeral (w : Word) (location : Nat) (symbols : SymbolTable) :
    (Expression.numeral w).evaluate location symbols .octal = .ok w :=
  (evaluate_ofDigits _ location symbols .octal).trans (Radix.literal_octal 4 w)

/-! ## Items -/

namespace Item

/-- The item that the text of a word is read as. -/
def ofWord (i : Instruction) (location : Word) : Item :=
  if i.opcode.isMemoryReference then
    .reference i.opcode i.indirect i.pageZero (.numeral (i.direct location))
  else match i.names? with
    | some _ => if i.opcode = .iot then .inputOutput i else .operate i
    | none => .constant (.numeral i)

theorem reference?_eq_none {body name : Text} {rest : List Text}
    (hwords : body.words = name :: rest) (hname : Mnemonic.memoryReference? name = none) :
    reference? body = none := by
  rw [reference?, hwords]
  dsimp only
  rw [hname]

/-- The text of a memory reference is read as one with its fields. -/
theorem reference?_disassemble {i : Instruction} (hop : i.opcode.isMemoryReference = true)
    (location : Word) : reference? (disassemble i location) = some (ofWord i location) := by
  have htext : disassemble i location =
      render (.reference i.opcode i.indirect i.pageZero (.numeral (i.direct location))) := by
    rw [disassemble, if_pos hop, Instruction.referenceText, render]
    exact congrArg _ (Expression.render_ofDigits _).symm
  have hnumeral : (Expression.numeral (i.direct location)).WellFormed :=
    Expression.wellFormed_ofDigits (Numeral.octal_ne_nil 4 _) fun _ hc =>
      Numeral.isDigit_of_mem_octal hc
  -- a numeral is not one of the flags
  rw [htext, ofWord, if_pos hop]
  apply reference?_render hop hnumeral
  · simp [Expression.numeral, Expression.ofName]
  · simp [Expression.numeral, Expression.ofName]

end Item

/-! ## Statements -/

namespace Statement

/-- A star and a row of digits are an origin. -/
theorem parse?_origin {digits : Text} (hne : digits ≠ [])
    (hdigits : ∀ c ∈ digits, c.isDigit = true) :
    parse? ('*' :: digits) = some (.origin digits) := by
  have hblank : ∀ c ∈ digits, isBlank c = false := fun c hc =>
    isBlank_of_isAlphanum (isAlphanum_of_isDigit (hdigits c hc))
  have hword : Text.IsWord ('*' :: digits) :=
    ⟨List.cons_ne_nil _ _, List.forall_mem_cons.mpr ⟨by decide, hblank⟩⟩
  have hhiding : '*' :: digits ∉ hidingNames := by
    intro hmem
    cases isName_of_mem_hidingNames _ hmem
  have htrim : Text.trim digits = digits := Text.IsWord.trim_eq ⟨hne, hblank⟩
  have horigin : origin? ('*' :: digits) = some (.origin digits) := by
    show (if isDigits (Text.trim digits) then some (origin (Text.trim digits)) else none) = _
    rw [htrim, if_pos (isDigits_of_forall hne hdigits)]
  exact parse?_eq_some_iff.mpr (.origin (Item.instruction?_eq_none hword hhiding) horigin)

/-- A row of digits is a constant. -/
theorem parse?_digits {t : Text} (hne : t ≠ []) (hdigits : ∀ c ∈ t, c.isDigit = true) :
    parse? t = some (.emit (.constant (.ofDigits t))) := by
  have hhiding : (Expression.ofDigits t).render ∉ hidingNames := by
    intro hmem
    have hname := isName_of_mem_hidingNames _ hmem
    rw [Expression.render_ofDigits, isName_of_isDigits (isDigits_of_forall hne hdigits)] at hname
    cases hname
  have hparse := parse?_render_constant (Expression.wellFormed_ofDigits hne hdigits) hhiding
  rwa [Expression.render_ofDigits] at hparse

/-- **The text of a word is read as the item of the word.** -/
theorem parse?_disassemble (i : Instruction) (location : Word) :
    parse? (disassemble i location) = some (.emit (.ofWord i location)) := by
  cases hop : i.opcode.isMemoryReference with
  | true =>
      have hreference := Item.reference?_disassemble hop location
      rw [Item.ofWord, if_pos hop] at hreference ⊢
      exact parse?_eq_some_iff.mpr (.reference hreference)
  | false =>
      have hwords := i.words_disassemble location
      have htext := i.disassemble_eq_unwords location
      rw [Item.ofWord, if_neg (Bool.eq_false_iff.mp hop)]
      cases hnames : i.names? with
      | none =>
          rw [Instruction.pieces_of_no_names hop hnames, Text.unwords_singleton] at htext
          rw [htext]
          exact parse?_digits (Numeral.octal_ne_nil _ _) fun c hc => Numeral.isDigit_of_mem_octal hc
      | some names =>
          rw [Instruction.pieces_of_names? hop hnames] at hwords htext
          obtain ⟨hne, hletters⟩ := Instruction.name_of_names? hop hnames
          obtain ⟨name, rest, rfl⟩ := List.exists_cons_of_ne_nil hne
          have hreference : Item.reference? (disassemble i location) = none :=
            Item.reference?_eq_none hwords (hletters name List.mem_cons_self).2.2
          dsimp only
          rcases Instruction.names?_cases hop hnames with ⟨hiot, n, hn, hname⟩ | ⟨hopr, hword⟩
          · obtain ⟨rfl, rfl⟩ := List.cons.inj hn
            -- the names of devices are in no other table, so the first two readings fail
            obtain ⟨hword, hapart, -⟩ := Mnemonic.inputOutput?_of_name? hname
            rw [if_pos hiot]
            apply parse?_eq_some_iff.mpr
            refine .inputOutput hreference ?_ ?_
            · rwa [hwords]
            · rwa [htext, Text.unwords_singleton]
          · have hiot : i.opcode ≠ .iot := by
              rw [hopr]
              decide
            rw [if_neg hiot]
            apply parse?_eq_some_iff.mpr
            refine .operate hreference ?_
            rwa [hwords]

end Statement

end Assembly

end TwelveBit
