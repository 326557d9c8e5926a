import Mathlib.Data.Option.Basic
import TwelveBit.Assembly.Line
import TwelveBit.Proofs.Code
import TwelveBit.Proofs.Grammar
import TwelveBit.Proofs.Mnemonics

/-!
# The kinds of statements

The kinds of statements overlap, and a text is read as the first kind that fits it. `ReadAs` has a
case for each kind, which says what the kind asks of the text and that no kind before it fits;
`Statement.parse?_eq_some_iff` proves that this is how statements are read. The words of a memory
reference are told apart by their places alone: `Item.reference?_eq_some_iff` says which of them are
taken for flags.

Whatever is read is well formed (`Line.wellFormed_of_parse`): its names are names, its numerals are
digits, and the opcode of a memory reference is that of one.
-/

namespace TwelveBit

/-! ## Trimmed text -/

namespace Text

theorem exists_trimEnd (t : Text) : ∃ blanks, AllBlank blanks ∧ t = trimEnd t ++ blanks := by
  obtain ⟨blanks, hblanks, heq⟩ := exists_allBlank t.reverse
  refine ⟨blanks.reverse, fun c hc => hblanks c (List.mem_reverse.mp hc), ?_⟩
  calc
    t = t.reverse.reverse := t.reverse_reverse.symm
    _ = (blanks ++ trimStart t.reverse).reverse := congrArg _ heq
    _ = trimEnd t ++ blanks.reverse := List.reverse_append

/-- Trimmed text has no blanks at its ends. -/
theorem trim_trim (t : Text) : trim (trim t) = trim t := by
  obtain ⟨before, hbefore, hstart⟩ := exists_allBlank t
  obtain ⟨behind, hbehind, hend⟩ := exists_trimEnd (trimStart t)
  have ht : t = before ++ (trim t ++ behind) := by
    rw [trim, ← hend]
    exact hstart
  calc
    trim (trim t) = trim (before ++ (trim t ++ behind)) := by
      rw [trim_blank_append hbefore, trim_append_blank hbehind]
    _ = trim t := by rw [← ht]

end Text

namespace Assembly

/-! ## Memory references -/

namespace Item

variable {body name : Text} {words rest : List Text} {item : Item} {opcode : Opcode}
  {indirect pageZero : Bool} {operand : Expression}

/-- A flag is taken exactly if it stands in front. -/
theorem takeFlag_eq_iff {flag : Text} {written : Bool} : takeFlag flag words = (written, rest) ↔
    words = (if written then [flag] else []) ++ rest ∧
      (written = false → rest.head? ≠ some flag) := by
  constructor
  · intro h
    cases words with
    | nil =>
        cases h
        exact ⟨rfl, fun _ => nofun⟩
    | cons word words =>
        by_cases hword : word = flag
        · rw [takeFlag, if_pos hword] at h
          cases h
          exact ⟨congrArg (· :: _) hword, nofun⟩
        · rw [takeFlag, if_neg hword] at h
          cases h
          exact ⟨rfl, fun _ hhead => hword (Option.some.inj hhead)⟩
  · rintro ⟨rfl, hrest⟩
    cases written with
    | true => exact if_pos rfl
    | false =>
        cases rest with
        | nil => rfl
        | cons word rest => exact if_neg fun hword => hrest rfl (congrArg some hword)

/-- The words behind the mnemonic of a memory reference: the flags that it has, and its operand. -/
def flagged (indirect pageZero : Bool) (operand : List Text) : List Text :=
  (if indirect then ["I".toList] else []) ++
    ((if pageZero then ["Z".toList] else []) ++ operand)

/-- The words of an operand of which none is taken for a flag. An `I` behind another flag and a `Z`
behind a `Z` are operands. -/
structure IsOperand (indirect pageZero : Bool) (operand : List Text) : Prop where
  indirect : indirect = false → pageZero = false → operand.head? ≠ some "I"
  pageZero : pageZero = false → operand.head? ≠ some "Z"

/-- The flags are taken off as far as they are written. -/
theorem takeFlags_eq_iff {operand : List Text} :
    (∃ rest, takeFlag "I" words = (indirect, rest) ∧ takeFlag "Z" rest = (pageZero, operand)) ↔
      words = flagged indirect pageZero operand ∧ IsOperand indirect pageZero operand := by
  simp only [takeFlag_eq_iff, flagged]
  constructor
  · rintro ⟨rest, ⟨rfl, hindirect⟩, rfl, hzero⟩
    refine ⟨rfl, fun hi hz => ?_, hzero⟩
    rw [hz] at hindirect
    exact hindirect hi
  · rintro ⟨rfl, hoperand⟩
    refine ⟨_, ⟨rfl, fun hi => ?_⟩, rfl, hoperand.pageZero⟩
    cases pageZero with
    | true => exact fun h => absurd (Option.some.inj h) (by decide)
    | false => exact hoperand.indirect hi rfl

/-- **What is read as a memory reference.** -/
theorem reference?_eq_some_iff : reference? body = some item ↔
    ∃ name opcode indirect pageZero words operand,
      Mnemonic.memoryReference? name = some opcode ∧
      body.words = name :: flagged indirect pageZero words ∧
      IsOperand indirect pageZero words ∧
      Expression.parse? (Text.unwords words) = some operand ∧
      item = .reference opcode indirect pageZero operand := by
  unfold reference?
  constructor
  · intro h
    split at h
    · cases h
    · next name words hwords =>
        split at h
        · cases h
        · next opcode hname =>
            obtain ⟨operand, hoperand, rfl⟩ := Option.map_eq_some_iff.mp h
            obtain ⟨hflags, hfirst⟩ := takeFlags_eq_iff.mp ⟨_, rfl, rfl⟩
            exact ⟨name, opcode, _, _, _, operand, hname, hwords.trans (congrArg _ hflags), hfirst,
              hoperand, rfl⟩
  · rintro ⟨name, opcode, indirect, pageZero, words, operand, hname, hwords, hfirst, hoperand, rfl⟩
    obtain ⟨rest, hindirect, hzero⟩ := takeFlags_eq_iff.mpr ⟨rfl, hfirst⟩
    simp only [hwords, hname, hindirect, hzero, hoperand, Option.map_some]

end Item

/-! ## The first kind that fits -/

namespace Statement

variable {body : Text} {s : Statement}

/-- How a text is read: as a statement of the first kind that fits the text. -/
inductive ReadAs (body : Text) : Statement → Prop where
  | reference {opcode : Opcode} {indirect pageZero : Bool} {operand : Expression}
      (h : Item.reference? body = some (.reference opcode indirect pageZero operand)) :
      ReadAs body (.emit (.reference opcode indirect pageZero operand))
  | operate {word : Word} (hreference : Item.reference? body = none)
      (h : Mnemonic.operateWord? body.words = some word) : ReadAs body (.emit (.operate word))
  | inputOutput {word : Word} (hreference : Item.reference? body = none)
      (hoperate : Mnemonic.operateWord? body.words = none)
      (h : Mnemonic.inputOutput? body = some word) : ReadAs body (.emit (.inputOutput word))
  | origin {digits : Text} (hinstruction : Item.instruction? body = none)
      (h : origin? body = some (.origin digits)) : ReadAs body (.origin digits)
  | radix {radix : Radix} (hinstruction : Item.instruction? body = none)
      (horigin : origin? body = none) (h : directive? body = some (.radix radix)) :
      ReadAs body (.radix radix)
  | finish (hinstruction : Item.instruction? body = none) (horigin : origin? body = none)
      (h : directive? body = some .finish) : ReadAs body .finish
  | constant {value : Expression} (hinstruction : Item.instruction? body = none)
      (horigin : origin? body = none) (hdirective : directive? body = none)
      (h : Expression.parse? body = some value) : ReadAs body (.emit (.constant value))
  | reserve (h : body = []) : ReadAs body (.emit .reserve)

/-- An origin has digits. -/
theorem exists_of_origin? (h : origin? body = some s) :
    ∃ digits, s = .origin digits ∧ isDigits digits = true := by
  unfold origin? at h
  split at h
  · split at h
    · next hdigits =>
        cases h
        exact ⟨_, rfl, hdigits⟩
    · cases h
  · cases h

/-- A directive emits nothing and has no operand. -/
theorem directive?_cases (h : directive? body = some s) :
    (∃ radix, s = .radix radix) ∨ s = .finish := by
  unfold directive? at h
  split at h
  · cases h
    exact .inl ⟨.octal, rfl⟩
  split at h
  · cases h
    exact .inl ⟨.decimal, rfl⟩
  split at h
  · cases h
    exact .inr rfl
  · cases h

/-- **A text is read as the first kind that fits it.** -/
theorem parse?_eq_some_iff : parse? body = some s ↔ ReadAs body s := by
  constructor
  · intro h
    unfold parse? at h
    rcases (Option.orElse_eq_some _ _ _).mp h with hsome | ⟨hnone, h⟩
    · obtain ⟨item, hitem, rfl⟩ := Option.map_eq_some_iff.mp hsome
      unfold Item.instruction? at hitem
      rcases (Option.orElse_eq_some _ _ _).mp hitem with hreference | ⟨hreference, hitem⟩
      · obtain ⟨_, _, _, _, _, _, -, -, -, -, rfl⟩ := Item.reference?_eq_some_iff.mp hreference
        exact .reference hreference
      · rcases (Option.orElse_eq_some _ _ _).mp hitem with hsome | ⟨hnone, hsome⟩
        · obtain ⟨word, hword, rfl⟩ := Option.map_eq_some_iff.mp hsome
          exact .operate hreference hword
        · obtain ⟨word, hword, rfl⟩ := Option.map_eq_some_iff.mp hsome
          exact .inputOutput hreference (Option.map_eq_none_iff.mp hnone) hword
    · have hinstruction := Option.map_eq_none_iff.mp hnone
      rcases (Option.orElse_eq_some _ _ _).mp h with horigin | ⟨horigin, h⟩
      · obtain ⟨digits, rfl, -⟩ := exists_of_origin? horigin
        exact .origin hinstruction horigin
      · rcases (Option.orElse_eq_some _ _ _).mp h with hdirective | ⟨hdirective, h⟩
        · obtain ⟨radix, rfl⟩ | rfl := directive?_cases hdirective
          · exact .radix hinstruction horigin hdirective
          · exact .finish hinstruction horigin hdirective
        · obtain ⟨item, hitem, rfl⟩ := Option.map_eq_some_iff.mp h
          unfold Item.data? at hitem
          rcases (Option.orElse_eq_some _ _ _).mp hitem with hsome | ⟨-, hreserve⟩
          · obtain ⟨value, hvalue, rfl⟩ := Option.map_eq_some_iff.mp hsome
            exact .constant hinstruction horigin hdirective hvalue
          · unfold Item.reserve? at hreserve
            split at hreserve
            · next hempty =>
                cases hreserve
                exact .reserve (List.isEmpty_iff.mp hempty)
            · cases hreserve
  · intro h
    unfold parse?
    cases h with
    | reference h => simp [Item.instruction?, h]
    | operate hreference h => simp [Item.instruction?, Item.operate?, hreference, h]
    | inputOutput hreference hoperate h =>
        simp [Item.instruction?, Item.operate?, Item.inputOutput?, hreference, hoperate, h]
    | origin hinstruction h => simp [hinstruction, h]
    | radix hinstruction horigin h => simp [hinstruction, horigin, h]
    | finish hinstruction horigin h => simp [hinstruction, horigin, h]
    | constant hinstruction horigin hdirective h =>
        simp [hinstruction, horigin, hdirective, Item.data?, Item.constant?, h]
    | reserve h =>
        rw [h]
        rfl

end Statement

/-! ## Lines -/

namespace Line

variable {t name body : Text} {l : Line}

/-- Code without a comma has no label. -/
theorem splitLabel_of_not_mem (h : ',' ∉ t) : splitLabel t = (none, t.trim) := by
  rw [splitLabel, List.dropWhile_eq_nil_iff.mpr (Text.bne_of_not_mem h)]

/-- A name in front of a comma is a label. -/
theorem splitLabel_append (hname : isName name = true) (body : Text) :
    splitLabel (name ++ ',' :: body) = (some name, body.trim) := by
  have htoken := isToken_of_isName hname
  have hcomma := Text.bne_of_kind htoken.alphanum (d := ',') (by decide)
  rw [splitLabel, List.takeWhile_append_of_pos hcomma, List.takeWhile_cons_of_neg (by decide),
    List.append_nil, htoken.isWord.trim_eq,
    List.dropWhile_append_of_pos hcomma, List.dropWhile_cons_of_neg (by decide)]
  exact if_pos hname

theorem isName_of_splitLabel (h : (splitLabel t).1 = some name) : isName name = true := by
  unfold splitLabel at h
  dsimp only at h
  split at h
  · cases h
  · split at h
    · next hname =>
        cases h
        exact hname
    · cases h

/-- The statement of a line has no blanks at its ends. -/
theorem trim_splitLabel (t : Text) : Text.trim (splitLabel t).2 = (splitLabel t).2 := by
  unfold splitLabel
  dsimp only
  split
  · exact Text.trim_trim t
  · split
    · exact Text.trim_trim _
    · exact Text.trim_trim t

theorem parse_eq_ok_iff : parse t = .ok l ↔
    (splitLabel t).1 = l.label ∧ Statement.parse? (splitLabel t).2 = some l.statement := by
  obtain ⟨label, statement⟩ := l
  unfold parse
  dsimp only
  cases Statement.parse? (splitLabel t).2 <;> simp

end Line

/-! ## Well-formed lines -/

/-- A symbol is a name, and a literal is one or more digits. -/
def Term.WellFormed : Term → Prop
  | .here => True
  | .symbol name => isName name = true
  | .literal digits => isDigits digits = true

structure Expression.WellFormed (e : Expression) : Prop where
  first : e.first.WellFormed
  second : ∀ operator term, e.second = some (operator, term) → term.WellFormed

def Item.WellFormed : Item → Prop
  | .reference opcode _ _ operand => opcode.isMemoryReference = true ∧ operand.WellFormed
  | .operate _ => True
  | .inputOutput _ => True
  | .constant value => value.WellFormed
  | .reserve => True

def Statement.WellFormed : Statement → Prop
  | .emit item => item.WellFormed
  | .origin digits => isDigits digits = true
  | .radix _ => True
  | .finish => True

/-- A line of which every part is written as the grammar asks. -/
structure Line.WellFormed (l : Line) : Prop where
  label : ∀ name ∈ l.label, isName name = true
  statement : l.statement.WellFormed

/-- A well-formed term is spelled by its own text and by no other. -/
theorem Term.spells_iff {term : Term} {text : Text} :
    term.Spells text ↔ term.WellFormed ∧ text = term.render := by
  cases term with
  | here =>
      constructor
      · rintro ⟨⟩
        exact ⟨trivial, rfl⟩
      · rintro ⟨-, rfl⟩
        exact .here
  | symbol name => exact Term.spells_symbol_iff
  | literal digits => exact Term.spells_literal_iff

theorem Expression.wellFormed_of_parse? {t : Text} {e : Expression} (h : parse? t = some e) :
    e.WellFormed := by
  obtain ⟨-, -, hfirst, -, hsecond⟩ := spells_of_parse? h
  refine ⟨(Term.spells_iff.mp hfirst).1, ?_⟩
  rintro operator term rfl
  obtain - | ⟨-, hterm, -⟩ := hsecond
  exact (Term.spells_iff.mp hterm).1

theorem Statement.wellFormed_of_parse? {body : Text} {s : Statement} (h : parse? body = some s) :
    s.WellFormed := by
  cases parse?_eq_some_iff.mp h with
  | reference hitem =>
      obtain ⟨_, _, _, _, _, _, hname, -, -, hoperand, heq⟩ := Item.reference?_eq_some_iff.mp hitem
      cases heq
      exact ⟨Mnemonic.isMemoryReference_of_memoryReference? hname,
        Expression.wellFormed_of_parse? hoperand⟩
  | operate _ _ => trivial
  | inputOutput _ _ _ => trivial
  | origin _ horigin =>
      obtain ⟨digits, heq, hdigits⟩ := exists_of_origin? horigin
      cases heq
      exact hdigits
  | radix _ _ _ => trivial
  | finish _ _ _ => trivial
  | constant _ _ _ hvalue => exact Expression.wellFormed_of_parse? hvalue
  | reserve _ => trivial

/-- **What is read is well formed.** -/
theorem Line.wellFormed_of_parse {t : Text} {l : Line} (h : parse t = .ok l) : l.WellFormed := by
  obtain ⟨hlabel, hstatement⟩ := parse_eq_ok_iff.mp h
  exact ⟨fun name hname => isName_of_splitLabel (hlabel.trans hname),
    Statement.wellFormed_of_parse? hstatement⟩

end Assembly

end TwelveBit
