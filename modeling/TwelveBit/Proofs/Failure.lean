import TwelveBit.Proofs.Layout

/-!
# What is wrong with a line

The two passes look at different things on a line. The first sees a line that cannot be read, a
counter past the end of memory, and an origin whose digits are no numeral (`Position.Rejects`). The
second sees an operand or a constant that has no value, or one that is out of reach
(`SourceLine.Fails`).

Both are relations that say what is wrong, and with which error, in terms of the line, the place
before it and the names that have been defined. `Pass.layOut_eq_error_iff` and
`Pass.fill_eq_error_iff` prove that the visits of the two passes fail for exactly these reasons.
What the first pass lets through fails in the second only for the reasons of the second.
-/

namespace TwelveBit.Assembly

/-! ## Operands -/

/-- What is wrong with a term that stands for nothing. -/
inductive Term.Fails (symbols : SymbolTable) (radix : Radix) : Term → Error → Prop where
  | undefined {name : Text} (unknown : symbols.address? name = none) :
      Fails symbols radix (.symbol name) (.undefinedSymbol name)
  | literal {digits : Text} (invalid : radix.word? digits = none) :
      Fails symbols radix (.literal digits) (.invalidLiteral digits)

/-- What is wrong with an expression: the first of its terms that stands for nothing. -/
inductive Expression.Fails (symbols : SymbolTable) (radix : Radix) : Expression → Error → Prop where
  | first {e : Expression} {error : Error} (here : e.first.Fails symbols radix error) :
      Fails symbols radix e error
  | second {e : Expression} {operator : Operator} {term : Term} {error : Error}
      (first : ∀ error, ¬ e.first.Fails symbols radix error)
      (second : e.second = some (operator, term)) (here : term.Fails symbols radix error) :
      Fails symbols radix e error

/-- What is wrong with an item at a place. -/
inductive Item.Fails (symbols : SymbolTable) (p : Position) : Item → Error → Prop where
  | operand {opcode : Opcode} {indirect pageZero : Bool} {operand : Expression} {error : Error}
      (here : operand.Fails symbols p.radix error) :
      Fails symbols p (.reference opcode indirect pageZero operand) error
  /-- An operand on another page than page zero and that of the place. -/
  | unreachable {opcode : Opcode} {indirect : Bool} {operand : Expression} {address : Word}
      (value : operand.evaluate p.counter symbols p.radix = .ok address)
      (other : address.page ≠ (Word.ofNat p.counter).page) (notZero : address.page ≠ 0) :
      Fails symbols p (.reference opcode indirect false operand)
        (.unreachable address.toNat (Word.ofNat p.counter).page)
  /-- A line that is a single unknown name. -/
  | name {value : Expression} {name : Text} (bare : value.name? = some name)
      (unknown : symbols.address? name = none) : Fails symbols p (.constant value) .unrecognized
  | constant {value : Expression} {error : Error} (notBare : value.name? = none)
      (here : value.Fails symbols p.radix error) : Fails symbols p (.constant value) error

section Operands

variable {symbols : SymbolTable} {radix : Radix} {p : Position} {location : Nat} {error : Error}

theorem Radix.literal_eq_error_iff {digits : Text} :
    radix.literal digits = .error error ↔
      radix.word? digits = none ∧ error = .invalidLiteral digits := by
  rw [literal]
  cases radix.word? digits with
  | none => simp [eq_comm]
  | some value => simp

theorem map_eq_error_iff {α β : Type} {f : α → β} {x : Except Error α} :
    x.map f = .error error ↔ x = .error error := by
  cases x with
  | error error' => rw [Except.map, Except.error.injEq, Except.error.injEq]
  | ok value => exact iff_of_false nofun nofun

theorem Term.evaluate_eq_error_iff {t : Term} :
    t.evaluate location symbols radix = .error error ↔ t.Fails symbols radix error := by
  cases t with
  | here =>
      refine iff_of_false (fun h => by cases h) ?_
      rintro ⟨⟩
  | symbol name =>
      rw [evaluate]
      cases hname : symbols.address? name with
      | none =>
          constructor
          · rintro ⟨⟩
            exact .undefined hname
          · rintro ⟨-⟩
            rfl
      | some address =>
          refine iff_of_false (fun h => by cases h) ?_
          rintro ⟨hunknown⟩
          rw [hname] at hunknown
          cases hunknown
  | literal digits =>
      rw [evaluate, map_eq_error_iff, Radix.literal_eq_error_iff]
      constructor
      · rintro ⟨hinvalid, rfl⟩
        exact .literal hinvalid
      · rintro ⟨-⟩
        next hinvalid => exact ⟨hinvalid, rfl⟩

/-- A term that does not fail has a value. -/
theorem Term.forall_not_fails_iff {t : Term} :
    (∀ error, ¬ t.Fails symbols radix error) ↔ ∃ w, t.evaluate location symbols radix = .ok w := by
  cases h : t.evaluate location symbols radix with
  | error error =>
      refine iff_of_false (fun hfree => hfree error (evaluate_eq_error_iff.mp h)) ?_
      rintro ⟨w, hw⟩
      cases hw
  | ok w =>
      refine iff_of_true (fun error hfails => ?_) ⟨w, rfl⟩
      rw [evaluate_eq_error_iff.mpr hfails] at h
      cases h

/-- The terms are evaluated from left to right. -/
theorem Expression.evaluate_eq (e : Expression) (location : Nat) (symbols : SymbolTable)
    (radix : Radix) : e.evaluate location symbols radix =
      match e.first.evaluate location symbols radix with
      | .error error => .error error
      | .ok value =>
        match e.second with
        | none => .ok ((if e.negated then -value else value).setWidth 12)
        | some (operator, term) => (term.evaluate location symbols radix).map fun value' =>
            (operator.apply (if e.negated then -value else value) value').setWidth 12 := by
  rw [evaluate]
  cases e.first.evaluate location symbols radix with
  | error error => rfl
  | ok value =>
      rcases e.second with _ | ⟨operator, term⟩
      · rfl
      · dsimp only [bind, Except.bind]
        cases term.evaluate location symbols radix <;> rfl

/-- An expression fails exactly where it has no value. -/
theorem Expression.evaluate_eq_error_iff {e : Expression} :
    e.evaluate location symbols radix = .error error ↔ e.Fails symbols radix error := by
  rw [evaluate_eq]
  cases hfirst : e.first.evaluate location symbols radix with
  | error error' =>
      have hfails := Term.evaluate_eq_error_iff.mp hfirst
      constructor
      · rintro ⟨⟩
        exact .first hfails
      · rintro (here | ⟨hfree, -, -⟩)
        · cases hfirst.symm.trans (Term.evaluate_eq_error_iff.mpr here)
          rfl
        · exact absurd hfails (hfree error')
  | ok w =>
      have hfree := Term.forall_not_fails_iff.mpr ⟨w, hfirst⟩
      rcases hsecond : e.second with _ | ⟨operator, term⟩
      · refine iff_of_false (fun h => by cases h) ?_
        rintro (here | ⟨-, second, -⟩)
        · exact hfree error here
        · rw [hsecond] at second
          cases second
      · have hterm : e.Fails symbols radix error ↔ term.Fails symbols radix error := by
          constructor
          · rintro (here | ⟨-, second, here⟩)
            · exact absurd here (hfree error)
            · rw [hsecond] at second
              cases second
              exact here
          · exact .second hfree hsecond
        rw [hterm, ← Term.evaluate_eq_error_iff]
        exact map_eq_error_iff

/-- A memory reference without `Z` fails if its operand is out of reach. -/
theorem encodeReference_eq_error_iff {opcode : Opcode} {indirect pageZero : Bool} {address : Word} :
    encodeReference opcode indirect pageZero address.toNat location = .error error ↔
      pageZero = false ∧ address.page ≠ (Word.ofNat location).page ∧ address.page ≠ 0 ∧
        error = .unreachable address.toNat (Word.ofNat location).page := by
  have hreach : (!pageZero && !address.samePage (Word.ofNat location) && address.page != 0) = true ↔
      pageZero = false ∧ address.page ≠ (Word.ofNat location).page ∧ address.page ≠ 0 := by
    simp [Word.samePage, and_assoc]
  rw [encodeReference, Word.ofNat_toNat]
  split
  · next h =>
      obtain ⟨hz, hother, hnotZero⟩ := hreach.mp h
      constructor
      · rintro ⟨⟩
        exact ⟨hz, hother, hnotZero, rfl⟩
      · rintro ⟨-, -, -, rfl⟩
        rfl
  · next h =>
      refine iff_of_false (fun h => by cases h) ?_
      rintro ⟨hz, hother, hnotZero, -⟩
      exact h (hreach.mpr ⟨hz, hother, hnotZero⟩)

/-- A bare name has no other error than that it is unknown. -/
theorem Expression.evaluate_of_name {value : Expression} {name : Text}
    (h : value.name? = some name) (location : Nat) (symbols : SymbolTable) (radix : Radix) :
    value.evaluate location symbols radix =
      match symbols.address? name with
      | some address => .ok (Word.ofNat address)
      | none => .error (.undefinedSymbol name) := by
  obtain ⟨_ | _, _ | name' | digits, _ | second⟩ := value <;> cases h
  rw [evaluate_eq, Term.evaluate]
  cases symbols.address? name with
  | none => rfl
  | some address => exact congrArg Except.ok (BitVec.setWidth_ofNat_of_le (by decide) address)

theorem encodeConstant_eq_error_iff {value : Expression} :
    encodeConstant value p.counter symbols p.radix = .error error ↔
      Item.Fails symbols p (.constant value) error := by
  rw [encodeConstant]
  cases hname : value.name? with
  | some name =>
      rw [Expression.evaluate_of_name hname]
      cases hunknown : symbols.address? name with
      | none =>
          constructor
          · rintro ⟨⟩
            exact .name hname hunknown
          · rintro (_ | _ | _ | ⟨notBare, -⟩)
            · rfl
            · rw [hname] at notBare; cases notBare
      | some address =>
          refine iff_of_false (fun h => by cases h) ?_
          rintro (_ | _ | ⟨bare, unknown⟩ | ⟨notBare, -⟩)
          · rw [hname] at bare
            cases bare
            rw [hunknown] at unknown
            cases unknown
          · rw [hname] at notBare; cases notBare
  | none =>
      have hfails : Item.Fails symbols p (.constant value) error ↔
          value.Fails symbols p.radix error := by
        constructor
        · rintro (_ | _ | ⟨bare, -⟩ | ⟨-, here⟩)
          · rw [hname] at bare; cases bare
          · exact here
        · exact .constant hname
      have hvalue : value.evaluate p.counter symbols p.radix = .error error ↔
          value.Fails symbols p.radix error := Expression.evaluate_eq_error_iff
      rw [hfails, ← hvalue]
      split
      · next heq => rw [heq]; rfl
      · rfl

/-- An item fails exactly where it has no word. -/
theorem Item.encode_eq_error_iff {item : Item} :
    item.encode p.counter symbols p.radix = .error error ↔ item.Fails symbols p error := by
  cases item with
  | reference opcode indirect pageZero operand =>
      rw [encode]
      dsimp only [bind, Except.bind]
      cases hvalue : operand.evaluate p.counter symbols p.radix with
      | error error' =>
          constructor
          · rintro ⟨⟩
            exact .operand (Expression.evaluate_eq_error_iff.mp hvalue)
          · rintro (here | ⟨value, -, -⟩)
            · exact hvalue.symm.trans (Expression.evaluate_eq_error_iff.mpr here)
            · rw [hvalue] at value; cases value
      | ok address =>
          refine encodeReference_eq_error_iff.trans ?_
          constructor
          · rintro ⟨rfl, hother, hnotZero, rfl⟩
            exact .unreachable hvalue hother hnotZero
          · rintro (here | ⟨value, other, notZero⟩)
            · rw [Expression.evaluate_eq_error_iff.mpr here] at hvalue
              cases hvalue
            · rw [hvalue] at value
              cases value
              exact ⟨rfl, other, notZero, rfl⟩
  | operate word => exact iff_of_false (fun h => by cases h) (fun h => by cases h)
  | inputOutput word => exact iff_of_false (fun h => by cases h) (fun h => by cases h)
  | constant value => exact encodeConstant_eq_error_iff
  | reserve => exact iff_of_false (fun h => by cases h) (fun h => by cases h)

/-! ### The errors of items

None of them says that memory is full: an item has no part in where it goes.
-/

theorem Term.Fails.ne_overflow {t : Term} (h : t.Fails symbols radix error) :
    error ≠ .overflow := by
  cases h with
  | undefined unknown => exact fun h => by cases h
  | literal invalid => exact fun h => by cases h

theorem Expression.Fails.ne_overflow {e : Expression} (h : e.Fails symbols radix error) :
    error ≠ .overflow := by
  cases h with
  | first here => exact here.ne_overflow
  | second first second here => exact here.ne_overflow

theorem Item.Fails.ne_overflow {item : Item} (h : item.Fails symbols p error) :
    error ≠ .overflow := by
  cases h with
  | operand here => exact here.ne_overflow
  | unreachable value other notZero => exact fun h => by cases h
  | name bare unknown => exact fun h => by cases h
  | constant notBare here => exact here.ne_overflow

end Operands

/-! ## Lines -/

/-- What the first pass finds wrong with a line at a place: that it cannot be read, that it needs
the place of the next word and there is none, or that it is an origin whose digits are no
numeral. -/
inductive Position.Rejects (p : Position) (l : SourceLine) : Error → Prop where
  | unrecognized (unread : ∀ line, l.parse ≠ .ok line) : Rejects p l .unrecognized
  | overflow {line : Line} (read : l.parse = .ok line) (full : 4096 ≤ p.counter)
      (needs : line.label.isSome = true ∨ line.statement.emits = true) : Rejects p l .overflow
  | origin {line : Line} {digits : Text} (read : l.parse = .ok line)
      (statement : line.statement = .origin digits) (room : line.label = none ∨ p.counter < 4096)
      (invalid : p.radix.word? digits = none) : Rejects p l (.invalidLiteral digits)

/-- What the second pass finds wrong with a line at a place: what is wrong with its item. -/
def SourceLine.Fails (symbols : SymbolTable) (p : Position) (l : SourceLine) (error : Error) :
    Prop :=
  ∃ label item, l.parse = .ok ⟨label, .emit item⟩ ∧ item.Fails symbols p error

/-- What the second pass finds wrong, it finds on a line that emits a word. -/
theorem SourceLine.Fails.emits {symbols : SymbolTable} {p : Position} {l : SourceLine}
    {error : Error} (h : l.Fails symbols p error) : l.emits = true := by
  obtain ⟨label, item, hline, -⟩ := h
  exact emits_of_parse hline

theorem SourceLine.Fails.ne_overflow {symbols : SymbolTable} {p : Position} {l : SourceLine}
    {error : Error} (h : l.Fails symbols p error) : error ≠ .overflow := by
  obtain ⟨label, item, -, hfails⟩ := h
  exact hfails.ne_overflow

theorem SourceLine.eq_unrecognized_of_parse {l : SourceLine} {error : Error}
    (h : l.parse = .error error) : error = .unrecognized := by
  rw [parse, Line.parse] at h
  dsimp only at h
  split at h
  · cases h
  · cases h
    rfl

/-- A line that cannot be read is rejected for that. -/
theorem Position.rejects_iff_of_parse_error {p : Position} {l : SourceLine} {error error' : Error}
    (h : l.parse = .error error') : p.Rejects l error ↔ error = .unrecognized := by
  constructor
  · rintro (_ | ⟨read, -, -⟩ | ⟨read, -, -, -⟩)
    · rfl
    · rw [h] at read; cases read
    · rw [h] at read; cases read
  · rintro rfl
    refine .unrecognized fun line read => ?_
    rw [h] at read
    cases read

section Visits

variable {p : Position} {b b' : Builder} {s : Statement} {l : SourceLine} {line : Line}
  {error : Error} {a : Assembler} {e : SourceError}

theorem Position.after_eq_error_iff :
    p.after s = .error error ↔
      (s.emits = true ∧ 4096 ≤ p.counter ∧ error = .overflow) ∨
      ∃ digits, s = .origin digits ∧ p.radix.word? digits = none ∧
        error = .invalidLiteral digits := by
  cases s with
  | emit item =>
      rw [after]
      split
      · next hlt =>
          refine iff_of_false (fun h => by cases h) ?_
          rintro (⟨-, hge, -⟩ | ⟨_, ⟨⟩, -⟩)
          exact absurd hlt (Nat.not_lt.mpr hge)
      · next hge =>
          constructor
          · rintro ⟨⟩
            exact .inl ⟨rfl, Nat.not_lt.mp hge, rfl⟩
          · rintro (⟨-, -, rfl⟩ | ⟨_, ⟨⟩, -⟩)
            rfl
  | origin digits =>
      have hliteral : p.after (.origin digits) = .error error ↔
          p.radix.literal digits = .error error := by
        rw [after]
        cases p.radix.literal digits with
        | error error' => constructor <;> rintro ⟨⟩ <;> rfl
        | ok w => exact iff_of_false (fun h => by cases h) (fun h => by cases h)
      rw [hliteral, Radix.literal_eq_error_iff]
      constructor
      · rintro ⟨hinvalid, herror⟩
        exact .inr ⟨digits, rfl, hinvalid, herror⟩
      · rintro (⟨⟨⟩, -⟩ | ⟨_, ⟨⟩, hinvalid, herror⟩)
        exact ⟨hinvalid, herror⟩
  | radix radix =>
      refine iff_of_false (fun h => by cases h) ?_
      rintro (⟨⟨⟩, -⟩ | ⟨_, ⟨⟩, -⟩)
  | finish =>
      refine iff_of_false (fun h => by cases h) ?_
      rintro (⟨⟨⟩, -⟩ | ⟨_, ⟨⟩, -⟩)

/-- A line that can be read is rejected for its label, and after that for its statement. -/
theorem Position.rejects_iff_of_parse (h : l.parse = .ok line) :
    p.Rejects l error ↔
      (line.label.isSome = true ∧ 4096 ≤ p.counter ∧ error = .overflow) ∨
      (line.label = none ∨ p.counter < 4096) ∧ p.after line.statement = .error error := by
  rw [after_eq_error_iff]
  constructor
  · rintro (unread | ⟨read, full, needs⟩ | ⟨read, statement, room, invalid⟩)
    · exact absurd h (unread line)
    · rw [h] at read
      cases read
      cases hlabel : line.label with
      | some name => exact .inl ⟨rfl, full, rfl⟩
      | none =>
          rw [hlabel] at needs
          exact .inr ⟨.inl rfl, .inl ⟨needs.resolve_left Bool.false_ne_true, full, rfl⟩⟩
    · rw [h] at read
      cases read
      exact .inr ⟨room, .inr ⟨_, statement, invalid, rfl⟩⟩
  · rintro (⟨hlabel, full, rfl⟩ | ⟨room, ⟨hemits, full, rfl⟩ | ⟨digits, hs, invalid, rfl⟩⟩)
    · exact .overflow h full (.inl hlabel)
    · exact .overflow h full (.inr hemits)
    · exact .origin h hs room invalid

/-! ### The first pass -/

theorem Builder.label_eq_error_iff {name : Option Text} {number : Nat} :
    (∃ b', label name number b = .error error b') ↔
      name.isSome = true ∧ 4096 ≤ b.counter ∧ error = .overflow := by
  cases name with
  | none =>
      refine iff_of_false ?_ fun h => by cases h.1
      rintro ⟨b', h⟩
      cases h
  | some name =>
      rw [label]
      rcases Nat.lt_or_ge b.counter 4096 with hlt | hge
      · rw [define_of_lt hlt]
        refine iff_of_false ?_ fun h => absurd h.2.1 (Nat.not_le.mpr hlt)
        rintro ⟨b', h⟩
        cases h
      · rw [define_of_le hge]
        constructor
        · rintro ⟨_, ⟨⟩⟩
          exact ⟨rfl, hge, rfl⟩
        · rintro ⟨-, -, rfl⟩
          exact ⟨b, rfl⟩

theorem Builder.makeRoom_eq_error_iff :
    (∃ b', makeRoom s b = .error error b') ↔ b.position.after s = .error error := by
  rw [← position_makeRoom, Building.view_eq_error_iff]

/-- Where there is no room for its label, a line is rejected for that. -/
theorem Builder.rejects_iff_of_label_error {number : Nat} {error' : Error}
    (hline : l.parse = .ok line) (h : label line.label number b = .error error' b') :
    b.position.Rejects l error ↔ error = error' := by
  obtain ⟨hsome, hfull, rfl⟩ := label_eq_error_iff.mp ⟨b', h⟩
  rw [Position.rejects_iff_of_parse hline]
  constructor
  · rintro (⟨-, -, rfl⟩ | ⟨hnone | hlt, -⟩)
    · rfl
    · rw [hnone] at hsome; cases hsome
    · exact absurd hlt (Nat.not_lt.mpr hfull)
  · rintro rfl
    exact .inl ⟨hsome, hfull, rfl⟩

/-- Where its label has been defined, a line is rejected if there is no room for its statement. -/
theorem Builder.rejects_iff_of_label {number : Nat} {r : Option Redefinition}
    (hline : l.parse = .ok line) (h : label line.label number b = .ok r b') :
    b.position.Rejects l error ↔ ∃ b₁, makeRoom line.statement b' = .error error b₁ := by
  have hlabelled : ¬ (line.label.isSome = true ∧ 4096 ≤ b.counter) := by
    rintro ⟨hsome, hfull⟩
    obtain ⟨b₁, herror⟩ := label_eq_error_iff.mpr ⟨hsome, hfull, rfl⟩
    rw [herror] at h
    cases h
  -- the label has not moved the builder
  rw [Position.rejects_iff_of_parse hline, makeRoom_eq_error_iff, (of_label h).1]
  constructor
  · rintro (⟨hsome, hfull, -⟩ | ⟨-, hafter⟩)
    · exact absurd ⟨hsome, hfull⟩ hlabelled
    · exact hafter
  · intro hafter
    refine .inr ⟨?_, hafter⟩
    rw [← Option.not_isSome_iff_eq_none, ← Nat.not_le]
    exact Classical.not_and_iff_not_or_not.mp hlabelled

/-- **The first pass fails on the lines that are rejected**, and for that. -/
theorem Pass.layOut_eq_error_iff :
    (∃ a', layOut l a = .error e a') ↔
      ∃ error, a.builder.position.Rejects l error ∧ e = l.locate error := by
  cases hline : l.parse with
  | error error =>
      simp only [layOut_of_error hline, Position.rejects_iff_of_parse_error hline]
      obtain rfl := SourceLine.eq_unrecognized_of_parse hline
      constructor
      · rintro ⟨a', ⟨⟩⟩
        exact ⟨_, rfl, rfl⟩
      · rintro ⟨_, rfl, rfl⟩
        exact ⟨a, rfl⟩
  | ok line =>
      simp only [layOut_of_parse hline]
      cases hlabel : Builder.label line.label l.number a.builder with
      | error error b =>
          simp only [Builder.rejects_iff_of_label_error hline hlabel]
          constructor
          · rintro ⟨a', ⟨⟩⟩
            exact ⟨_, rfl, rfl⟩
          · rintro ⟨_, rfl, rfl⟩
            exact ⟨_, rfl⟩
      | ok r b =>
          simp only [Builder.rejects_iff_of_label hline hlabel]
          cases Builder.makeRoom line.statement b with
          | error error b' =>
              constructor
              · rintro ⟨a', ⟨⟩⟩
                exact ⟨_, ⟨b', rfl⟩, rfl⟩
              · rintro ⟨_, ⟨_, ⟨⟩⟩, rfl⟩
                exact ⟨_, rfl⟩
          | ok _ b' =>
              exact iff_of_false (fun ⟨_, h⟩ => by cases h) (fun ⟨_, ⟨_, h⟩, _⟩ => by cases h)

/-! ### The second pass -/

/-- An item that has a word is emitted if there is a place for it. -/
theorem Builder.fill_emit_eq_error_iff {item : Item} (hroom : b.counter < 4096) :
    (∃ b', fill (.emit item) b = .error error b') ↔ item.Fails b.symbols b.position error := by
  have hencode : b.encode item = item.encode b.position.counter b.symbols b.position.radix :=
    encode_of_lt item hroom
  rw [← Item.encode_eq_error_iff, ← hencode, fill_emit_eq]
  cases b.encode item with
  | error error' =>
      constructor
      · rintro ⟨_, ⟨⟩⟩
        rfl
      · rintro ⟨⟩
        exact ⟨b, rfl⟩
  | ok word =>
      dsimp only
      rw [emit_of_lt hroom]
      exact iff_of_false (fun ⟨_, h⟩ => by cases h) (fun h => by cases h)

/-- Any other statement fails only where it cannot be placed. -/
theorem Builder.fill_eq_error_iff (hs : s.emits = false) :
    (∃ b', fill s b = .error error b') ↔ b.position.after s = .error error := by
  rw [← position_place b s hs, Building.view_eq_error_iff, fill_eq_of_not_emits hs]
  simp only [Building.mapResult_eq_error_iff, id_eq, exists_eq_right]

/-- On a line that is not rejected a builder fails for the item of the line only. -/
theorem Builder.fill_eq_error_iff_fails (hline : l.parse = .ok line)
    (hfree : ∀ error, ¬ b.position.Rejects l error) :
    (∃ b', fill line.statement b = .error error b') ↔ l.Fails b.symbols b.position error := by
  obtain ⟨label, statement⟩ := line
  cases hs : statement.emits with
  | true =>
      obtain ⟨item, rfl⟩ := Statement.eq_emit_of_emits hs
      have hroom : b.counter < 4096 :=
        Nat.lt_of_not_le fun hfull => hfree _ (.overflow hline hfull (.inr rfl))
      rw [fill_emit_eq_error_iff hroom]
      constructor
      · exact fun here => ⟨label, item, hline, here⟩
      · rintro ⟨label', item', read, here⟩
        rw [hline] at read
        cases read
        exact here
  | false =>
      rw [fill_eq_error_iff hs]
      refine iff_of_false (fun hafter => ?_) ?_
      · -- an origin without a value is rejected, as there is room for its label
        have hroom : label = none ∨ b.counter < 4096 := by
          cases label with
          | none => exact .inl rfl
          | some name =>
              exact .inr (Nat.lt_of_not_le fun hfull =>
                hfree _ (.overflow hline hfull (.inl rfl)))
        exact hfree _ ((Position.rejects_iff_of_parse hline).mpr (.inr ⟨hroom, hafter⟩))
      · rintro ⟨label', item', read, -⟩
        rw [hline] at read
        cases read
        cases hs

/-- **On a line that is not rejected the second pass fails for its item only.** -/
theorem Pass.fill_eq_error_iff (hfree : ∀ error, ¬ a.builder.position.Rejects l error) :
    (∃ a', fill l a = .error e a') ↔
      ∃ error, l.Fails a.builder.symbols a.builder.position error ∧ e = l.locate error := by
  cases hline : l.parse with
  | error error =>
      obtain rfl := SourceLine.eq_unrecognized_of_parse hline
      exact absurd ((Position.rejects_iff_of_parse_error hline).mpr rfl) (hfree _)
  | ok line =>
      simp only [fill_of_parse hline, ← Builder.fill_eq_error_iff_fails hline hfree]
      rcases Builder.fill line.statement a.builder with ⟨_ | ⟨address, word⟩, b⟩ | ⟨error, b⟩
      · exact iff_of_false (fun ⟨_, h⟩ => by cases h) (fun ⟨_, ⟨_, h⟩, _⟩ => by cases h)
      · exact iff_of_false (fun ⟨_, h⟩ => by cases h) (fun ⟨_, ⟨_, h⟩, _⟩ => by cases h)
      · constructor
        · rintro ⟨a', ⟨⟩⟩
          exact ⟨error, ⟨b, rfl⟩, rfl⟩
        · rintro ⟨_, ⟨_, ⟨⟩⟩, rfl⟩
          exact ⟨_, rfl⟩

end Visits

end TwelveBit.Assembly
