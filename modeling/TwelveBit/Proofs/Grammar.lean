import TwelveBit.Proofs.Tokens

/-!
# The grammar of expressions

The texts of an expression, written down as they are built: an optional minus sign, a term, and
optionally an operator and a second term, with any number of blanks before, between and behind them
(`Expression.Spells`). Reading accepts exactly these texts, and answers the expression that the text
was built for (`Expression.parse?_eq_some_iff`). Both directions go reader by reader. What a reader
takes off the front of a text is a spelling of its answer (`spelled_of_read?`), and a spelling in
front of a text is taken off it again (`read?_spelled`), whatever comes behind, as long as it does
not go on with a letter or a digit.
-/

namespace TwelveBit

namespace Text

variable {blanks t : Text}

/-- A text of blanks, or of nothing at all. -/
def AllBlank (t : Text) : Prop := ∀ c ∈ t, isBlank c = true

theorem allBlank_nil : AllBlank [] := List.forall_mem_nil _

theorem all_isBlank_iff : t.all isBlank = true ↔ AllBlank t := List.all_eq_true

theorem trimStart_allBlank_append (h : AllBlank blanks) (t : Text) :
    trimStart (blanks ++ t) = trimStart t :=
  List.dropWhile_append_of_pos h

theorem trimStart_of_allBlank (h : AllBlank t) : trimStart t = [] :=
  List.dropWhile_eq_nil_iff.mpr h

/-- Only blanks are dropped from the front. -/
theorem exists_allBlank (t : Text) : ∃ blanks, AllBlank blanks ∧ t = blanks ++ trimStart t :=
  ⟨t.takeWhile isBlank, List.all_eq_true.mp List.all_takeWhile,
    List.takeWhile_append_dropWhile.symm⟩

/-- A token ends before blanks, if it does before what stands behind them. -/
theorem AllBlank.cuts_append (h : AllBlank blanks) (ht : Cuts t) : Cuts (blanks ++ t) := by
  cases blanks with
  | nil => exact ht
  | cons c blanks => exact cuts_cons_iff.mpr (isAlphanum_of_isBlank (h c List.mem_cons_self))

end Text

namespace Assembly

open Text (AllBlank Cuts IsToken)

/-! ## Terms -/

namespace Term

variable {term : Term} {blanks text rest t : Text}

/-- The one text of a term: a dot, the name of a symbol, or the digits of a literal. -/
inductive Spells : Term → Text → Prop where
  | here : Spells here ['.']
  | symbol {first : Char} {rest : Text} (hfirst : first.isAlpha = true)
      (hrest : ∀ c ∈ rest, c.isAlphanum = true) : Spells (symbol (first :: rest)) (first :: rest)
  | literal {digits : Text} (hne : digits ≠ []) (hdigits : ∀ c ∈ digits, c.isDigit = true) :
      Spells (literal digits) digits

theorem spells_symbol_iff {name : Text} :
    (symbol name).Spells text ↔ isName name = true ∧ text = name := by
  constructor
  · intro h
    cases h with
    | symbol hfirst hrest => exact ⟨by simpa [isName, hfirst] using hrest, rfl⟩
  · rintro ⟨hname, rfl⟩
    cases text with
    | nil => cases hname
    | cons first rest =>
        obtain ⟨hfirst, hrest⟩ := Bool.and_eq_true_iff.mp hname
        exact .symbol hfirst (List.all_eq_true.mp hrest)

theorem spells_literal_iff {digits : Text} :
    (literal digits).Spells text ↔ isDigits digits = true ∧ text = digits := by
  constructor
  · intro h
    cases h with
    | literal hne hdigits => exact ⟨by simpa [isDigits, hne] using hdigits, rfl⟩
  · rintro ⟨hdigits, rfl⟩
    obtain ⟨hne, hdigits⟩ := Bool.and_eq_true_iff.mp hdigits
    exact .literal (by simpa using hne) (List.all_eq_true.mp hdigits)

/-- A term is spelled by a dot or by a token. -/
theorem Spells.cases (h : term.Spells text) :
    term = .here ∧ text = ['.'] ∨ IsToken text ∧ ofToken? text = some term := by
  cases term with
  | here =>
      cases h
      exact .inl ⟨rfl, rfl⟩
  | symbol name =>
      obtain ⟨hname, rfl⟩ := spells_symbol_iff.mp h
      have hdigits : isDigits text = false := by
        rw [Bool.eq_false_iff]
        intro hdigits
        rw [isName_of_isDigits hdigits] at hname
        cases hname
      exact .inr ⟨isToken_of_isName hname, by simp [ofToken?, hdigits, hname]⟩
  | literal digits =>
      obtain ⟨hdigits, rfl⟩ := spells_literal_iff.mp h
      exact .inr ⟨isToken_of_isDigits hdigits, by simp [ofToken?, hdigits]⟩

theorem spells_of_ofToken? (h : ofToken? text = some term) : term.Spells text := by
  unfold ofToken? at h
  split at h
  · next hdigits =>
      cases h
      exact spells_literal_iff.mpr ⟨hdigits, rfl⟩
  · split at h
    · next hname =>
        cases h
        exact spells_symbol_iff.mpr ⟨hname, rfl⟩
    · cases h

/-- A term begins with a character that is neither blank nor a sign. -/
theorem Spells.exists_cons (h : term.Spells text) :
    ∃ c rest, text = c :: rest ∧ isBlank c = false ∧ c ≠ '-' := by
  rcases h.cases with ⟨-, rfl⟩ | ⟨htoken, -⟩
  · exact ⟨'.', [], rfl, by decide, by decide⟩
  · obtain ⟨c, rest, rfl⟩ := List.exists_cons_of_ne_nil htoken.ne_nil
    have hc := htoken.alphanum c List.mem_cons_self
    refine ⟨c, rest, rfl, isBlank_of_isAlphanum hc, ?_⟩
    rintro rfl
    cases hc

theorem spelled_of_read? (h : read? t = some (term, rest)) :
    ∃ blanks text, AllBlank blanks ∧ term.Spells text ∧ t = blanks ++ (text ++ rest) := by
  obtain ⟨blanks, hblanks, ht⟩ := Text.exists_allBlank t
  unfold read? at h
  split at h
  · next hdot =>
      cases h
      exact ⟨blanks, ['.'], hblanks, .here, ht.trans (congrArg _ hdot)⟩
  · obtain ⟨term, hterm, heq⟩ := Option.map_eq_some_iff.mp h
    cases heq
    refine ⟨blanks, _, hblanks, spells_of_ofToken? hterm, ?_⟩
    rw [List.takeWhile_append_dropWhile]
    exact ht

theorem read?_spelled (hblanks : AllBlank blanks) (h : term.Spells text) (hrest : Cuts rest) :
    read? (blanks ++ (text ++ rest)) = some (term, rest) := by
  unfold read?
  rw [Text.trimStart_allBlank_append hblanks]
  rcases h.cases with ⟨rfl, rfl⟩ | ⟨htoken, hterm⟩
  · rfl
  · rw [Text.trimStart_of_isWord htoken.isWord]
    split
    · next rest' hdot =>
        -- a token does not begin with a dot
        obtain ⟨c, token, rfl⟩ := List.exists_cons_of_ne_nil htoken.ne_nil
        have hc := htoken.alphanum c List.mem_cons_self
        cases hdot
        cases hc
    · rw [hrest.takeWhile_append htoken, hrest.dropWhile_append htoken, hterm]
      rfl

end Term

/-! ## Operators -/

namespace Operator

variable {operator : Operator} {blanks rest t : Text}

theorem spelled_of_read? (h : read? t = some (operator, rest)) :
    ∃ blanks, AllBlank blanks ∧ t = blanks ++ operator.char :: rest := by
  obtain ⟨blanks, hblanks, ht⟩ := Text.exists_allBlank t
  refine ⟨blanks, hblanks, ht.trans (congrArg _ ?_)⟩
  unfold read? at h
  split at h
  · next hplus =>
      cases h
      exact hplus
  · next hminus =>
      cases h
      exact hminus
  · cases h

theorem read?_spelled (hblanks : AllBlank blanks) (operator : Operator) (rest : Text) :
    read? (blanks ++ operator.char :: rest) = some (operator, rest) := by
  unfold read?
  rw [Text.trimStart_allBlank_append hblanks]
  cases operator with
  | plus => rfl
  | minus => rfl

theorem read?_of_allBlank (h : AllBlank t) : read? t = none := by
  unfold read?
  rw [Text.trimStart_of_allBlank h]

theorem isAlphanum_char (operator : Operator) : operator.char.isAlphanum = false := by
  cases operator with
  | plus => rfl
  | minus => rfl

end Operator

/-! ## Expressions -/

namespace Expression

variable {e : Expression} {second : Option (Operator × Term)} {blanks rest t : Text}

/-- The sign in front of an expression. -/
def sign (negated : Bool) : Text := if negated then ['-'] else []

/-- The texts that may stand behind the first term and the blanks after it: nothing, or an operator
and a second term with blanks around it. -/
inductive SpellsSecond : Option (Operator × Term) → Text → Prop where
  | nothing : SpellsSecond none []
  | operand {operator : Operator} {term : Term} {before text behind : Text}
      (hbefore : AllBlank before) (hterm : term.Spells text) (hbehind : AllBlank behind) :
      SpellsSecond (some (operator, term)) (operator.char :: (before ++ (text ++ behind)))

/-- The texts of an expression. -/
inductive Spells : Expression → Text → Prop where
  | intro {negated : Bool} {first : Term} {second : Option (Operator × Term)}
      {before between text behind rest : Text}
      (hbefore : AllBlank before) (hbetween : AllBlank between) (hfirst : first.Spells text)
      (hbehind : AllBlank behind) (hsecond : SpellsSecond second rest) :
      Spells { negated, first, second }
        (before ++ (sign negated ++ (between ++ (text ++ (behind ++ rest)))))

/-! ### The sign -/

theorem spelled_of_readSign (t : Text) :
    ∃ blanks, AllBlank blanks ∧ t = blanks ++ (sign (readSign t).1 ++ (readSign t).2) := by
  obtain ⟨blanks, hblanks, ht⟩ := Text.exists_allBlank t
  refine ⟨blanks, hblanks, ht.trans (congrArg _ ?_)⟩
  unfold readSign
  split
  · next hminus => exact hminus
  · rfl

theorem readSign_allBlank_append (h : AllBlank blanks) (t : Text) :
    readSign (blanks ++ t) = readSign t := by
  rw [readSign, readSign, Text.trimStart_allBlank_append h]

theorem readSign_of_ne {c : Char} (hblank : isBlank c = false) (hminus : c ≠ '-') (t : Text) :
    readSign (c :: t) = (false, c :: t) := by
  rw [readSign, Text.trimStart_of_not_blank t hblank]
  split
  · next heq => exact absurd (List.cons.inj heq).1 hminus
  · rfl

/-- A sign is read if it stands there. Without one the blanks in front of the term are gone. -/
theorem readSign_spelled {before between text : Text} {term : Term} (negated : Bool)
    (hbefore : AllBlank before) (hbetween : AllBlank between) (hterm : term.Spells text)
    (rest : Text) : ∃ blanks, AllBlank blanks ∧
      readSign (before ++ (sign negated ++ (between ++ (text ++ rest)))) =
        (negated, blanks ++ (text ++ rest)) := by
  rw [readSign_allBlank_append hbefore]
  cases negated with
  | true => exact ⟨between, hbetween, rfl⟩
  | false =>
      obtain ⟨c, text, rfl, hblank, hminus⟩ := hterm.exists_cons
      refine ⟨[], Text.allBlank_nil, ?_⟩
      rw [sign, if_neg Bool.false_ne_true, List.nil_append, readSign_allBlank_append hbetween]
      exact readSign_of_ne hblank hminus (text ++ rest)

/-! ### The second term -/

theorem spelled_of_readSecond? (h : readSecond? t = some second) :
    ∃ blanks rest, AllBlank blanks ∧ SpellsSecond second rest ∧ t = blanks ++ rest := by
  unfold readSecond? at h
  split at h
  · split at h
    · next hblank =>
        cases h
        exact ⟨t, [], Text.all_isBlank_iff.mp hblank, .nothing, (List.append_nil t).symm⟩
    · cases h
  · next operator t' hoperator =>
      obtain ⟨blanks, hblanks, rfl⟩ := Operator.spelled_of_read? hoperator
      split at h
      · cases h
      · next term behind hterm =>
          obtain ⟨before, text, hbefore, htext, rfl⟩ := Term.spelled_of_read? hterm
          split at h
          · next hbehind =>
              cases h
              exact ⟨blanks, _, hblanks,
                .operand hbefore htext (Text.all_isBlank_iff.mp hbehind), rfl⟩
          · cases h

theorem readSecond?_spelled (hblanks : AllBlank blanks) (h : SpellsSecond second rest) :
    readSecond? (blanks ++ rest) = some second := by
  unfold readSecond?
  cases h with
  | nothing =>
      rw [List.append_nil, Operator.read?_of_allBlank hblanks]
      exact if_pos (Text.all_isBlank_iff.mpr hblanks)
  | operand hbefore hterm hbehind =>
      have hcuts := hbehind.cuts_append Text.cuts_nil
      rw [List.append_nil] at hcuts
      rw [Operator.read?_spelled hblanks]
      dsimp only
      rw [Term.read?_spelled hbefore hterm hcuts]
      exact if_pos (Text.all_isBlank_iff.mpr hbehind)

/-- The first term ends where a second one begins. -/
theorem SpellsSecond.cuts (h : SpellsSecond second rest) : Cuts rest := by
  cases h with
  | nothing => exact Text.cuts_nil
  | operand _ _ _ => exact Text.cuts_cons_iff.mpr (Operator.isAlphanum_char _)

/-! ### Both directions -/

/-- **What is read is spelled by the text.** -/
theorem spells_of_parse? (h : parse? t = some e) : e.Spells t := by
  obtain ⟨before, hbefore, ht⟩ := spelled_of_readSign t
  unfold parse? at h
  generalize readSign t = signed at h ht
  obtain ⟨negated, behindSign⟩ := signed
  dsimp only at h ht
  split at h
  · cases h
  · next first rest hfirst =>
      obtain ⟨second, hsecond, rfl⟩ := Option.map_eq_some_iff.mp h
      obtain ⟨between, text, hbetween, htext, rfl⟩ := Term.spelled_of_read? hfirst
      obtain ⟨behind, rest, hbehind, hrest, rfl⟩ := spelled_of_readSecond? hsecond
      rw [ht]
      exact .intro hbefore hbetween htext hbehind hrest

/-- **What is spelled is read.** -/
theorem parse?_of_spells (h : e.Spells t) : parse? t = some e := by
  obtain ⟨hbefore, hbetween, hfirst, hbehind, hsecond⟩ := h
  obtain ⟨blanks, hblanks, hsign⟩ := readSign_spelled _ hbefore hbetween hfirst _
  unfold parse?
  rw [hsign]
  dsimp only
  rw [Term.read?_spelled hblanks hfirst (hbehind.cuts_append hsecond.cuts)]
  dsimp only
  rw [readSecond?_spelled hbehind hsecond]
  rfl

theorem parse?_eq_some_iff : parse? t = some e ↔ e.Spells t :=
  ⟨spells_of_parse?, parse?_of_spells⟩

/-- **Reading accepts exactly the grammar.** A text is read as an expression if and only if it is
one of the texts of that expression. So no text is one of two expressions, and a text that is one of
none is not read. -/
theorem parse?_grammar (t : Text) :
    (∀ e, parse? t = some e ↔ e.Spells t) ∧
    (∀ e e' : Expression, e.Spells t → e'.Spells t → e = e') ∧
    (parse? t = none ↔ ∀ e : Expression, ¬ e.Spells t) := by
  refine ⟨fun e => parse?_eq_some_iff, fun e e' h h' => ?_, ?_⟩
  · rw [← parse?_eq_some_iff] at h h'
    exact Option.some.inj (h.symm.trans h')
  · simp only [← parse?_eq_some_iff]
    exact Option.eq_none_iff_forall_ne_some

end Expression

end Assembly

end TwelveBit
