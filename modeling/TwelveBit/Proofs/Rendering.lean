import TwelveBit.Proofs.Kinds

/-!
# Reading what is written

A well-formed expression is written as one word, which is read as the expression again
(`Expression.parse?_render`). A memory reference is written as its mnemonic, its flags and its
operand, and is read back unless the operand stands where a flag is looked for and is written like
the flag (`Item.reference?_render`). A constant is read back unless it is a name that is a statement
on its own (`Statement.parse?_render_constant`).
-/

namespace TwelveBit.Assembly

/-! ## Characters -/

/-- The characters that expressions are made of. -/
def isOperandChar (c : Char) : Bool := c.isAlphanum || c ∈ ['.', '+', '-']

theorem isOperandChar_of_isAlphanum {c : Char} (h : c.isAlphanum = true) :
    isOperandChar c = true := by
  rw [isOperandChar, h, Bool.true_or]

theorem isBlank_of_isOperandChar {c : Char} (h : isOperandChar c = true) : isBlank c = false := by
  rcases Bool.or_eq_true_iff.mp h with halnum | hmark
  · exact isBlank_of_isAlphanum halnum
  · have hmem : c ∈ ['.', '+', '-'] := of_decide_eq_true hmark
    simp only [List.mem_cons, List.not_mem_nil, or_false] at hmem
    rcases hmem with rfl | rfl | rfl <;> rfl

/-- One or more of the characters that expressions are made of. -/
structure IsLexeme (w : Text) : Prop where
  ne_nil : w ≠ []
  chars : ∀ c ∈ w, isOperandChar c = true

theorem IsLexeme.isWord {w : Text} (h : IsLexeme w) : Text.IsWord w where
  ne_nil := h.ne_nil
  not_blank c hc := isBlank_of_isOperandChar (h.chars c hc)

theorem IsLexeme.not_mem {w : Text} (h : IsLexeme w) {c : Char} (hc : isOperandChar c = false) :
    c ∉ w := by
  intro hmem
  rw [h.chars c hmem] at hc
  cases hc

theorem isLexeme_of_isToken {w : Text} (h : Text.IsToken w) : IsLexeme w where
  ne_nil := h.ne_nil
  chars c hc := isOperandChar_of_isAlphanum (h.alphanum c hc)

theorem Term.isLexeme_render {term : Term} (h : term.WellFormed) : IsLexeme term.render := by
  cases term with
  | here => exact ⟨List.cons_ne_nil _ _, List.forall_mem_singleton.mpr rfl⟩
  | symbol name => exact isLexeme_of_isToken (isToken_of_isName h)
  | literal digits => exact isLexeme_of_isToken (isToken_of_isDigits h)

/-! ## Expressions -/

namespace Expression

variable {e : Expression} {name t : Text}

/-- A well-formed expression is spelled by what is written for it. -/
theorem spells_render (h : e.WellFormed) : e.Spells e.render := by
  obtain ⟨negated, first, second⟩ := e
  have hnil := Text.allBlank_nil
  have hfirst : first.Spells first.render := Term.spells_iff.mpr ⟨h.first, rfl⟩
  cases second with
  | none =>
      have hspells := @Spells.intro negated first none [] [] _ [] [] hnil hnil hfirst hnil .nothing
      simpa [render, sign] using hspells
  | some operand =>
      obtain ⟨operator, term⟩ := operand
      have hterm : term.Spells term.render :=
        Term.spells_iff.mpr ⟨h.second operator term rfl, rfl⟩
      have hspells := @Spells.intro negated first _ [] [] _ [] _ hnil hnil hfirst hnil
        (@SpellsSecond.operand operator term [] _ [] hnil hterm hnil)
      simpa [render, sign] using hspells

/-- **What is written is read back.** -/
theorem parse?_render (h : e.WellFormed) : parse? e.render = some e :=
  parse?_of_spells (spells_render h)

/-- A well-formed expression is written as one word. -/
theorem isLexeme_render (h : e.WellFormed) : IsLexeme e.render := by
  have hfirst := Term.isLexeme_render h.first
  obtain ⟨negated, first, second⟩ := e
  refine ⟨by simp [render, hfirst.ne_nil], ?_⟩
  unfold render
  simp only [List.forall_mem_append]
  refine ⟨⟨?_, hfirst.chars⟩, ?_⟩
  · cases negated with
    | true => exact List.forall_mem_singleton.mpr rfl
    | false => exact List.forall_mem_nil _
  · cases second with
    | none => exact List.forall_mem_nil _
    | some operand =>
        obtain ⟨operator, term⟩ := operand
        have hterm := Term.isLexeme_render (h.second operator term rfl)
        refine List.forall_mem_cons.mpr ⟨?_, hterm.chars⟩
        cases operator <;> rfl

/-! ### Names -/

/-- A name on its own as an expression. -/
def ofName (name : Text) : Expression where
  negated := false
  first := .symbol name
  second := none

theorem wellFormed_ofName (h : isName name = true) : (ofName name).WellFormed where
  first := h
  second := nofun

theorem render_ofName (name : Text) : (ofName name).render = name := List.append_nil name

theorem parse?_name (h : isName name = true) : parse? name = some (ofName name) := by
  have hparse := parse?_render (wellFormed_ofName h)
  rwa [render_ofName] at hparse

/-- Only a name is written like the name. -/
theorem render_eq_iff (h : e.WellFormed) (hname : isName name = true) :
    e.render = name ↔ e = ofName name := by
  constructor
  · intro heq
    have hparse := parse?_render h
    rw [heq, parse?_name hname] at hparse
    exact (Option.some.inj hparse).symm
  · rintro rfl
    exact render_ofName name

/-- Of the texts without blanks at their ends only the name is read as the name. -/
theorem eq_of_parse?_ofName (htrim : t.trim = t) (h : parse? t = some (ofName name)) :
    t = name := by
  have hspells : Spells ⟨false, .symbol name, none⟩ t := spells_of_parse? h
  obtain ⟨hbefore, hbetween, hfirst, hbehind, ⟨⟩⟩ := hspells
  obtain ⟨hname, rfl⟩ := Term.spells_symbol_iff.mp hfirst
  rw [← htrim, Text.trim_blank_append hbefore]
  show Text.trim (_ ++ (_ ++ (_ ++ []))) = _
  rw [List.append_nil, Text.trim_blank_append hbetween, Text.trim_append_blank hbehind]
  exact (isToken_of_isName hname).isWord.trim_eq

end Expression

/-! ## Memory references -/

namespace Item

variable {opcode : Opcode} {indirect pageZero : Bool} {operand : Expression}

/-- A memory reference is written as its words with spaces between them. -/
theorem render_reference (opcode : Opcode) (indirect pageZero : Bool) (operand : Expression) :
    render (.reference opcode indirect pageZero operand) =
      Text.unwords (opcode.mnemonic :: flagged indirect pageZero [operand.render]) := by
  cases indirect <;> cases pageZero <;>
    simp [render, flagged, Text.unwords_cons_cons, Text.unwords_singleton]

theorem isLexeme_flagged (opcode : Opcode) (indirect pageZero : Bool) (h : operand.WellFormed) :
    ∀ w ∈ opcode.mnemonic :: flagged indirect pageZero [operand.render], IsLexeme w := by
  have hletters {w : Text} (hw : isName w = true) : IsLexeme w :=
    isLexeme_of_isToken (isToken_of_isName hw)
  simp only [flagged, List.forall_mem_cons, List.forall_mem_append]
  refine ⟨hletters ?_, ?_, ?_, Expression.isLexeme_render h, List.forall_mem_nil _⟩
  · cases opcode <;> rfl
  · cases indirect with
    | true => exact List.forall_mem_singleton.mpr (hletters rfl)
    | false => exact List.forall_mem_nil _
  · cases pageZero with
    | true => exact List.forall_mem_singleton.mpr (hletters rfl)
    | false => exact List.forall_mem_nil _

/-- **A memory reference is read back**, unless its operand is taken for a flag. -/
theorem reference?_render (hop : opcode.isMemoryReference = true) (hoperand : operand.WellFormed)
    (hindirect : indirect = false → pageZero = false → operand ≠ .ofName "I")
    (hzero : pageZero = false → operand ≠ .ofName "Z") :
    reference? (render (.reference opcode indirect pageZero operand)) =
      some (.reference opcode indirect pageZero operand) := by
  apply reference?_eq_some_iff.mpr
  refine ⟨opcode.mnemonic, opcode, indirect, pageZero, [operand.render], operand,
    Mnemonic.memoryReference?_mnemonic hop, ?_, ⟨fun hi hz heq => ?_, fun hz heq => ?_⟩, ?_, rfl⟩
  · rw [render_reference]
    exact Text.words_unwords fun w hw =>
      (isLexeme_flagged opcode indirect pageZero hoperand w hw).isWord
  · exact hindirect hi hz ((Expression.render_eq_iff hoperand rfl).mp (Option.some.inj heq))
  · exact hzero hz ((Expression.render_eq_iff hoperand rfl).mp (Option.some.inj heq))
  · rw [Text.unwords_singleton]
    exact Expression.parse?_render hoperand

end Item

/-! ## Constants -/

/-- The names that are statements on their own. A constant that is written like one of them is
hidden by it. -/
def hidingNames : List Text :=
  (Mnemonic.groupOne ++ Mnemonic.groupTwo ++ Mnemonic.inputOutput).map (·.1) ++
    ["OCTAL".toList, "DECIMAL".toList]

theorem isName_of_mem_hidingNames : ∀ name ∈ hidingNames, isName name = true := by decide

theorem mem_hidingNames {name : Text} {w : Word}
    (h : (name, w) ∈ Mnemonic.groupOne ++ Mnemonic.groupTwo ++ Mnemonic.inputOutput) :
    name ∈ hidingNames :=
  List.mem_append_left _ (List.mem_map.mpr ⟨_, h, rfl⟩)

namespace Item

variable {w : Text}

/-- A memory reference is more than one word. -/
theorem reference?_of_isWord (hword : Text.IsWord w) : reference? w = none := by
  rw [Option.eq_none_iff_forall_ne_some]
  intro item h
  obtain ⟨name, opcode, indirect, pageZero, operand, value, -, hwords, -, hvalue, -⟩ :=
    reference?_eq_some_iff.mp h
  rw [Text.words_of_isWord hword] at hwords
  have hflagged : flagged indirect pageZero operand = [] := (List.cons.inj hwords).2.symm
  obtain rfl : operand = [] := (List.append_eq_nil_iff.mp (List.append_eq_nil_iff.mp hflagged).2).2
  cases hvalue

/-- A word is an instruction only if it is a mnemonic. -/
theorem instruction?_eq_none (hword : Text.IsWord w) (hw : w ∉ hidingNames) :
    instruction? w = none := by
  have hoperate : operate? w = none := by
    rw [operate?, Text.words_of_isWord hword, Option.map_eq_none_iff,
      Option.eq_none_iff_forall_ne_some]
    intro v h
    obtain ⟨u, hu⟩ := (Mnemonic.mem_of_operateWord? h).2 w List.mem_cons_self
    exact hw (mem_hidingNames hu)
  have hinputOutput : inputOutput? w = none := by
    rw [inputOutput?, Option.map_eq_none_iff, Option.eq_none_iff_forall_ne_some]
    intro v h
    exact hw (mem_hidingNames (List.mem_append_right _ (Mnemonic.Table.mem_of_word? h)))
  rw [instruction?, reference?_of_isWord hword, hoperate, hinputOutput]
  rfl

end Item

namespace Statement

variable {value : Expression}

/-- **A constant is read back**, unless a name hides it. -/
theorem parse?_render_constant (h : value.WellFormed) (hrender : value.render ∉ hidingNames) :
    parse? value.render = some (.emit (.constant value)) := by
  have horigin : origin? value.render = none := by
    rw [origin?]
    intro digits heq
    exact (Expression.isLexeme_render h).not_mem (by decide) (heq ▸ List.mem_cons_self)
  have hdirective : directive? value.render = none := by
    have hname {name : Text} (hname : name ∈ hidingNames) : value.render ≠ name := by
      rintro heq
      exact hrender (heq ▸ hname)
    have hfinish : value.render ≠ "$".toList := by
      intro heq
      exact (Expression.isLexeme_render h).not_mem (c := '$') (by decide) (heq ▸ List.mem_cons_self)
    rw [directive?, if_neg (hname (by decide)), if_neg (hname (by decide)), if_neg hfinish]
  have hinstruction := Item.instruction?_eq_none (Expression.isLexeme_render h).isWord hrender
  exact parse?_eq_some_iff.mpr
    (.constant hinstruction horigin hdirective (Expression.parse?_render h))

end Statement

end TwelveBit.Assembly
