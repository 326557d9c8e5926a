import TwelveBit.Proofs.Reading
import TwelveBit.Proofs.Spelling

/-!
# Statements that are written alike

Nothing marks the kind of a statement, so some statements are written like another whose kind is
tried before theirs. These are the hidden ones (`Statement.Hidden`): a memory reference whose
operand stands where a flag is looked for and is the name of the flag, and a constant whose name is
a statement on its own. No text is read as a hidden statement (`Statement.not_hidden_of_parse?`),
and every other is read back from what is written for it. `Line.parse_render` says so of whole
lines.
-/

namespace TwelveBit

open Assembly

/-! ## Words that were read -/

namespace Assembly.Item

variable {w : Word}

/-- Micro-operations that were read are written as micro-operations. -/
theorem ofWord_of_operateWord? {names : List Text} (h : Mnemonic.operateWord? names = some w)
    (location : Word) : ofWord w location = .operate w := by
  obtain ⟨group, -, -, hop, -⟩ := Mnemonic.group_of_operateWord? h
  obtain ⟨spelling, hspelling⟩ := Instruction.exists_operateNames? h
  have hiot : Instruction.opcode w ≠ .iot := by
    rw [hop]
    decide
  have hnames : Instruction.names? w = some spelling := by
    rw [Instruction.names?, if_neg hiot]
    exact hspelling
  rw [ofWord, hop, if_neg (by decide), hnames]
  rfl

/-- An input or output instruction that was read is written as one. -/
theorem ofWord_of_inputOutput? {name : Text} (h : Mnemonic.inputOutput? name = some w)
    (location : Word) : ofWord w location = .inputOutput w := by
  have htable : ∀ entry ∈ Mnemonic.inputOutput, Instruction.opcode entry.2 = .iot ∧
      (Mnemonic.inputOutput.name? entry.2).isSome = true := by decide
  obtain ⟨hop, hname⟩ := htable _ (Mnemonic.Table.mem_of_word? h)
  obtain ⟨spelling, hspelling⟩ := Option.isSome_iff_exists.mp hname
  have hnames : Instruction.names? w = some [spelling] := by
    rw [Instruction.names?, if_pos hop, hspelling]
    rfl
  rw [ofWord, hop, if_neg (by decide), hnames]
  rfl

end Assembly.Item

namespace Assembly

/-! ## Hidden statements -/

namespace Statement

/-- The statements that are written like one whose kind is tried before theirs. -/
inductive Hidden : Statement → Prop where
  | indirect {opcode : Opcode} : Hidden (.emit (.reference opcode false false (.ofName "I")))
  | pageZero {opcode : Opcode} {indirect : Bool} :
      Hidden (.emit (.reference opcode indirect false (.ofName "Z")))
  | constant {name : Text} (h : name ∈ hidingNames) : Hidden (.emit (.constant (.ofName name)))

end Statement

/-- A name that was read as an operand is not taken for a flag. -/
theorem Item.isOperand_of_reference? {body name : Text} {opcode : Opcode} {indirect pageZero : Bool}
    (h : reference? body = some (.reference opcode indirect pageZero (.ofName name))) :
    IsOperand indirect pageZero [name] := by
  obtain ⟨mnemonic, opcode, indirect, pageZero, words, operand, -, hwords, hfirst, hoperand, heq⟩ :=
    reference?_eq_some_iff.mp h
  cases heq
  have hword : ∀ w ∈ words, Text.IsWord w := by
    intro w hw
    apply Text.isWord_of_mem_words (t := body)
    rw [hwords]
    exact List.mem_cons_of_mem _ (List.mem_append_right _ (List.mem_append_right _ hw))
  have hname : Text.unwords words = name :=
    Expression.eq_of_parse?_ofName (Text.trim_unwords hword) hoperand
  have hisName : isName name = true := (Expression.wellFormed_of_parse? hoperand).first
  have hsingle : words = [name] :=
    calc
      words = Text.words (Text.unwords words) := (Text.words_unwords hword).symm
      _ = Text.words name := congrArg _ hname
      _ = [name] := Text.words_of_isWord (isToken_of_isName hisName).isWord
  rwa [hsingle] at hfirst

namespace Statement

variable {body : Text} {s : Statement}

/-- **No text is read as a hidden statement.** -/
theorem not_hidden_of_parse? (htrim : body.trim = body) (h : parse? body = some s) :
    ¬ s.Hidden := by
  have hread := parse?_eq_some_iff.mp h
  intro hhidden
  cases hhidden with
  | indirect =>
      obtain ⟨hitem⟩ := hread
      exact (Item.isOperand_of_reference? hitem).indirect rfl rfl rfl
  | pageZero =>
      obtain ⟨hitem⟩ := hread
      exact (Item.isOperand_of_reference? hitem).pageZero rfl rfl
  | @constant name hname =>
      have hnot : ∀ name ∈ hidingNames,
          parse? name ≠ some (.emit (.constant (.ofName name))) := by decide
      cases hread with
      | constant _ _ _ hvalue =>
          rw [Expression.eq_of_parse?_ofName htrim hvalue] at h
          exact hnot name hname h

/-- What is not hidden is read back, if it is no operate instruction and none for a device. -/
theorem parse?_render (h : s.WellFormed) (hoperate : ∀ w, s ≠ .emit (.operate w))
    (hinputOutput : ∀ w, s ≠ .emit (.inputOutput w)) (hhidden : ¬ s.Hidden) :
    parse? s.render = some s := by
  cases s with
  | emit item =>
      cases item with
      | reference opcode indirect pageZero operand =>
          obtain ⟨hop, hoperand⟩ := h
          refine parse?_eq_some_iff.mpr (.reference (Item.reference?_render hop hoperand ?_ ?_))
          · rintro rfl rfl rfl
            exact hhidden .indirect
          · rintro rfl rfl
            exact hhidden .pageZero
      | operate w => exact absurd rfl (hoperate w)
      | inputOutput w => exact absurd rfl (hinputOutput w)
      | constant value =>
          refine parse?_render_constant h fun hmem => hhidden ?_
          have hname := isName_of_mem_hidingNames _ hmem
          rw [(Expression.render_eq_iff h hname).mp rfl]
          exact .constant hmem
      | reserve => rfl
  | origin digits =>
      obtain ⟨hne, hdigits⟩ := Bool.and_eq_true_iff.mp h
      exact parse?_origin (by simpa using hne) (List.all_eq_true.mp hdigits)
  | radix radix =>
      cases radix with
      | octal => rfl
      | decimal => rfl
  | finish => rfl

/-- What was read is read back. -/
theorem parse?_render_of_parse? (htrim : body.trim = body) (h : parse? body = some s) :
    parse? s.render = some s := by
  have hwell := wellFormed_of_parse? h
  have hvisible := not_hidden_of_parse? htrim h
  cases parse?_eq_some_iff.mp h with
  | @operate w _ hword =>
      have hparse := parse?_disassemble w 0
      rw [Item.ofWord_of_operateWord? hword] at hparse
      exact hparse
  | @inputOutput w _ _ hword =>
      have hparse := parse?_disassemble w 0
      rw [Item.ofWord_of_inputOutput? hword] at hparse
      exact hparse
  | reference _ => exact parse?_render hwell nofun nofun hvisible
  | origin _ _ => exact parse?_render hwell nofun nofun hvisible
  | radix _ _ _ => exact parse?_render hwell nofun nofun hvisible
  | finish _ _ _ => exact parse?_render hwell nofun nofun hvisible
  | constant _ _ _ _ => exact parse?_render hwell nofun nofun hvisible
  | reserve _ => exact parse?_render hwell nofun nofun hvisible

/-- A statement is written in words without a comma, with single spaces between them. -/
theorem exists_unwords_render (h : s.WellFormed) :
    ∃ ws, s.render = Text.unwords ws ∧ ∀ w ∈ ws, Text.IsWord w ∧ ',' ∉ w := by
  have hlexeme {w : Text} (hw : IsLexeme w) : Text.IsWord w ∧ ',' ∉ w :=
    ⟨hw.isWord, hw.not_mem (by decide)⟩
  have hsingle {w : Text} (hw : Text.IsWord w ∧ ',' ∉ w) :
      ∃ ws, w = Text.unwords ws ∧ ∀ w ∈ ws, Text.IsWord w ∧ ',' ∉ w :=
    ⟨[w], (Text.unwords_singleton w).symm, List.forall_mem_singleton.mpr hw⟩
  have hword (i : Instruction) : ∃ ws, disassemble i 0 = Text.unwords ws ∧
      ∀ w ∈ ws, Text.IsWord w ∧ ',' ∉ w := by
    refine ⟨i.pieces 0, i.disassemble_eq_unwords 0, fun w hw => hlexeme (isLexeme_of_isToken ?_)⟩
    obtain ⟨hne, hletters⟩ := i.isAlphanum_pieces 0 w hw
    exact ⟨hne, List.all_eq_true.mp hletters⟩
  cases s with
  | emit item =>
      cases item with
      | reference opcode indirect pageZero operand =>
          refine ⟨_, Item.render_reference opcode indirect pageZero operand, fun w hw => ?_⟩
          exact hlexeme (Item.isLexeme_flagged opcode indirect pageZero h.2 w hw)
      | operate w => exact hword w
      | inputOutput w => exact hword w
      | constant value => exact hsingle (hlexeme (Expression.isLexeme_render h))
      | reserve => exact ⟨[], rfl, List.forall_mem_nil _⟩
  | origin digits =>
      have hdigits := hlexeme (isLexeme_of_isToken (isToken_of_isDigits h))
      refine hsingle ⟨⟨List.cons_ne_nil _ _, ?_⟩, List.not_mem_cons_of_ne_of_not_mem ?_ hdigits.2⟩
      · exact List.forall_mem_cons.mpr ⟨by decide, hdigits.1.not_blank⟩
      · decide
  | radix radix =>
      cases radix with
      | octal => exact hsingle (hlexeme (isLexeme_of_isToken (isToken_of_isName rfl)))
      | decimal => exact hsingle (hlexeme (isLexeme_of_isToken (isToken_of_isName rfl)))
  | finish =>
      exact hsingle ⟨⟨List.cons_ne_nil _ _, List.forall_mem_singleton.mpr rfl⟩, by decide⟩

theorem trim_render (h : s.WellFormed) : Text.trim s.render = s.render := by
  obtain ⟨ws, heq, hws⟩ := exists_unwords_render h
  rw [heq]
  exact Text.trim_unwords fun w hw => (hws w hw).1

theorem comma_not_mem_render (h : s.WellFormed) : ',' ∉ s.render := by
  obtain ⟨ws, heq, hws⟩ := exists_unwords_render h
  rw [heq]
  intro hcomma
  rcases Text.mem_unwords hcomma with hspace | ⟨w, hw, hmem⟩
  · cases hspace
  · exact (hws w hw).2 hmem

end Statement

/-! ## Lines -/

namespace Line

variable {l : Line}

/-- What is written for a line is cut where it was put together. -/
theorem splitLabel_render (h : l.WellFormed) :
    splitLabel l.render = (l.label, l.statement.render) := by
  have htrim := Statement.trim_render h.statement
  obtain ⟨label, statement⟩ := l
  cases label with
  | none =>
      have hcomma := Statement.comma_not_mem_render h.statement
      exact (splitLabel_of_not_mem hcomma).trans (congrArg _ htrim)
  | some name =>
      have hrender : render ⟨some name, statement⟩ =
          name ++ ',' :: ([' '] ++ statement.render) := by
        simp [render]
      have hspace : ∀ c ∈ [' '], isBlank c = true := List.forall_mem_singleton.mpr rfl
      rw [hrender, splitLabel_append (h.label name rfl), Text.trim_blank_append hspace]
      exact congrArg _ htrim

theorem parse_render_eq_ok_iff (h : l.WellFormed) :
    parse l.render = .ok l ↔ Statement.parse? l.statement.render = some l.statement := by
  rw [parse_eq_ok_iff, splitLabel_render h]
  exact and_iff_right rfl

/-- **Text and lines correspond.** A line that was read is well formed, and is read back from what
is written for it. Of the well-formed lines without an operate or an input and output instruction
exactly those are read back whose statement is not hidden by another. -/
theorem parse_render :
    (∀ t l, parse t = .ok l → l.WellFormed ∧ parse l.render = .ok l) ∧
    (∀ l : Line, l.WellFormed → (∀ w, l.statement ≠ .emit (.operate w)) →
      (∀ w, l.statement ≠ .emit (.inputOutput w)) →
      (parse l.render = .ok l ↔ ¬ l.statement.Hidden)) := by
  constructor
  · intro t l h
    have hwell := wellFormed_of_parse h
    obtain ⟨-, hstatement⟩ := parse_eq_ok_iff.mp h
    refine ⟨hwell, (parse_render_eq_ok_iff hwell).mpr ?_⟩
    exact Statement.parse?_render_of_parse? (trim_splitLabel t) hstatement
  · intro l hwell hoperate hinputOutput
    rw [parse_render_eq_ok_iff hwell]
    constructor
    · exact Statement.not_hidden_of_parse? (Statement.trim_render hwell.statement)
    · exact Statement.parse?_render hwell.statement hoperate hinputOutput

/-- Behind a flag an `I` is the name of a symbol. -/
example : (parse "TAD I I".toList).toOption =
    some ⟨none, .emit (.reference .tad true false (.ofName "I"))⟩ := by decide

example : (parse "TAD I".toList).toOption = none := by decide

end Line

end Assembly

end TwelveBit
