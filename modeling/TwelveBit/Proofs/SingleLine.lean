import TwelveBit.Proofs.Failure
import TwelveBit.Proofs.Reuse
import TwelveBit.Proofs.Spacing

/-!
# Assembling a single line

An instruction is assembled as a source of one line, with all that a source is given: lines are cut,
two passes are walked, a word is put into an image and taken out again. What comes out of it is the
word that the statement of the line is encoded to at address 0, by itself (`instruction_encodes`).
-/

namespace TwelveBit.Assembly

/-- A text without line feeds is one line, unless it has no code. -/
theorem SourceLine.ofSource_of_not_mem {text : Text} (h : '\n' ∉ text) :
    ofSource text = if (code text).isEmpty then [] else [{ number := 1, text }] := by
  rw [ofSource, Text.lines, List.splitOn_eq_singleton h, Text.linesOfPieces]
  cases htext : text.isEmpty with
  | true =>
      rw [List.isEmpty_iff.mp htext]
      rfl
  | false =>
      rw [if_neg Bool.false_ne_true]
      show [(text, 1)].filterMap _ = _
      rw [List.filterMap_cons]
      dsimp only
      cases (code text).isEmpty <;> rfl

/-- The symbols of a line that stands by itself: its label, if it has one, at address 0. -/
def Line.symbols (line : Line) : SymbolTable := .ofLabels (line.label.map (·, 0)).toList

namespace Pass

variable {l : SourceLine} {line : Line} {item : Item} {a : Assembler}

/-- The first pass over a line that stands by itself and emits a word. -/
theorem layOut_single (hcode : (code l.text).isEmpty = false) (hline : l.parse = .ok line)
    (hs : line.statement = .emit item) (ha : a.builder = {}) :
    ∃ a', layOut l a = .ok .nothing a' ∧
      ∀ name, a'.builder.symbols.address? name = line.symbols.address? name := by
  have hvisit : Position.visit Position.label? {} l.text =
      some ((line.label.map (·, 0)).toList, { counter := 1 }) := by
    refine Position.visit_of_parse hcode hline (by rw [hs]; nofun) ?_ (by rw [hs]; rfl)
    rw [Position.label?]
    cases line.label <;> rfl
  have hbegin : a.builder.position = {} := by
    rw [ha]
    rfl
  obtain ⟨a', hwell, -, hsymbols⟩ := layOut_of_visit hcode (hbegin ▸ hvisit)
  refine ⟨a', hwell, fun name => ?_⟩
  rw [hsymbols, ha, Line.symbols, SymbolTable.address?_ofLabels]
  exact Option.or_none

/-- The second pass over such a line. -/
theorem fill_single (hline : l.parse = .ok line) (hs : line.statement = .emit item)
    (hcounter : a.builder.counter = 0) (hradix : a.builder.radix = .octal)
    (hsymbols : ∀ name, a.builder.symbols.address? name = line.symbols.address? name) :
    fill l a =
      match item.encode 0 line.symbols .octal with
      | .error e => .error (l.locate e) a
      | .ok word =>
        .ok (.entry { address := 0, word, line := l })
          { a with builder :=
            { a.builder with image := a.builder.image.set 0 word, counter := 1 } } := by
  have hencode : a.builder.encode item = item.encode 0 line.symbols .octal := by
    rw [Builder.encode_of_lt item (by rw [hcounter]; decide), hcounter, hradix,
      Item.encode_congr hsymbols]
  rw [fill_of_parse hline, hs, Builder.fill_emit_eq, hencode]
  cases item.encode 0 line.symbols .octal with
  | error e => rfl
  | ok word =>
      dsimp only
      rw [Builder.emit_of_lt (by rw [hcounter]; decide), hcounter, Word.ofNat_toNat]
      rfl

end Pass

namespace Assembler

variable {text : Text} {a : Assembler} {l : SourceLine} {line : Line} {item : Item}

/-- Where there are no lines, there is no word. -/
theorem outcome_instruction_of_no_lines (h : SourceLine.ofSource text = []) (a : Assembler) :
    (outcome (instruction text a)).1 = .ok 0 := by
  rw [outcome_instruction, assemble_eq, h, Pass.walk_nil]
  dsimp only
  rw [Pass.walk_nil]
  show Except.ok (Program.word _ 0) = _
  rw [Program.word_eq_read _ (by decide), Memory.read]
  exact congrArg Except.ok (Memory.get_cleared 0)

/-- A line that cannot be read is an error of the first pass. -/
theorem outcome_instruction_of_error (h : SourceLine.ofSource text = [l]) {e : Error}
    (hparse : l.parse = .error e) (a : Assembler) :
    (outcome (instruction text a)).1 = .error (l.locate e) := by
  rw [outcome_instruction, assemble_eq, h, Pass.walk_cons, Pass.layOut_of_error hparse]
  rfl

/-- A line that emits a word has it from its item, with its own label as the only symbol. -/
theorem outcome_instruction_of_emit (h : SourceLine.ofSource text = [l])
    (hcode : (code l.text).isEmpty = false) (hline : l.parse = .ok line)
    (hs : line.statement = .emit item) (a : Assembler) :
    (outcome (instruction text a)).1 = (item.encode 0 line.symbols .octal).mapError l.locate := by
  obtain ⟨a₁, hfirst, hsymbols⟩ := Pass.layOut_single hcode hline hs (a := a.begin [l]) rfl
  have hsecond := Pass.fill_single hline hs (a := a₁.turn) rfl rfl hsymbols
  rw [outcome_instruction, assemble_eq, h, Pass.walk_cons, hfirst]
  dsimp only
  rw [Pass.walk_nil]
  dsimp only
  rw [Pass.walk_cons, hsecond]
  cases item.encode 0 line.symbols .octal with
  | error e => rfl
  | ok word =>
      show Except.ok (Program.word _ 0) = _
      rw [Program.word_eq_read _ (by decide), Memory.read]
      exact congrArg Except.ok ((Memory.get_set _ 0 0 word).trans (if_pos rfl))

/-- **A line by itself is assembled as it is encoded.** Take any text without line feeds and any
assembler, whatever it has assembled before. If the text is blank or only a comment, the word is 0.
If its code cannot be read, this is the error. If it emits a word, the answer is the word that its
statement is encoded to at address 0 in octal, or the error of that, where the label of the line, if
it has one, stands for 0 and no other name stands for anything. An error has the number 1 and the
text without blanks at its ends. -/
theorem instruction_encodes (h : '\n' ∉ text) (a : Assembler) :
    let answer := (outcome (instruction text a)).1
    let locate (error : Error) : SourceError := { error, line := 1, text := text.trim }
    (IsBare text → answer = .ok 0) ∧
    (∀ e, Line.parse (code text) = .error e →
      e = .unrecognized ∧ answer = .error (locate .unrecognized)) ∧
    ∀ line, Line.parse (code text) = .ok line → line.statement.emits = true →
      answer.map some = (line.statement.encode 0 line.symbols .octal).mapError locate := by
  intro answer locate
  cases hcode : (code text).isEmpty with
  | true =>
      have hlines : SourceLine.ofSource text = [] :=
        (SourceLine.ofSource_of_not_mem h).trans (if_pos hcode)
      have hanswer : answer = .ok 0 := outcome_instruction_of_no_lines hlines a
      -- what is not there can be read, and reserves a word
      rw [List.isEmpty_iff.mp hcode, hanswer]
      have hreserve : Line.parse [] = .ok { label := none, statement := .emit .reserve } := rfl
      rw [hreserve]
      refine ⟨fun _ => rfl, nofun, ?_⟩
      rintro _ ⟨⟩ -
      rfl
  | false =>
      have hlines : SourceLine.ofSource text = [{ number := 1, text }] :=
        (SourceLine.ofSource_of_not_mem h).trans (if_neg (by rw [hcode]; decide))
      refine ⟨fun hbare => ?_, fun e hparse => ?_, fun line hparse hs => ?_⟩
      · rw [code_of_isBare hbare] at hcode
        cases hcode
      · obtain rfl := SourceLine.eq_unrecognized_of_parse (l := { number := 1, text }) hparse
        exact ⟨rfl, outcome_instruction_of_error hlines hparse a⟩
      · obtain ⟨item, hitem⟩ := Statement.eq_emit_of_emits hs
        have hanswer : answer = _ := outcome_instruction_of_emit hlines hcode hparse hitem a
        rw [hanswer, hitem, Statement.encode]
        cases item.encode 0 line.symbols .octal <;> rfl

/-- An assembler at the end of memory, where numerals are decimal, is none the worse for it. A line
can name itself, and no other. -/
theorem instruction_encodes_with_its_own_label :
    let a : Assembler := { builder := { counter := 4096, radix := .decimal } }
    let text : Text := "\tX, TAD I X+13 / once\r".toList
    let other : Text := "\tX, TAD X-Y / twice\r".toList
    let e : SourceError :=
      { error := .undefinedSymbol "Y".toList, line := 1, text := "X, TAD X-Y / twice".toList }
    '\n' ∉ text ∧ (outcome (instruction text a)).1.map some = .ok (some 0o1413) ∧
      '\n' ∉ other ∧ (outcome (instruction other a)).1.map some = .error e := by
  intro a text other e
  have htext : '\n' ∉ text := by decide
  have hother : '\n' ∉ other := by decide
  let first : Line := ⟨some "X".toList, .emit (.reference .tad true false
    ⟨false, .symbol "X".toList, some (.plus, .literal "13".toList)⟩)⟩
  let second : Line := ⟨some "X".toList, .emit (.reference .tad false false
    ⟨false, .symbol "X".toList, some (.minus, .symbol "Y".toList)⟩)⟩
  have hfirst : first.statement.encode 0 first.symbols .octal = .ok (some 0o1413) := rfl
  have hsecond : second.statement.encode 0 second.symbols .octal =
      .error (.undefinedSymbol "Y".toList) := rfl
  refine ⟨htext, ?_, hother, ?_⟩
  · rw [(instruction_encodes htext a).2.2 first rfl rfl, hfirst]
    rfl
  · rw [(instruction_encodes hother a).2.2 second rfl rfl, hsecond]
    rfl

end Assembler

end TwelveBit.Assembly
