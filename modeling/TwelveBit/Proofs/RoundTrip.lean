import TwelveBit.Proofs.Listing
import TwelveBit.Proofs.Reading

/-!
# Disassembling and assembling again

A piece of memory is written as a source with two lines for each word: an origin with the address,
and the text of the word. `assemble_disassembly` proves that assembling such a source gives back
exactly what was written, for any number of words at any addresses in any order.

Each line is read as what it was written for (`parse?_disassemble`), and the item of a word is
encoded as the word wherever it stands (`Item.encode_ofWord`). Both passes then take the lines two
by two: the origin moves the builder to the address, and the text fills one word there.
-/

namespace TwelveBit

open Assembly

/-- The fields of a memory reference, with the address that it names for its target, give the
reference back. -/
theorem Instruction.reference_direct (i : Instruction) (location : Word) :
    reference i.opcode i.indirect i.pageZero (i.direct location) = i := by
  have hoffset : (i.direct location).toNat % 128 = i.toNat % 128 := by
    rw [toNat_direct, directAddress]
    split <;> omega
  calc reference i.opcode i.indirect i.pageZero (i.direct location)
      = reference i.opcode i.indirect i.pageZero i := by
        apply BitVec.eq_of_toNat_eq
        rw [toNat_reference, toNat_reference, hoffset]
    _ = i := reference_fields i

namespace Assembly

/-! ## The item of a word -/

/-- The assembler chooses the page that the disassembler has written the address of. -/
theorem encodeReference_direct (i : Instruction) (location : Word) :
    encodeReference i.opcode i.indirect i.pageZero (i.direct location).toNat location.toNat =
      .ok i := by
  have hfields := i.reference_direct location
  rw [← Word.ofNat_toNat (i.direct location)] at hfields
  cases hzero : i.pageZero with
  | true =>
      rw [hzero] at hfields
      rw [encodeReference_pageZero, hfields]
  | false =>
      have hplain : ¬ i.toNat / 128 % 2 = 1 := by
        rw [← Instruction.pageZero_iff, hzero]
        exact Bool.false_ne_true
      have hown : (i.direct location).toNat % 4096 / 128 = location.toNat % 4096 / 128 := by
        rw [Instruction.toNat_direct, Instruction.directAddress, if_neg hplain]
        omega
      rw [hzero] at hfields
      rw [encodeReference_plain, if_pos hown, hfields]

/-- **The item of a word is encoded as the word**, at the place where the word stands. No symbol
plays a part. -/
theorem Item.encode_ofWord (i : Instruction) (location : Word) (symbols : SymbolTable) :
    (Item.ofWord i location).encode location.toNat symbols .octal = .ok i := by
  rw [ofWord]
  split
  · show ((Expression.numeral (i.direct location)).evaluate location.toNat symbols .octal).bind
      (fun address => encodeReference i.opcode i.indirect i.pageZero address.toNat
        location.toNat) = .ok i
    rw [Expression.evaluate_numeral]
    exact encodeReference_direct i location
  · split
    · split
      · rfl
      · rfl
    · show encodeConstant (.numeral i) location.toNat symbols .octal = .ok i
      rw [encodeConstant, Expression.evaluate_numeral]

/-! ## Lines -/

/-- Code of words and stars without a blank at an end: a line that is nothing but code. -/
structure IsPlain (t : Text) : Prop where
  ne_nil : t ≠ []
  trim_eq : t.trim = t
  chars : ∀ c ∈ t, c = ' ' ∨ c = '*' ∨ c.isAlphanum = true

namespace IsPlain

variable {t : Text}

/-- A character of another kind does not occur. -/
theorem ne_of_mem (h : IsPlain t) {d : Char}
    (hd : d ≠ ' ' ∧ d ≠ '*' ∧ d.isAlphanum = false) : ∀ c ∈ t, c ≠ d := by
  rintro c hc rfl
  rcases h.chars c hc with hspace | hstar | halnum
  · exact hd.1 hspace
  · exact hd.2.1 hstar
  · rw [hd.2.2] at halnum
    cases halnum

theorem code_eq (h : IsPlain t) : code t = t := by
  have hslash : t.takeWhile (· != '/') = t :=
    List.takeWhile_eq_self_iff.mpr fun c hc =>
      bne_iff_ne.mpr (h.ne_of_mem (by decide) c hc)
  rw [code, hslash, h.trim_eq]

/-- A plain line has no label. -/
theorem parse_eq (h : IsPlain t) {s : Statement} (hs : Statement.parse? t = some s) :
    Line.parse t = .ok { label := none, statement := s } := by
  have hcomma : ',' ∉ t := fun hmem => h.ne_of_mem (by decide) ',' hmem rfl
  apply Line.parse_eq_ok_iff.mpr
  rw [Line.splitLabel_of_not_mem hcomma, h.trim_eq]
  exact ⟨rfl, hs⟩

theorem not_mem (h : IsPlain t) : '\n' ∉ t ∧ '\r' ∉ t :=
  ⟨fun hc => h.ne_of_mem (by decide) _ hc rfl, fun hc => h.ne_of_mem (by decide) _ hc rfl⟩

end IsPlain

/-- Words of letters, digits and stars with spaces between them are a plain line. -/
theorem isPlain_unwords {ws : List Text} (hne : ws ≠ [])
    (h : ∀ w ∈ ws, w ≠ [] ∧ ∀ c ∈ w, c = '*' ∨ c.isAlphanum = true) :
    IsPlain (Text.unwords ws) := by
  have hwords : ∀ w ∈ ws, Text.IsWord w := by
    intro w hw
    refine ⟨(h w hw).1, fun c hc => ?_⟩
    rcases (h w hw).2 c hc with rfl | halnum
    · decide
    · exact isBlank_of_isAlphanum halnum
  refine ⟨?_, Text.trim_unwords hwords, fun c hc => ?_⟩
  · obtain ⟨front, c, heq, -⟩ := Text.exists_concat_unwords hne hwords
    rw [heq]
    exact List.append_ne_nil_of_right_ne_nil front (List.cons_ne_nil c [])
  · rcases Text.mem_unwords hc with hspace | ⟨w, hw, hcw⟩
    · exact Or.inl hspace
    · exact Or.inr ((h w hw).2 c hcw)

/-- The text of a word is a plain line. -/
theorem isPlain_disassemble (i : Instruction) (location : Word) :
    IsPlain (disassemble i location) := by
  rw [i.disassemble_eq_unwords]
  refine isPlain_unwords (i.pieces_ne_nil location) fun w hw => ?_
  obtain ⟨hne, halnum⟩ := i.isAlphanum_pieces location w hw
  exact ⟨hne, fun c hc => Or.inr (List.all_eq_true.mp halnum c hc)⟩

/-- A star and an octal numeral are a plain line. -/
theorem isPlain_origin (width n : Nat) : IsPlain ('*' :: Numeral.octal width n) := by
  rw [← Text.unwords_singleton ('*' :: _)]
  refine isPlain_unwords (List.cons_ne_nil _ []) fun w hw => ?_
  rw [List.mem_singleton.mp hw]
  refine ⟨List.cons_ne_nil _ _, List.forall_mem_cons.mpr ⟨Or.inl rfl, fun c hc => Or.inr ?_⟩⟩
  exact isAlphanum_of_isDigit (Numeral.isDigit_of_mem_octal hc)

/-- A source of plain lines has no other lines, and all of them count. -/
theorem SourceLine.texts_of_isPlain {source : Text} (h : ∀ t ∈ source.lines, IsPlain t) :
    (ofSource source).map text = source.lines := by
  rw [texts_ofSource, List.filter_eq_self]
  intro t ht
  rw [(h t ht).code_eq, Bool.not_eq_true', List.isEmpty_eq_false_iff]
  exact (h t ht).ne_nil

/-! ## Two lines for a word -/

/-- The lines that put a word at an address: an origin with at least so many digits, and the text of
the word there. -/
def placedLines (width : Nat) (placed : Word × Word) : List Text :=
  ['*' :: Numeral.octal width placed.1.toNat, disassemble placed.2 placed.1]

/-- The source that puts words at addresses, in order. -/
def placedSource (width : Nat) (words : List (Word × Word)) : Text :=
  Text.unlines (words.flatMap (placedLines width))

example : placedSource 0 [(0o200, 0o1177), (0o7, 0o7602)] =
    "*200\nTAD 0377\n*7\nCLA HLT\n".toList := by decide +kernel

namespace Pass

variable {l : SourceLine} {address word : Word} {width : Nat} {a : Assembler}

theorem parse_of_origin (hl : l.text = '*' :: Numeral.octal width address.toNat) :
    l.parse = .ok { label := none, statement := .origin (Numeral.octal width address.toNat) } := by
  rw [SourceLine.parse, hl, (isPlain_origin width address.toNat).code_eq]
  apply (isPlain_origin width address.toNat).parse_eq
  exact Statement.parse?_origin (Numeral.octal_ne_nil _ _)
    fun c hc => Numeral.isDigit_of_mem_octal hc

theorem parse_of_disassemble (hl : l.text = disassemble word address) :
    l.parse = .ok { label := none, statement := .emit (.ofWord word address) } := by
  rw [SourceLine.parse, hl, (isPlain_disassemble word address).code_eq]
  exact (isPlain_disassemble word address).parse_eq (Statement.parse?_disassemble word address)

/-- The first pass over a line without a label. -/
theorem layOut_of_no_label {s : Statement} {b : Builder}
    (hline : l.parse = .ok { label := none, statement := s }) (hb : Builder.makeRoom s a.builder = .ok () b) :
    layOut l a = .ok (.ofStatement s) { a with builder := b } := by
  have hlabel : Builder.label none l.number a.builder = .ok none a.builder := rfl
  rw [layOut_of_parse hline, hlabel]
  dsimp only
  rw [hb]
  rfl

/-- In octal, an origin moves a builder to the address that it was written for. -/
theorem place_origin {b : Builder} (hradix : b.radix = .octal) (width : Nat) (address : Word) :
    Builder.place (.origin (Numeral.octal width address.toNat)) b =
      .ok () { b with counter := address.toNat } := by
  have hliteral : b.radix.literal (Numeral.octal width address.toNat) = .ok address := by
    rw [hradix]
    exact Radix.literal_octal width address
  rw [Builder.place_origin_eq, hliteral]
  dsimp only
  rw [Builder.moveTo, Word.ofNat_toNat]

theorem layOut_origin (hl : l.text = '*' :: Numeral.octal width address.toNat)
    (hradix : a.builder.radix = .octal) :
    layOut l a =
      .ok .nothing { a with builder := { a.builder with counter := address.toNat } } :=
  layOut_of_no_label (parse_of_origin hl) (place_origin hradix width address)

theorem fill_origin (hl : l.text = '*' :: Numeral.octal width address.toNat)
    (hradix : a.builder.radix = .octal) :
    fill l a =
      .ok .nothing { a with builder := { a.builder with counter := address.toNat } } := by
  have hfill : Builder.fill (.origin (Numeral.octal width address.toNat)) a.builder =
      .ok none { a.builder with counter := address.toNat } := by
    rw [Builder.fill_eq_of_not_emits rfl, place_origin hradix]
    rfl
  rw [fill_of_parse (parse_of_origin hl), hfill]
  rfl

/-- The first pass makes room for a word. -/
theorem layOut_disassemble (hl : l.text = disassemble word address)
    (hcounter : a.builder.counter < 4096) :
    ∃ b, layOut l a = .ok .nothing { a with builder := b } ∧ b.radix = a.builder.radix := by
  have hroom := Builder.makeRoom_emit_of_lt (.ofWord word address) hcounter
  exact ⟨_, layOut_of_no_label (parse_of_disassemble hl) hroom, rfl⟩

/-- The second pass emits the word that the text was written for. -/
theorem fill_disassemble (hl : l.text = disassemble word address)
    (hcounter : a.builder.counter = address.toNat) (hradix : a.builder.radix = .octal) :
    fill l a = .ok (.entry { address, word, line := l })
      { a with
        builder := { a.builder with
          image := a.builder.image.set address word
          counter := address.toNat + 1 } } := by
  have hfill : Builder.fill (.emit (.ofWord word address)) a.builder = .ok (some (address, word))
      { a.builder with
        image := a.builder.image.set address word
        counter := address.toNat + 1 } := by
    refine Builder.fill_emit_eq_ok_iff.mpr ⟨hcounter ▸ address.isLt, word, ?_, ?_, ?_⟩
    · rw [hcounter, hradix]
      exact Item.encode_ofWord word address _
    · rw [hcounter, Word.ofNat_toNat]
    · rw [hcounter, Word.ofNat_toNat]
  rw [fill_of_parse (parse_of_disassemble hl), hfill]

/-! ### The passes over many words -/

/-- The lines of the words after the first begin with the two lines of the first. -/
private theorem cons_of_texts {lines : List SourceLine} {placed : Word × Word}
    {rest : List (Word × Word)}
    (h : lines.map (·.text) = (placed :: rest).flatMap (placedLines width)) :
    ∃ origin line others, lines = origin :: line :: others ∧
      origin.text = '*' :: Numeral.octal width placed.1.toNat ∧
      line.text = disassemble placed.2 placed.1 ∧
      others.map (·.text) = rest.flatMap (placedLines width) := by
  obtain ⟨origin, lines, rfl, horigin, h⟩ := List.map_eq_cons_iff.mp h
  obtain ⟨line, others, rfl, hline, hothers⟩ := List.map_eq_cons_iff.mp h
  exact ⟨origin, line, others, rfl, horigin, hline, hothers⟩

/-- The first pass has nothing against words at addresses. -/
theorem walk_layOut_placed {words : List (Word × Word)} {lines : List SourceLine}
    (htexts : lines.map (·.text) = words.flatMap (placedLines width))
    (hradix : a.builder.radix = .octal) : ∃ vs a', Walk layOut lines a vs [] a' := by
  -- every origin settles the counter anew, so of the builder only the radix has to be known
  induction words generalizing lines a with
  | nil =>
      obtain rfl := List.map_eq_nil_iff.mp htexts
      exact ⟨[], a, .nil a⟩
  | cons placed rest ih =>
      obtain ⟨origin, line, others, rfl, horigin, hline, hothers⟩ := cons_of_texts htexts
      obtain ⟨b, hb, hb'⟩ := layOut_disassemble hline
        (a := { a with builder := { a.builder with counter := placed.1.toNat } }) placed.1.isLt
      obtain ⟨vs, a', hrest⟩ := ih (a := { a with builder := b }) hothers (hb'.trans hradix)
      exact ⟨_, a', .nothing (layOut_origin horigin hradix) (.nothing hb hrest)⟩

/-- The second pass lists the words at their addresses, and puts them into the image. -/
theorem walk_fill_placed {words : List (Word × Word)} {lines : List SourceLine}
    (htexts : lines.map (·.text) = words.flatMap (placedLines width))
    (hradix : a.builder.radix = .octal) :
    ∃ vs entries a', Walk fill lines a vs entries a' ∧
      entries.map (fun e => (e.address, e.word)) = words ∧
      a'.builder.image = words.foldl (fun m placed => m.set placed.1 placed.2) a.builder.image := by
  induction words generalizing lines a with
  | nil =>
      obtain rfl := List.map_eq_nil_iff.mp htexts
      exact ⟨[], [], a, .nil a, rfl, rfl⟩
  | cons placed rest ih =>
      obtain ⟨address, word⟩ := placed
      obtain ⟨origin, line, others, rfl, horigin, hline, hothers⟩ := cons_of_texts htexts
      have hfill := fill_disassemble hline
        (a := { a with builder := { a.builder with counter := address.toNat } }) rfl hradix
      obtain ⟨vs, entries, a', hrest, hentries, himage⟩ := ih hothers
        (a := { a with
          builder := { a.builder with
            image := a.builder.image.set address word
            counter := address.toNat + 1 } }) hradix
      refine ⟨_, { address, word, line } :: entries, a',
        .nothing (fill_origin horigin hradix) (.entry hfill hrest), ?_, ?_⟩
      · rw [List.map_cons, hentries]
      · rw [himage]
        rfl

end Pass

/-! ## The round trip -/

/-- **Disassembly is undone by assembly.** Write any words at any addresses, each as an origin and
the text of the word there. The source so written can be assembled by every assembler; the listing
is the words with their addresses, in order; and memory holds at each address the last word that was
written for it, and zero where none was. -/
theorem assemble_disassembly (width : Nat) (words : List (Word × Word)) (a : Assembler) :
    ∃ p a', Assembler.assemble (placedSource width words) a = .ok p a' ∧
      p.listing.map (fun e => (e.address, e.word)) = words ∧
      p.words.length = 4096 ∧
      ∀ b : Word, p.words[b.toNat]? = some ((words.reverse.lookup b).getD 0) := by
  have hplain : ∀ t ∈ words.flatMap (placedLines width), IsPlain t := by
    intro t ht
    obtain ⟨placed, -, ht⟩ := List.mem_flatMap.mp ht
    rw [placedLines, List.mem_cons, List.mem_singleton] at ht
    rcases ht with rfl | rfl
    · exact isPlain_origin width placed.1.toNat
    · exact isPlain_disassemble placed.2 placed.1
  have hlines : (placedSource width words).lines = words.flatMap (placedLines width) :=
    Text.lines_unlines fun t ht => (hplain t ht).not_mem
  have htexts : (SourceLine.ofSource (placedSource width words)).map (·.text) =
      words.flatMap (placedLines width) := by
    rw [← hlines]
    exact SourceLine.texts_of_isPlain (hlines ▸ hplain)
  obtain ⟨vs, a₁, hfirst⟩ := Pass.walk_layOut_placed htexts
    (a := a.begin (SourceLine.ofSource (placedSource width words))) rfl
  obtain ⟨vs', listing, a₂, hsecond, hlisting, himage⟩ :=
    Pass.walk_fill_placed htexts (a := a₁.turn) rfl
  refine ⟨_, _, Assembler.assemble_eq_ok_iff.mpr
    ⟨[], a₁, listing, a₂, hfirst.eq_ok, hsecond.eq_ok, rfl, rfl⟩, hlisting, ?_, fun b => ?_⟩
  · exact Vector.length_toList
  · rw [Program.getElem?_words]
    show some (a₂.builder.image.get b) = _
    rw [himage, get_foldl_set]
    show some ((words.reverse.lookup b).getD (Memory.cleared.get b)) = _
    rw [Memory.get_cleared]

end Assembly

end TwelveBit
