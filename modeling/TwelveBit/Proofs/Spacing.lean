import TwelveBit.Proofs.Code
import TwelveBit.Proofs.Correspondence

/-!
# Layout and comments have no meaning

`Respacing` is one edit of the layout of a source: blanks at an end of a line, a comment behind a
line, a carriage return before a line feed, or a line without code put in. `Respaced` is any number
of them, with the function that takes the number of a line before the edits to its number after
them.

What of a source plays a part are its readings: the lines with code, each with its code and its
number (`readings`). An edit leaves them as they are but for the numbers (`Respacing.readings_eq`),
so the lines of the two sources correspond, and `assemble_respaced` follows from
`SourceLine.Pairing.assemble`.
-/

namespace TwelveBit.Assembly

/-! ## Edits of the layout -/

/-- Any number of blanks that do not end a line. -/
structure IsBlanks (t : Text) : Prop where
  blank : ∀ c ∈ t, isBlank c = true
  no_feed : '\n' ∉ t

theorem IsBlanks.nil : IsBlanks [] := ⟨List.forall_mem_nil _, List.not_mem_nil⟩

theorem IsBlanks.singleton {c : Char} (hblank : isBlank c = true) (hfeed : '\n' ≠ c) :
    IsBlanks [c] :=
  ⟨List.forall_mem_singleton.mpr hblank, mt List.mem_singleton.mp hfeed⟩

/-- A line without code: blanks, or a comment with blanks in front of it. -/
inductive IsBare : Text → Prop where
  | blank {blanks : Text} (h : IsBlanks blanks) : IsBare blanks
  | comment {blanks comment : Text} (h : IsBlanks blanks) (hcomment : '\n' ∉ comment) :
      IsBare (blanks ++ '/' :: comment)

/-- What a line may stand behind: nothing, or a line feed. -/
inductive BeforeLine : Text → Prop where
  | nothing : BeforeLine []
  | feed (front : Text) : BeforeLine (front ++ ['\n'])

/-- What may stand behind a line: nothing, or a line feed with or without a carriage return. -/
inductive BehindLine : Text → Prop where
  | nothing : BehindLine []
  | feed (back : Text) : BehindLine ('\n' :: back)
  | returnFeed (back : Text) : BehindLine ('\r' :: '\n' :: back)

/-- The number of a line when another line has been put in behind the first `before` lines. -/
def numberBehind (before number : Nat) : Nat := if number ≤ before then number else number + 1

/-- One edit of the layout of a source, with what it does to the numbers of the lines. -/
inductive Respacing : Text → Text → (Nat → Nat) → Prop where
  /-- Blanks at the beginning of a line. -/
  | indent {front blanks : Text} (back : Text) (hfront : BeforeLine front)
      (hblanks : IsBlanks blanks) : Respacing (front ++ back) (front ++ (blanks ++ back)) id
  /-- Blanks at the end of a line. -/
  | pad {blanks back : Text} (front : Text) (hback : BehindLine back) (hblanks : IsBlanks blanks) :
      Respacing (front ++ back) (front ++ blanks ++ back) id
  /-- A comment at the end of a line. -/
  | comment {comment back : Text} (front : Text) (hback : BehindLine back)
      (hcomment : '\n' ∉ comment) : Respacing (front ++ back) (front ++ '/' :: comment ++ back) id
  /-- A carriage return before a line feed. -/
  | carriage (front back : Text) :
      Respacing (front ++ '\n' :: back) (front ++ '\r' :: '\n' :: back) id
  /-- A line without code before another line. -/
  | insert {front line : Text} (back : Text) (hfront : BeforeLine front) (hline : IsBare line) :
      Respacing (front ++ back) (front ++ (line ++ '\n' :: back)) (numberBehind (front.count '\n'))
  /-- A line without code behind the last line, which no line feed has ended. -/
  | append {line : Text} (front : Text) (hline : IsBare line) :
      Respacing front (front ++ '\n' :: line) id

/-- Any number of edits of the layout of a source, one after another. -/
inductive Respaced : Text → Text → (Nat → Nat) → Prop where
  | refl (source : Text) : Respaced source source id
  | step {source between edited : Text} {f g : Nat → Nat} (first : Respaced source between f)
      (last : Respacing between edited g) : Respaced source edited (g ∘ f)

/-! ## Codes -/

/-- The codes of the lines of a source, empty ones included. -/
def codes (source : Text) : List Text := (source.splitOn '\n').map code

theorem codes_of_not_mem {line : Text} (h : '\n' ∉ line) : codes line = [code line] := by
  rw [codes, List.splitOn_eq_singleton h]
  rfl

theorem codes_append_feed (front back : Text) :
    codes (front ++ '\n' :: back) = codes front ++ codes back := by
  rw [codes, List.splitOn_append_cons_self, List.map_append]
  rfl

theorem code_of_isBare {line : Text} (h : IsBare line) : code line = [] := by
  cases h with
  | blank h => exact code_of_blanks h.blank
  | comment h hcomment => rw [code_append_comment, code_of_blanks h.blank]

theorem IsBare.no_feed {line : Text} (h : IsBare line) : '\n' ∉ line := by
  cases h with
  | blank h => exact h.no_feed
  | comment h hcomment =>
      exact List.not_mem_append h.no_feed (List.not_mem_cons_of_ne_of_not_mem (by decide) hcomment)

/-- A source has one line more than line feeds. -/
theorem length_codes (source : Text) : (codes source).length = source.count '\n' + 1 := by
  rw [codes, List.length_map]
  induction source with
  | nil => rfl
  | cons c rest ih =>
      rw [List.splitOn_cons_eq_if_modifyHead, List.count_cons]
      split
      · rw [List.length_cons, ih]
      · rw [List.length_modifyHead, ih]

/-- The lines in front of a line have their codes for themselves. -/
theorem BeforeLine.exists_codes {front : Text} (h : BeforeLine front) :
    ∃ before, before.length = front.count '\n' ∧ ∀ back, codes (front ++ back) =
      before ++ codes back := by
  cases h with
  | nothing => exact ⟨[], rfl, fun back => rfl⟩
  | feed front =>
      refine ⟨codes front, ?_, ?_⟩
      · rw [length_codes, List.count_append]
        rfl
      · intro back
        rw [List.append_assoc, List.singleton_append, codes_append_feed]

/-- Blanks in front of a line are not seen. -/
theorem codes_blank_append {blanks : Text} (h : IsBlanks blanks) (back : Text) :
    codes (blanks ++ back) = codes back := by
  -- the first line by itself: it is what stands before the first line feed
  have hline {line : Text} (hfeed : '\n' ∉ line) : codes (blanks ++ line) = codes line := by
    rw [codes_of_not_mem (List.not_mem_append h.no_feed hfeed), codes_of_not_mem hfeed,
      code_blank_append h.blank]
  by_cases hfeed : '\n' ∈ back
  · obtain ⟨line, rest, rfl, hnone⟩ := List.eq_append_cons_of_mem hfeed
    rw [← List.append_assoc, codes_append_feed, codes_append_feed, hline hnone]
  · exact hline hfeed

/-- What is not seen behind a line: it changes no code, whatever the line is. -/
structure IsSilent (t : Text) : Prop where
  no_feed : '\n' ∉ t
  code_append (line : Text) : code (line ++ t) = code line

theorem IsBlanks.isSilent {blanks : Text} (h : IsBlanks blanks) : IsSilent blanks :=
  ⟨h.no_feed, code_append_blank h.blank⟩

theorem isBlanks_return : IsBlanks ['\r'] := .singleton rfl (by decide)

theorem isSilent_comment {comment : Text} (h : '\n' ∉ comment) : IsSilent ('/' :: comment) :=
  ⟨List.not_mem_cons_of_ne_of_not_mem (by decide) h, fun line => code_append_comment line comment⟩

/-- What is not seen behind a line is not seen at the end of a source. -/
theorem codes_append_silent {extra : Text} (h : IsSilent extra) (front : Text) :
    codes (front ++ extra) = codes front := by
  -- the last line by itself: it is what stands behind the last line feed
  have hline {line : Text} (hfeed : '\n' ∉ line) : codes (line ++ extra) = codes line := by
    rw [codes_of_not_mem (List.not_mem_append hfeed h.no_feed), codes_of_not_mem hfeed,
      h.code_append]
  by_cases hfeed : '\n' ∈ front
  · obtain ⟨line, before, hreverse, hnone⟩ :=
      List.eq_append_cons_of_mem (List.mem_reverse.mpr hfeed)
    have hfront : front = before.reverse ++ '\n' :: line.reverse := by
      rw [← List.reverse_reverse front, hreverse, List.reverse_append, List.reverse_cons,
        List.append_assoc, List.singleton_append]
    rw [hfront, List.append_assoc, List.cons_append, codes_append_feed, codes_append_feed,
      hline (by rwa [List.mem_reverse])]
  · exact hline hfeed

/-- What is not seen behind a line is not seen wherever a line ends. -/
theorem codes_silent {extra back : Text} (h : IsSilent extra) (hback : BehindLine back)
    (front : Text) : codes (front ++ extra ++ back) = codes (front ++ back) := by
  cases hback with
  | nothing => rw [List.append_nil, List.append_nil, codes_append_silent h]
  | feed back => rw [codes_append_feed, codes_append_feed, codes_append_silent h]
  | returnFeed back =>
      have hreturn (front : Text) :
          codes (front ++ '\r' :: '\n' :: back) = codes front ++ codes back := by
        rw [← List.singleton_append, ← List.append_assoc, codes_append_feed,
          codes_append_silent isBlanks_return.isSilent]
      rw [hreturn, hreturn, codes_append_silent h]

/-! ## Readings -/

/-- The code of a line and its number. -/
def SourceLine.reading (l : SourceLine) : Text × Nat := (code l.text, l.number)

/-- The lines of a source that have code, each with its code and its number. -/
def readings (source : Text) : List (Text × Nat) :=
  (SourceLine.ofSource source).map SourceLine.reading

/-- The codes that are not empty, numbered from some number on. -/
def numbered (start : Nat) (codes : List Text) : List (Text × Nat) :=
  (codes.zipIdx start).filter fun reading => !reading.1.isEmpty

theorem numbered_append (start : Nat) (before behind : List Text) :
    numbered start (before ++ behind) =
      numbered start before ++ numbered (start + before.length) behind := by
  rw [numbered, List.zipIdx_append, List.filter_append]
  rfl

/-- A line without code is not listed, but it counts. -/
theorem numbered_cons (start : Nat) (c : Text) (behind : List Text) :
    numbered start (c :: behind) =
      if c.isEmpty then numbered (start + 1) behind
      else (c, start) :: numbered (start + 1) behind := by
  rw [numbered, List.zipIdx_cons, List.filter_cons]
  cases c.isEmpty <;> rfl

theorem numbered_succ (start : Nat) (codes : List Text) :
    numbered (start + 1) codes = (numbered start codes).map (Prod.map id (· + 1)) := by
  unfold numbered
  rw [List.zipIdx_succ, List.filter_map]
  rfl

theorem mem_numbered {start : Nat} {codes : List Text} {reading : Text × Nat}
    (h : reading ∈ numbered start codes) :
    start ≤ reading.2 ∧ reading.2 < start + codes.length := by
  have hmem := (List.mem_filter.mp h).1
  exact ⟨List.le_snd_of_mem_zipIdx hmem, List.snd_lt_add_of_mem_zipIdx hmem⟩

/-- Cutting the ends off lines changes no code. -/
theorem numbered_linesOfPieces (start : Nat) (pieces : List Text) :
    numbered start ((Text.linesOfPieces pieces).map code) = numbered start (pieces.map code) := by
  induction pieces generalizing start with
  | nil => rfl
  | cons piece rest ih =>
      cases rest with
      | nil =>
          rw [Text.linesOfPieces]
          split
          · next hempty =>
              -- the last piece is no line if nothing stands in it, and then it has no code
              rw [List.isEmpty_iff.mp hempty]
              rfl
          · rfl
      | cons next rest =>
          rw [Text.linesOfPieces, List.map_cons, code_dropReturn, List.map_cons, numbered_cons,
            numbered_cons, ih]

/-- The readings of a source are its codes, numbered from one on. -/
theorem readings_eq_numbered (source : Text) : readings source = numbered 1 (codes source) := by
  rw [codes, ← numbered_linesOfPieces, readings, SourceLine.ofSource, Text.lines]
  generalize Text.linesOfPieces (source.splitOn '\n') = lines
  generalize 1 = start
  induction lines generalizing start with
  | nil => rfl
  | cons line rest ih =>
      rw [List.zipIdx_cons, List.filterMap_cons, List.map_cons, numbered_cons, ← ih]
      dsimp only
      cases (code line).isEmpty <;> rfl

/-! ## What an edit does to the readings -/

/-- A line that is put in moves the numbers of the lines behind it. -/
theorem numbered_insert (before behind : List Text) :
    numbered 1 (before ++ [] :: behind) =
      (numbered 1 (before ++ behind)).map (Prod.map id (numberBehind before.length)) := by
  have hbefore : (numbered 1 before).map (Prod.map id (numberBehind before.length)) =
      (numbered 1 before).map id := by
    apply List.map_congr_left
    intro reading hreading
    have hlt := (mem_numbered hreading).2
    exact Prod.ext rfl (if_pos (by omega))
  have hbehind : (numbered (1 + before.length) behind).map
      (Prod.map id (numberBehind before.length)) = numbered (1 + before.length + 1) behind := by
    rw [numbered_succ]
    apply List.map_congr_left
    intro reading hreading
    have hle := (mem_numbered hreading).1
    exact Prod.ext rfl (if_neg (by omega))
  rw [List.map_id] at hbefore
  rw [numbered_append, numbered_append, List.map_append, hbefore, hbehind, numbered_cons]
  rfl

/-- **An edit of the layout changes the numbers of the readings only.** -/
theorem Respacing.readings_eq {source edited : Text} {number : Nat → Nat}
    (h : Respacing source edited number) :
    readings edited = (readings source).map (Prod.map id number) := by
  rw [readings_eq_numbered, readings_eq_numbered]
  cases h with
  | indent back hfront hblanks =>
      obtain ⟨before, -, hcodes⟩ := hfront.exists_codes
      rw [hcodes, hcodes, codes_blank_append hblanks, Prod.map_id, List.map_id]
  | pad front hback hblanks =>
      rw [codes_silent hblanks.isSilent hback, Prod.map_id, List.map_id]
  | comment front hback hcomment =>
      rw [codes_silent (isSilent_comment hcomment) hback, Prod.map_id, List.map_id]
  | carriage front back =>
      have hcodes := codes_silent isBlanks_return.isSilent (.feed back) front
      rw [List.append_assoc, List.singleton_append] at hcodes
      rw [hcodes, Prod.map_id, List.map_id]
  | insert back hfront hline =>
      obtain ⟨before, hlength, hcodes⟩ := hfront.exists_codes
      rw [hcodes, hcodes, codes_append_feed, codes_of_not_mem hline.no_feed, code_of_isBare hline,
        List.singleton_append, numbered_insert, hlength]
  | append front hline =>
      rw [codes_append_feed, codes_of_not_mem hline.no_feed, code_of_isBare hline, numbered_append,
        Prod.map_id, List.map_id]
      exact List.append_nil _

theorem Respaced.readings_eq {source edited : Text} {number : Nat → Nat}
    (h : Respaced source edited number) :
    readings edited = (readings source).map (Prod.map id number) := by
  induction h with
  | refl => rw [Prod.map_id, List.map_id]
  | step _ last ih =>
      rw [last.readings_eq, ih, List.map_map]
      rfl

/-! ## Assembling an edited source -/

/-- Lines that have the same code. -/
def SourceLine.Pairing.reading (number : Nat → Nat) : SourceLine.Pairing where
  number := number
  Pairs l l' := l.reading.map id number = l'.reading
  parse_eq {l l'} h := by
    have hcode : code l'.text = code l.text := congrArg Prod.fst h.symm
    rw [SourceLine.parse, SourceLine.parse, hcode]
  number_eq h := congrArg Prod.snd h.symm

theorem Respaced.pairs {source edited : Text} {number : Nat → Nat}
    (h : Respaced source edited number) :
    List.Forall₂ (SourceLine.Pairing.reading number).Pairs (SourceLine.ofSource source)
      (SourceLine.ofSource edited) := by
  have hreadings := h.readings_eq.symm
  unfold readings at hreadings
  rw [List.map_map, ← List.forall₂_eq_eq_eq, List.forall₂_map_left_iff,
    List.forall₂_map_right_iff] at hreadings
  exact hreadings

namespace SourceLine.Pairing.Programs

variable {P : SourceLine.Pairing} {p p' : Program} (h : P.Programs p p')

include h

theorem words_eq : p'.words = p.words := by
  rw [Program.words, Program.words, h.image]

theorem symbolList_eq : p'.symbolList = p.symbolList := by
  rw [Program.symbolList, Program.symbolList, h.symbols, SymbolTable.renumber, List.map_map]
  rfl

theorem listing_eq : p'.listing.map (fun e => (e.address, e.word, e.line.number)) =
    p.listing.map (fun e => (e.address, e.word, P.number e.line.number)) := by
  rw [← List.forall₂_eq_eq_eq, List.forall₂_map_left_iff, List.forall₂_map_right_iff]
  apply h.listing.flip.imp
  intro e' e he
  rw [he.address, he.word, P.number_eq he.line]

end SourceLine.Pairing.Programs

/-- **Layout and comments have no meaning.** Take a source and any number of edits of its layout.
The edited source has the same lines with code under their new numbers. If the source assembles, the
edited source assembles as well, by any assembler, to the same words, with the same symbols listed,
each of them defined on the line with the new number, and with the same addresses and words listed,
under the new numbers of their lines. If it fails, the edited source fails with the same error on
the line with the new number. -/
theorem Assembler.assemble_respaced {source edited : Text} {number : Nat → Nat}
    (h : Respaced source edited number) (a b : Assembler) :
    (SourceLine.ofSource edited).map (fun l => (code l.text, l.number)) =
        (SourceLine.ofSource source).map (fun l => (code l.text, number l.number)) ∧
      (∀ p a', assemble source a = .ok p a' → ∃ p' b', assemble edited b = .ok p' b' ∧
        p'.words = p.words ∧ p'.symbolList = p.symbolList ∧
        (∀ name, p'.symbols.get? name =
          (p.symbols.get? name).map fun s => { s with line := number s.line }) ∧
        p'.listing.map (fun e => (e.address, e.word, e.line.number)) =
          p.listing.map (fun e => (e.address, e.word, number e.line.number))) ∧
      ∀ e a', assemble source a = .error e a' → ∃ e' b', assemble edited b = .error e' b' ∧
        e'.error = e.error ∧ e'.line = number e.line := by
  have hreadings := h.readings_eq
  unfold readings at hreadings
  rw [List.map_map] at hreadings
  have hresults := SourceLine.Pairing.assemble h.pairs a b
  refine ⟨hreadings, ?_, ?_⟩
  · intro p a' hp
    rw [hp] at hresults
    generalize assemble edited b = result at hresults ⊢
    cases hresults with
    | @ok _ p' _ b' hprograms _ =>
        refine ⟨p', b', rfl, hprograms.words_eq, hprograms.symbolList_eq, ?_, hprograms.listing_eq⟩
        intro name
        rw [hprograms.symbols, SymbolTable.get?_renumber]
        rfl
  · intro e a' he
    rw [he] at hresults
    generalize assemble edited b = result at hresults ⊢
    generalize hfailed : EStateM.Result.error e a' = failed at hresults
    cases hresults with
    | ok hprograms _ => cases hfailed
    | @error l l' e hline a₁ b₁ =>
        cases hfailed
        exact ⟨_, b₁, rfl, rfl, (SourceLine.Pairing.reading number).number_eq hline⟩

/-- A comment line at the top, a blank in front of the line that has been the first, a comment with
a slash in it behind this line, and a carriage return at the end. -/
theorem Assembler.assemble_respaced_of_edits :
    ∃ (source edited : Text) (number : Nat → Nat) (p p' : Program) (a' b' : Assembler),
      Respaced source edited number ∧ edited = "/ x\n\tTAD B/ c/d\nB, 7\r\n".toList ∧
      assemble source {} = .ok p a' ∧ assemble edited {} = .ok p' b' ∧ p'.words = p.words ∧
      p'.listing.map (fun e => (e.address, e.word, e.line.number)) =
        [(0, 0o1001, 2), (1, 7, 3)] ∧
      p'.symbols.get? "B" = some ⟨1, 3⟩ := by
  let source : Text := "TAD B\nB, 7\n".toList
  have hbare : IsBare ([] ++ '/' :: " x".toList) := .comment .nil (by decide)
  have hblanks : IsBlanks ['\t'] := .singleton rfl (by decide)
  have hnote : '\n' ∉ " c/d".toList := by decide
  -- each edit is made in the text that the one before it has left
  have hinserted := (Respaced.refl ([] ++ source)).step (.insert source .nothing hbare)
  have hfirst : [] ++ (([] ++ '/' :: " x".toList) ++ '\n' :: source) =
      ("/ x".toList ++ ['\n']) ++ source := by decide +kernel
  rw [hfirst] at hinserted
  have hindented := hinserted.step (.indent source (.feed _) hblanks)
  have hsecond : ("/ x".toList ++ ['\n']) ++ (['\t'] ++ source) =
      "/ x\n\tTAD B".toList ++ '\n' :: "B, 7\n".toList := by decide +kernel
  rw [hsecond] at hindented
  have hcommented := hindented.step (.comment _ (.feed _) hnote)
  have hthird : "/ x\n\tTAD B".toList ++ '/' :: " c/d".toList ++ '\n' :: "B, 7\n".toList =
      "/ x\n\tTAD B/ c/d\nB, 7".toList ++ '\n' :: [] := by decide +kernel
  rw [hthird] at hcommented
  obtain ⟨number, hrespaced, hone, htwo⟩ :
      ∃ number, Respaced source _ number ∧ number 1 = 2 ∧ number 2 = 3 :=
    ⟨_, hcommented.step (.carriage _ _), rfl, rfl⟩
  have hedited : "/ x\n\tTAD B/ c/d\nB, 7".toList ++ '\r' :: '\n' :: [] =
      "/ x\n\tTAD B/ c/d\nB, 7\r\n".toList := by decide +kernel
  have hresult : ((assemble source).run' {}).map (fun p =>
      (p.symbols.get? "B", p.listing.map fun e => (e.address, e.word, e.line.number))) =
        some (some ⟨1, 2⟩, [(0, 0o1001, 1), (1, 7, 2)]) := by decide +kernel
  obtain ⟨p, a', h, hp⟩ := Pass.eq_ok_of_run' hresult
  obtain ⟨hsymbol, hlisting⟩ := Prod.mk.inj hp
  obtain ⟨-, hok, -⟩ := assemble_respaced hrespaced {} {}
  obtain ⟨p', b', h', hwords, -, hsymbols, hlisting'⟩ := hok p a' h
  refine ⟨source, _, number, p, p', a', b', hrespaced, hedited, h, h', hwords, ?_, ?_⟩
  · have hmoved := congrArg (List.map (Prod.map id (Prod.map id number))) hlisting
    rw [List.map_map] at hmoved
    refine (hlisting'.trans hmoved).trans ?_
    rw [List.map_cons, List.map_singleton, Prod.map, Prod.map, Prod.map, Prod.map, hone, htwo]
    rfl
  · rw [hsymbols, hsymbol, Option.map_some, htwo]

end TwelveBit.Assembly
