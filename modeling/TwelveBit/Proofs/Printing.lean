import TwelveBit.Proofs.Constants
import TwelveBit.Proofs.Execution

/-!
# Printing a message

A program that prints a message of any length, one character for each word, up to a word that is
zero. It goes along the message with a pointer, and counts the pointer up as it counts anything. The
message may go on to the end of memory, over as many pages as there are.

The program waits for the teleprinter after each character. It never waits long, for the teleprinter
is ready as soon as it has printed.
-/

namespace TwelveBit

/-! ## A row of characters -/

namespace Teleprinter

/-- Print a row of words. -/
def printAll (t : Teleprinter) (row : List Word) : Teleprinter :=
  row.foldl (fun t w => t.print w.toNat) t

theorem output_printAll (t : Teleprinter) {row : List Word} (h : ∀ w ∈ row, w ≠ 0) :
    (t.printAll row).output = t.output ++ row.map fun w => character w.toNat := by
  induction row generalizing t with
  | nil => exact (List.append_nil _).symm
  | cons w rest ih =>
      obtain ⟨hw, hrest⟩ := List.forall_mem_cons.mp h
      have hne : w.toNat ≠ 0 := Nat.ne_of_gt (BitVec.toNat_pos_of_ne_zero hw)
      rw [printAll, List.foldl_cons, ← printAll, ih _ hrest, output_print, if_pos hne,
        List.append_assoc]
      rfl

/-- The teleprinter is ready after a character. -/
theorem ready_printAll (t : Teleprinter) (row : List Word) :
    (t.printAll row).ready = (t.ready || !row.isEmpty) := by
  induction row generalizing t with
  | nil => exact (Bool.or_false _).symm
  | cons w rest ih =>
      rw [printAll, List.foldl_cons, ← printAll, ih, List.isEmpty_cons, Bool.not_false,
        Bool.or_true]
      rfl

end Teleprinter

namespace Printing

open Assembly

/-! ## The program -/

/-- The lines before the message. -/
def opening : List Text :=
  ["*200",
   "START,  CLA CLL",
   "LOOP,   TAD I PTR",
   "        SNA",
   "        HLT",
   "        TLS",
   "        TSF",
   "        JMP .-1",
   "        CLA",
   "        ISZ PTR",
   "        JMP LOOP",
   "PTR,    MSG",
   "DECIMAL"]

/-- The lines of a row of words. The first has a label. -/
def message : List Word → List Text
  | [] => []
  | w :: rest =>
    ("MSG,    " ++ Numeral.decimal w.toNat) ::
      rest.map fun w => "        " ++ Numeral.decimal w.toNat

/-- The program that prints the characters of these words. -/
def lines (values : List Word) : List Text := opening ++ message (values ++ [0])

def source (values : List Word) : Text := Text.unlines (lines values)

example : lines [72, 73] =
    opening ++ ["MSG,    72".toList, "        73".toList, "        0".toList] := by
  decide

def labels : List (Text × Nat) :=
  [("START", 0o200), ("LOOP", 0o201), ("PTR", 0o212), ("MSG", 0o213)]

/-- The words of the instructions. -/
def code : List Word :=
  [0o7300, 0o1412, 0o7450, 0o7402, 0o6046, 0o6041, 0o5005, 0o7200, 0o2012, 0o5001]

/-! ## Assembling it -/

theorem collect_label?_opening :
    Position.collect Position.label? {} opening =
      some (labels.take 3, { counter := 0o213, radix := .decimal }) := by
  decide +kernel

theorem collect_word?_opening :
    Position.collect (Position.word? (.ofLabels labels)) {} opening =
      some (placedFrom 0o200 (code ++ [0o213]), { counter := 0o213, radix := .decimal }) := by
  decide +kernel

theorem isConstant_first (w : Word) :
    IsConstant (some "MSG") (Numeral.decimal w.toNat) ("MSG,    " ++ Numeral.decimal w.toNat) :=
  .of_labelled (show ("    " : Text).all isBlank = true by decide)
    (Numeral.decimal_ne_nil w.toNat) (fun _ hc => Numeral.isDigit_of_mem_decimal hc) (by decide)

theorem isConstant_later (w : Word) :
    IsConstant none (Numeral.decimal w.toNat) ("        " ++ Numeral.decimal w.toNat) :=
  .of_digits (by decide) (Numeral.decimal_ne_nil w.toNat) fun _ hc =>
    Numeral.isDigit_of_mem_decimal hc

section Assembling

variable {p : Position} {row : List Word} (hroom : p.counter + row.length ≤ 4096)

include hroom

/-- The message has its label, however long it is. -/
theorem collect_label?_message (hne : row ≠ []) :
    p.collect Position.label? (message row) =
      some (([("MSG", p.counter)] : List (Text × Nat)),
        { p with counter := p.counter + row.length }) := by
  cases row with
  | nil => exact absurd rfl hne
  | cons w rest =>
      rw [List.length_cons, ← Nat.add_assoc, Nat.add_right_comm] at hroom ⊢
      exact Position.collect_cons ((isConstant_first w).visit_label? (by omega))
        (collect_label?_row isConstant_later hroom)

/-- In decimal, the message has its words one after another. -/
theorem collect_word?_message (hradix : p.radix = .decimal) (symbols : SymbolTable) :
    p.collect (Position.word? symbols) (message row) =
      some (placedFrom p.counter row, { p with counter := p.counter + row.length }) := by
  have hvalue (w : Word) : p.radix.literal (Numeral.decimal w.toNat) = .ok w := by
    rw [hradix]
    exact Radix.literal_decimal w
  cases row with
  | nil => rfl
  | cons w rest =>
      rw [List.length_cons, ← Nat.add_assoc, Nat.add_right_comm] at hroom ⊢
      exact Position.collect_cons ((isConstant_first w).visit_word? (by omega) (hvalue w) symbols)
        (collect_word?_row (p := { p with counter := p.counter + 1 }) isConstant_later hroom hvalue
          symbols)

end Assembling

theorem lines_source (values : List Word) : (source values).lines = lines values := by
  apply Text.lines_unlines
  rw [lines, List.forall_mem_append]
  refine ⟨by decide, ?_⟩
  cases values ++ [0] with
  | nil => exact List.forall_mem_nil _
  | cons w rest =>
      rw [message, List.forall_mem_cons, List.forall_mem_map]
      constructor
      · exact Text.not_mem_append_of_isDigit (by decide)
          fun _ hc => Numeral.isDigit_of_mem_decimal hc
      · exact fun w _ => Text.not_mem_append_of_isDigit (by decide)
          fun _ hc => Numeral.isDigit_of_mem_decimal hc

/-- Every assembler makes the program of the source, if the message does not pass the end of
memory. -/
theorem assemble_source {values : List Word} (hlength : values.length ≤ 3956) (x : Assembler) :
    ∃ p x', Assembler.assemble (source values) x = .ok p x' ∧
      (∀ name, p.symbols.address? name = labels.reverse.lookup name) ∧
      p.image = Memory.cleared.setFrom 0o200 (code ++ [0o213] ++ (values ++ [0])) := by
  have hlines := lines_source values
  have hroom : 0o213 + (values ++ [0]).length ≤ 4096 := by
    rw [List.length_append, List.length_singleton]
    omega
  let last : Position := { counter := 0o213 + (values ++ [0]).length, radix := .decimal }
  have hlabels : Position.collect Position.label? {} (lines values) = some (labels, last) :=
    Position.collect_append collect_label?_opening
      (collect_label?_message (p := { counter := 0o213, radix := .decimal }) hroom
        (List.concat_ne_nil 0 values))
  have hwords : Position.collect (Position.word? (.ofLabels labels)) {} (lines values) =
      some (placedFrom 0o200 (code ++ [0o213] ++ (values ++ [0])), last) := by
    rw [placedFrom_append]
    exact Position.collect_append collect_word?_opening (collect_word?_message hroom rfl _)
  obtain ⟨p, x', h, hsymbols, -, himage⟩ :=
    assemble_of_collect (hlines ▸ hlabels) (hlines ▸ hwords) x
  exact ⟨p, x', h, hsymbols, himage.trans (foldl_placedFrom _ _ _)⟩

/-! ## Running it -/

/-- What the program sees at an instruction, with this accumulator, this pointer and this
teleprinter. -/
def state (v : View) (pc ac pointer : Word) (t : Teleprinter) : View :=
  { v with registers := { ac, pc }, memory := v.memory.set 0o212 pointer, teleprinter := t }

section Running

variable {v : View} (h : v.memory.Holds 0o200 code)

include h

/-- The program does not change itself. -/
theorem holds_state {pc ac pointer : Word} {t : Teleprinter} :
    (state v pc ac pointer t).memory.Holds 0o200 code :=
  h.set (by decide) (by decide) pointer

/-- The program takes the next word of the message, and goes on as the word says. -/
theorem leads_take {pointer w : Word} (hw : v.memory.get pointer = w) (hpointer : pointer ≠ 0o212)
    (t : Teleprinter) :
    Leads 2 (state v 0o201 0 pointer t) (state v (if w = 0 then 0o203 else 0o204) w pointer t) := by
  have hget : (state v 0o201 0 pointer t).memory.get pointer = w :=
    (Memory.get_set_of_ne hpointer pointer).trans hw
  have htake : (state v 0o201 0 pointer t).carry .tad pointer = state v 0o202 w pointer t := by
    have hcarry : (Word.addCarry 0 w).2 = false := by
      have hlt := w.isLt
      apply decide_eq_false
      show ¬ 4096 ≤ 0 + w.toNat
      omega
    rw [View.carry_tad hget]
    show View.mk { link := (Word.addCarry 0 w).2, ac := 0#12 + w, pc := 0o202 } _ _ _ = _
    rw [hcarry, BitVec.zero_add]
    rfl
  have htest (address : Word) :
      (state v 0o202 w pointer t).carry (.groupTwo (.ofWord 0o7450)) address =
        state v (if w = 0 then 0o203 else 0o204) w pointer t := by
    by_cases hzero : w = 0
    · rw [if_pos hzero, hzero]
      rfl
    · have hskips : (GroupTwo.ofWord 0o7450).skips { ac := w } = true := by
        show (true && (false || w != 0) && true) = true
        rw [bne_iff_ne.mpr hzero]
        rfl
      rw [if_neg hzero]
      show View.mk (Registers.skipIf ((GroupTwo.ofWord 0o7450).skips { ac := w }) _) _ _ _ = _
      rw [hskips]
      rfl
  refine .of_word 0o201 .tad pointer rfl (holds_state h 1 0o1412 rfl) rfl
    (Memory.get_set_self _ _ _) rfl htake ?_
  refine .of_word 0o202 (.groupTwo (.ofWord 0o7450)) _ rfl (holds_state h 2 0o7450 rfl) rfl rfl rfl
    (htest _) ?_
  exact .zero _

/-- The program prints a word that is not zero, moves the pointer on and begins again. -/
theorem leads_print {pointer : Word} (hpointer : pointer + 1 ≠ 0) (w : Word) (t : Teleprinter) :
    Leads 5 (state v 0o204 w pointer t) (state v 0o201 0 (pointer + 1) (t.print w.toNat)) := by
  have hcount : (state v 0o210 0 pointer (t.print w.toNat)).carry .isz 0o212 =
      state v 0o211 0 (pointer + 1) (t.print w.toNat) := by
    rw [View.carry_isz (congrArg (· + 1) (Memory.get_set_self _ _ _)), state, state]
    dsimp only
    rw [Memory.set_set, beq_false_of_ne hpointer]
    rfl
  refine .of_word 0o204 (.teleprinter 6) _ rfl (holds_state h 4 0o6046 rfl) rfl rfl rfl rfl ?_
  -- the teleprinter is ready, so the jump that would wait for it is skipped
  refine .of_word 0o205 (.teleprinter 1) _ rfl (holds_state h 5 0o6041 rfl) rfl rfl rfl rfl ?_
  refine .of_word 0o207 (.groupOne (.ofWord 0o7200)) _ rfl (holds_state h 7 0o7200 rfl) rfl rfl rfl
    rfl ?_
  refine .of_word 0o210 .isz 0o212 rfl (holds_state h 8 0o2012 rfl) rfl rfl rfl hcount ?_
  refine .of_word 0o211 .jmp 0o201 rfl (holds_state h 9 0o5001 rfl) rfl rfl rfl rfl ?_
  exact .zero _

/-- The loop prints words that are not zero, one after another. -/
theorem leads_loop {row : List Word} {n : Nat} (hrow : ∀ w ∈ row, w ≠ 0)
    (hmessage : v.memory.Holds n row) (hn : 0o212 < n) (hend : n + row.length < 4096)
    (t : Teleprinter) :
    Leads (7 * row.length) (state v 0o201 0 (Word.ofNat n) t)
      (state v 0o201 0 (Word.ofNat (n + row.length)) (t.printAll row)) := by
  -- on the words that are left, with the pointer at the first of them
  induction row generalizing n t with
  | nil => exact .zero _
  | cons w rest ih =>
      obtain ⟨hw, hrest⟩ := List.forall_mem_cons.mp hrow
      obtain ⟨hfirst, hothers⟩ := Memory.holds_cons_iff.mp hmessage
      rw [List.length_cons] at hend ⊢
      have hpointer : Word.ofNat n ≠ 0o212 := Word.ofNat_ne (by omega) (Nat.ne_of_gt hn)
      have hnext : Word.ofNat n + 1 ≠ 0 := by
        rw [← Word.ofNat_succ]
        exact Word.ofNat_ne (by omega) n.succ_ne_zero
      have htake := leads_take h hfirst hpointer t
      rw [if_neg hw] at htake
      have hprint := leads_print h hnext w t
      rw [← Word.ofNat_succ] at hprint
      have hloop := ih hrest hothers (by omega) (by omega) (t.print w.toNat)
      have hall := (htake.trans hprint).trans hloop
      rw [show 2 + 5 + 7 * rest.length = 7 * (rest.length + 1) by omega,
        show n + 1 + rest.length = n + (rest.length + 1) by omega] at hall
      exact hall

/-- From the start, the program prints the words up to the first that is zero, and comes to its
halt. -/
theorem leads_halt {row : List Word} {n : Nat} (hpointer : v.memory.get 0o212 = Word.ofNat n)
    (hrow : ∀ w ∈ row, w ≠ 0) (hmessage : v.memory.Holds n (row ++ [0])) (hn : 0o212 < n)
    (hend : n + row.length < 4096) (hpc : v.registers.pc = 0o200) :
    Leads (7 * row.length + 3) v
      (state v 0o203 0 (Word.ofNat (n + row.length)) (v.teleprinter.printAll row)) := by
  obtain ⟨hfirst, hlast⟩ := Memory.holds_append_iff.mp hmessage
  have hzero : v.memory.get (Word.ofNat (n + row.length)) = 0 := (Memory.holds_cons_iff.mp hlast).1
  have hclear (address : Word) : v.carry (.groupOne (.ofWord 0o7300)) address =
      state v 0o201 0 (Word.ofNat n) v.teleprinter := by
    rw [state, Memory.set_of_get hpointer]
    show View.mk { ac := 0, pc := v.registers.pc + 1 } _ _ _ = _
    rw [hpc]
    rfl
  have hbegin : Leads 1 v (state v 0o201 0 (Word.ofNat n) v.teleprinter) :=
    .of_word 0o200 (.groupOne (.ofWord 0o7300)) _ hpc (h 0 0o7300 rfl) rfl rfl rfl (hclear _)
      (.zero _)
  have hpast : Word.ofNat (n + row.length) ≠ 0o212 :=
    Word.ofNat_ne hend (Nat.ne_of_gt (Nat.lt_add_right _ hn))
  have htake := leads_take h hzero hpast (v.teleprinter.printAll row)
  rw [if_pos rfl] at htake
  have hall := (hbegin.trans (leads_loop h hrow hfirst hn hend v.teleprinter)).trans htake
  rw [show 1 + 7 * row.length + 2 = 7 * row.length + 3 by omega] at hall
  exact hall

end Running

/-- On a machine with the program and a message in it, a run prints the message and halts. -/
theorem ends_of_holds {m : Machine} {row : List Word} (hcode : m.memory.Holds 0o200 code)
    (hpointer : m.memory.get 0o212 = 0o213) (hmessage : m.memory.Holds 0o213 (row ++ [0]))
    (hrow : ∀ w ∈ row, w ≠ 0) (hlength : row.length ≤ 3956) :
    ∃ m', m.Ends { start := some 0o200 } (.ok ⟨7 * row.length + 4, .halted⟩) m' ∧
      m'.status = .halted ∧
      m'.view =
        state m.view 0o204 0 (Word.ofNat (0o213 + row.length)) (m.teleprinter.printAll row) := by
  let v := (m.seek (some 0o200)).view
  have hholds : v.memory.Holds 0o200 code := hcode
  have hlead : Leads (7 * row.length + 3) v
      (state v 0o203 0 (Word.ofNat (0o213 + row.length)) (m.teleprinter.printAll row)) :=
    leads_halt hholds hpointer hrow hmessage (by decide) (by omega) rfl
  have hhalt : (state v 0o203 0 (Word.ofNat (0o213 + row.length))
      (m.teleprinter.printAll row)).Next (.groupTwo (.ofWord 0o7402)) _ :=
    .of_word rfl (holds_state hholds 3 0o7402 rfl) rfl rfl
  obtain ⟨m', hends, hstatus, hview⟩ := hlead.ends hhalt rfl rfl
  exact ⟨m', hends, hstatus, hview⟩

/-- **The program prints every message.** Take a message of words that are not zero, which goes up
to the end of memory at most. Every assembler makes a program of the source with these words. Put
into any machine and run from its start, it halts after seven instructions for each word and four
others. It has printed the low seven bits of each word, in order, behind what had been printed
before; the accumulator is zero, the pointer has come to the zero at the end of the message, and the
teleprinter is ready, unless it was not before and there was nothing to print. -/
theorem prints {values : List Word} (hvalues : ∀ w ∈ values, w ≠ 0)
    (hlength : values.length ≤ 3956) (x : Assembler) :
    ∃ p x', Assembler.assemble (source values) x = .ok p x' ∧
      p.symbols.address? "PTR" = some 0o212 ∧ p.symbols.address? "MSG" = some 0o213 ∧
      ∀ m, ∃ m',
        (p.install m).Ends { start := some 0o200 } (.ok ⟨7 * values.length + 4, .halted⟩) m' ∧
        m'.status = .halted ∧
        m'.teleprinter.output =
          m.teleprinter.output ++ values.map (fun w => Char.ofNat (w.toNat &&& 0o177)) ∧
        m'.registers.ac = 0 ∧
        m'.registers.pc = 0o204 ∧
        (m'.memory.read 0o212).toNat = 0o213 + values.length ∧
        m'.memory.read (0o213 + values.length) = 0 ∧
        m'.teleprinter.ready = (m.teleprinter.ready || decide (0 < values.length)) := by
  obtain ⟨p, x', hassemble, hsymbols, himage⟩ := assemble_source hlength x
  refine ⟨p, x', hassemble, hsymbols "PTR", hsymbols "MSG", fun m => ?_⟩
  rw [p.install_eq]
  have hrow : p.image.Holds 0o200 (code ++ [0o213] ++ (values ++ [0])) := by
    rw [himage]
    apply Memory.holds_setFrom
    simp only [List.length_append, List.length_singleton]
    show 0o200 + (10 + 1 + (values.length + 1)) ≤ 4096
    omega
  obtain ⟨hprogram, hmessage⟩ := Memory.holds_append_iff.mp hrow
  obtain ⟨hcode, hpointer⟩ := Memory.holds_append_iff.mp hprogram
  obtain ⟨m', hends, hstatus, hview⟩ := ends_of_holds (m := { m with memory := p.image }) hcode
    (Memory.holds_cons_iff.mp hpointer).1 hmessage hvalues hlength
  have hregisters : m'.registers = { ac := 0, pc := 0o204 } := congrArg View.registers hview
  have hmemory : m'.memory = p.image.set 0o212 (Word.ofNat (0o213 + values.length)) :=
    congrArg View.memory hview
  have hteleprinter : m'.teleprinter = m.teleprinter.printAll values :=
    congrArg View.teleprinter hview
  refine ⟨m', hends, hstatus, ?_, congrArg (·.ac) hregisters, congrArg (·.pc) hregisters,
    ?_, ?_, ?_⟩
  · rw [hteleprinter, Teleprinter.output_printAll _ hvalues]
    have hcharacter (w : Word) :
        Teleprinter.character w.toNat = Char.ofNat (w.toNat &&& 0o177) :=
      congrArg Char.ofNat (Nat.and_two_pow_sub_one_eq_mod w.toNat 7).symm
    rw [funext hcharacter]
  · show (m'.memory.get 0o212).toNat = _
    rw [hmemory, Memory.get_set_self, Word.toNat_ofNat, Nat.mod_eq_of_lt (by omega)]
  · show m'.memory.get (Word.ofNat (0o213 + values.length)) = 0
    have hne : Word.ofNat (0o213 + values.length) ≠ 0o212 :=
      Word.ofNat_ne (by omega) (Nat.ne_of_gt (Nat.lt_add_right _ (by decide)))
    rw [hmemory, Memory.get_set_of_ne hne]
    exact (Memory.holds_cons_iff.mp (Memory.holds_append_iff.mp hmessage).2).1
  · rw [hteleprinter, Teleprinter.ready_printAll]
    cases values <;> rfl

/-- Three characters on a new machine. -/
theorem prints_three_characters :
    ∃ p x', Assembler.assemble (source [72, 73, 33]) {} = .ok p x' ∧
      ∃ m', (p.install {}).Ends { start := some 0o200 } (.ok ⟨25, .halted⟩) m' ∧
        m'.teleprinter.output = "HI!" ∧ m'.teleprinter.ready = true ∧
        (m'.memory.read 0o212).toNat = 0o216 := by
  have hvalues : ∀ w ∈ ([72, 73, 33] : List Word), w ≠ 0 := by simp
  obtain ⟨p, x', hassemble, -, -, hruns⟩ := prints hvalues (show 3 ≤ 3956 by decide) {}
  obtain ⟨m', hends, -, houtput, -, -, hpointer, -, hready⟩ := hruns {}
  exact ⟨p, x', hassemble, m', hends, houtput, hready, hpointer⟩

end Printing

end TwelveBit
