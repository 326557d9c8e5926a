import TwelveBit.Proofs.Constants
import TwelveBit.Proofs.Execution

/-!
# Multiplication by repeated addition

A program that multiplies two words, and how long it takes. It counts in a tally from the negative
of the first factor up to zero, and adds the second factor once a round: as often as the first
factor says, and 4096 times if it is zero.
-/

namespace TwelveBit.Multiplication

open Assembly

/-! ## The program -/

/-- The lines before the factors. -/
def opening : List Text :=
  ["",
   "/ Multiply",
   "*200            / start at octal 200",
   "START,  CLA CLL",
   "        TAD A",
   "        CMA IAC",
   "        DCA TALLY",
   "LOOP,   TAD B",
   "        ISZ TALLY",
   "        JMP LOOP",
   "        HLT"]

/-- The program that multiplies two words. -/
def lines (a b : Word) : List Text :=
  opening ++
    ["A,      " ++ Numeral.octal 4 a.toNat,
     "B,      " ++ Numeral.octal 4 b.toNat,
     "TALLY,  0000"]

def source (a b : Word) : Text := Text.unlines (lines a b)

def labels : List (Text × Nat) :=
  [("START", 0o200), ("LOOP", 0o204), ("A", 0o210), ("B", 0o211), ("TALLY", 0o212)]

/-- The words of the instructions. -/
def code : List Word := [0o7300, 0o1010, 0o7041, 0o3012, 0o1011, 0o2012, 0o5004, 0o7402]

/-! ## Assembling it -/

theorem collect_label?_opening :
    Position.collect Position.label? {} opening = some (labels.take 2, { counter := 0o210 }) := by
  decide +kernel

theorem collect_word?_opening :
    Position.collect (Position.word? (.ofLabels labels)) {} opening =
      some (placedFrom 0o200 code, { counter := 0o210 }) := by
  decide +kernel

section Factors

variable (a b : Word)

theorem isConstant_factor (name : Text) (hname : isName name = true) (w : Word) :
    IsConstant (some name) (Numeral.octal 4 w.toNat)
      (name ++ ',' :: ("      " ++ Numeral.octal 4 w.toNat)) :=
  .of_labelled (by decide) (Numeral.octal_ne_nil 4 w.toNat)
    (fun _ hc => Numeral.isDigit_of_mem_octal hc) hname

theorem isConstant_tally : IsConstant (some "TALLY") "0000" "TALLY,  0000" :=
  .of_labelled (show ("  " : Text).all isBlank = true by decide) (by decide)
    (List.all_eq_true.mp (by decide)) (by decide)

theorem collect_label?_lines :
    Position.collect Position.label? {} (lines a b) = some (labels, { counter := 0o213 }) := by
  have hrest : labels = labels.take 2 ++ labels.drop 2 := rfl
  rw [hrest]
  apply Position.collect_append collect_label?_opening
  exact Position.collect_cons ((isConstant_factor "A" (by decide) a).visit_label? (by decide))
    (Position.collect_cons ((isConstant_factor "B" (by decide) b).visit_label? (by decide))
      (Position.collect_cons (isConstant_tally.visit_label? (by decide)) rfl))

theorem collect_word?_lines :
    Position.collect (Position.word? (.ofLabels labels)) {} (lines a b) =
      some (placedFrom 0o200 (code ++ [a, b, 0]), { counter := 0o213 }) := by
  rw [placedFrom_append]
  refine Position.collect_append collect_word?_opening ?_
  exact Position.collect_cons
    ((isConstant_factor "A" (by decide) a).visit_word? (by decide) (Radix.literal_octal 4 a) _)
    (Position.collect_cons
      ((isConstant_factor "B" (by decide) b).visit_word? (by decide) (Radix.literal_octal 4 b) _)
      (Position.collect_cons (isConstant_tally.visit_word? (w := 0) (by decide) (by decide) _) rfl))

theorem lines_source : (source a b).lines = lines a b := by
  apply Text.lines_unlines
  rw [lines, List.forall_mem_append]
  refine ⟨by decide, ?_⟩
  simp only [List.forall_mem_cons]
  refine ⟨Text.not_mem_append_of_isDigit (by decide) fun _ hc => Numeral.isDigit_of_mem_octal hc,
    Text.not_mem_append_of_isDigit (by decide) fun _ hc => Numeral.isDigit_of_mem_octal hc,
    by decide, List.forall_mem_nil _⟩

/-- Every assembler makes the program of the source. -/
theorem assemble_source (x : Assembler) :
    ∃ p x', Assembler.assemble (source a b) x = .ok p x' ∧
      (∀ name, p.symbols.address? name = labels.reverse.lookup name) ∧
      p.image = Memory.cleared.setFrom 0o200 (code ++ [a, b, 0]) := by
  have hlines := lines_source a b
  obtain ⟨p, x', h, hsymbols, -, himage⟩ := assemble_of_collect
    (hlines ▸ collect_label?_lines a b) (hlines ▸ collect_word?_lines a b) x
  exact ⟨p, x', h, hsymbols, himage.trans (foldl_placedFrom _ _ _)⟩

end Factors

/-! ## Running it -/

/-- How often the program goes through its loop. -/
def rounds (a : Word) : Nat := if a = 0 then 4096 else a.toNat

theorem rounds_ne_zero (a : Word) : rounds a ≠ 0 := by
  rw [rounds]
  split
  · decide
  · next h => exact Nat.ne_of_gt (BitVec.toNat_pos_of_ne_zero h)

theorem ofNat_rounds (a : Word) : Word.ofNat (rounds a) = a := by
  rw [rounds]
  split
  · next h =>
      rw [h]
      rfl
  · exact Word.ofNat_toNat a

/-- The tally has as far to go as there are rounds. -/
theorem neg_add_rounds (a : Word) : (-a).toNat + rounds a = 4096 := by
  rw [rounds, BitVec.toNat_neg]
  split
  · next h =>
      rw [h]
      rfl
  · next h =>
      have hpos : 0 < a.toNat := BitVec.toNat_pos_of_ne_zero h
      have hlt := a.isLt
      omega

/-- What the program sees at an instruction, with these registers and this tally. -/
def state (v : View) (pc ac : Word) (link : Bool) (tally : Word) : View :=
  { v with registers := { link, ac, pc }, memory := v.memory.set 0o212 tally }

section Running

variable {v : View} {a b : Word} (h : v.memory.Holds 0o200 (code ++ [a, b]))

include h

/-- The program does not change itself. -/
theorem holds_state {pc ac : Word} {link : Bool} {tally : Word} :
    (state v pc ac link tally).memory.Holds 0o200 (code ++ [a, b]) := by
  refine h.set ?_ (.inr ?_) tally
  · show 0o200 + 10 ≤ 4096
    decide
  · show 0o200 + 10 ≤ 0o212
    decide

/-- Four instructions put the negative of the first factor into the tally. -/
theorem leads_begin (ac : Word) (link : Bool) (tally : Word) :
    ∃ link', Leads 4 (state v 0o200 ac link tally) (state v 0o204 0 link' (-a)) := by
  have htake : (state v 0o201 0 false tally).carry .tad 0o210 =
      state v 0o202 a (Word.addCarry 0 a).2 tally := by
    refine (View.carry_tad (w := a) (holds_state h 8 a rfl)).trans ?_
    show state v 0o202 (0#12 + a) (Word.addCarry 0 a).2 tally = _
    rw [BitVec.zero_add]
  have hnegate (address : Word) :
      (state v 0o202 a (Word.addCarry 0 a).2 tally).carry (.groupOne (.ofWord 0o7041)) address =
        state v 0o203 (-a) (Word.addCarry (~~~a) 1).2 tally := by
    rw [BitVec.neg_eq_not_add]
    rfl
  have hdeposit (link' : Bool) : (state v 0o203 (-a) link' tally).carry .dca 0o212 =
      state v 0o204 0 link' (-a) := by
    show View.mk _ ((v.memory.set 0o212 tally).set 0o212 (-a)) _ _ = _
    rw [Memory.set_set]
    rfl
  refine ⟨(Word.addCarry (~~~a) 1).2, ?_⟩
  refine .of_word 0o200 (.groupOne (.ofWord 0o7300)) _ rfl (holds_state h 0 0o7300 rfl) rfl rfl rfl
    rfl ?_
  refine .of_word 0o201 .tad 0o210 rfl (holds_state h 1 0o1010 rfl) rfl rfl rfl htake ?_
  refine .of_word 0o202 (.groupOne (.ofWord 0o7041)) _ rfl (holds_state h 2 0o7041 rfl) rfl rfl rfl
    (hnegate _) ?_
  refine .of_word 0o203 .dca 0o212 rfl (holds_state h 3 0o3012 rfl) rfl rfl rfl (hdeposit _) ?_
  exact .zero _

/-- A round adds the second factor, and counts. -/
theorem leads_add (ac : Word) (link : Bool) (tally : Word) :
    Leads 2 (state v 0o204 ac link tally)
      (state v (if tally + 1 = 0 then 0o207 else 0o206) (ac + b) (ac.addCarry b).2
        (tally + 1)) := by
  have hadd : (state v 0o204 ac link tally).carry .tad 0o211 =
      state v 0o205 (ac + b) (ac.addCarry b).2 tally :=
    View.carry_tad (holds_state h 9 b rfl)
  have hcount : (state v 0o205 (ac + b) (ac.addCarry b).2 tally).carry .isz 0o212 =
      state v (if tally + 1 = 0 then 0o207 else 0o206) (ac + b) (ac.addCarry b).2 (tally + 1) := by
    rw [View.carry_isz (congrArg (· + 1) (Memory.get_set_self _ _ _)), state, state]
    dsimp only
    rw [Memory.set_set]
    by_cases hzero : tally + 1 = 0
    · rw [if_pos hzero, hzero]
      rfl
    · rw [if_neg hzero, beq_false_of_ne hzero]
      rfl
  refine .of_word 0o204 .tad 0o211 rfl (holds_state h 4 0o1011 rfl) rfl rfl rfl hadd ?_
  refine .of_word 0o205 .isz 0o212 rfl (holds_state h 5 0o2012 rfl) rfl rfl rfl hcount ?_
  exact .zero _

/-- The loop ends when the tally has come to zero. -/
theorem leads_loop (rounds : Nat) (ac : Word) (link : Bool) (tally : Word)
    (hrounds : tally.toNat + rounds + 1 = 4096) :
    ∃ link', Leads (3 * rounds + 2) (state v 0o204 ac link tally)
      (state v 0o207 (ac + Word.ofNat (rounds + 1) * b) link' 0) := by
  -- on the rounds that are left, which the tally counts
  induction rounds generalizing ac link tally with
  | zero =>
      have hzero : tally + 1 = 0 := by
        apply BitVec.eq_of_toNat_eq
        rw [Word.toNat_add_one, hrounds]
        rfl
      have hadd := leads_add h ac link tally
      rw [if_pos hzero, hzero] at hadd
      have hproduct : Word.ofNat (0 + 1) * b = b := BitVec.one_mul b
      rw [hproduct]
      exact ⟨_, hadd⟩
  | succ rounds ih =>
      have hnext : (tally + 1).toNat = tally.toNat + 1 := by
        rw [Word.toNat_add_one, Nat.mod_eq_of_lt (by omega)]
      have hne : tally + 1 ≠ 0 := by
        intro hzero
        rw [hzero] at hnext
        cases hnext
      have hadd := leads_add h ac link tally
      rw [if_neg hne] at hadd
      have hjump : Leads 1 (state v 0o206 (ac + b) (ac.addCarry b).2 (tally + 1))
          (state v 0o204 (ac + b) (ac.addCarry b).2 (tally + 1)) :=
        .of_word 0o206 .jmp 0o204 rfl (holds_state h 6 0o5004 rfl) rfl rfl rfl rfl (.zero _)
      obtain ⟨link', hrest⟩ := ih (ac + b) (ac.addCarry b).2 (tally + 1) (by omega)
      have hsum : ac + b + Word.ofNat (rounds + 1) * b = ac + Word.ofNat (rounds + 1 + 1) * b := by
        rw [Word.ofNat_succ_mul (rounds + 1), BitVec.add_assoc]
      rw [hsum] at hrest
      have hall := (hadd.trans hjump).trans hrest
      rw [show 2 + 1 + (3 * rounds + 2) = 3 * (rounds + 1) + 2 by omega] at hall
      exact ⟨link', hall⟩

/-- The whole program up to its halt. -/
theorem leads_halt (ac : Word) (link : Bool) (tally : Word) :
    ∃ link', Leads (3 * rounds a + 3) (state v 0o200 ac link tally)
      (state v 0o207 (a * b) link' 0) := by
  obtain ⟨r, hr⟩ : ∃ r, rounds a = r + 1 := Nat.exists_eq_add_one_of_ne_zero (rounds_ne_zero a)
  have htally := neg_add_rounds a
  rw [hr, ← Nat.add_assoc] at htally
  obtain ⟨link₁, hbegin⟩ := leads_begin h ac link tally
  obtain ⟨link', hloop⟩ := leads_loop h r 0 link₁ (-a) htally
  have hproduct : 0 + Word.ofNat (r + 1) * b = a * b := by
    rw [← hr, ofNat_rounds]
    exact BitVec.zero_add (a * b)
  have hall := hbegin.trans hloop
  rw [hproduct, show 4 + (3 * r + 2) = 3 * rounds a + 3 by omega] at hall
  exact ⟨link', hall⟩

end Running

/-- On a machine with the program in it, a run halts with the product. -/
theorem ends_of_holds {m : Machine} {a b : Word} (h : m.memory.Holds 0o200 (code ++ [a, b])) :
    ∃ m' link, m.Ends { start := some 0o200 } (.ok ⟨3 * rounds a + 4, .halted⟩) m' ∧
      m'.status = .halted ∧ m'.view = state m.view 0o210 (a * b) link 0 := by
  have hholds : m.view.memory.Holds 0o200 (code ++ [a, b]) := h
  obtain ⟨link, hlead⟩ :=
    leads_halt hholds m.registers.ac m.registers.link (m.memory.get 0o212)
  have hstart : (m.seek (some 0o200)).view =
      state m.view 0o200 m.registers.ac m.registers.link (m.memory.get 0o212) := by
    have hself : m.view.memory.set 0o212 (m.memory.get 0o212) = m.memory := Memory.set_of_get rfl
    rw [state, hself]
    rfl
  have hhalt : (state m.view 0o207 (a * b) link 0).Next (.groupTwo (.ofWord 0o7402)) _ :=
    .of_word rfl (holds_state hholds 7 0o7402 rfl) rfl rfl
  obtain ⟨m', hends, hstatus, hview⟩ := hlead.ends hhalt rfl hstart
  exact ⟨m', link, hends, hstatus, hview⟩

/-- **The program multiplies, whatever the factors.** Every assembler makes a program of the source.
Put into any machine and run from its start, it halts after three instructions for each round and
four others, with the product in the accumulator, modulo 4096. The tally is zero then, and no other
word of memory has changed. -/
theorem multiplies (a b : Word) (x : Assembler) :
    ∃ p x', Assembler.assemble (source a b) x = .ok p x' ∧
      p.symbols.address? "START" = some 0o200 ∧ p.symbols.address? "TALLY" = some 0o212 ∧
      ∀ m, ∃ m', (p.install m).Ends { start := some 0o200 } (.ok ⟨3 * rounds a + 4, .halted⟩) m' ∧
        m'.status = .halted ∧
        m'.registers.ac.toNat = a.toNat * b.toNat % 4096 ∧
        m'.registers.pc = 0o210 ∧
        m'.memory.read 0o212 = 0 ∧
        ∀ address ≤ 0o7777, address ≠ 0o212 → m'.memory.read address = p.word address := by
  obtain ⟨p, x', hassemble, hsymbols, himage⟩ := assemble_source a b x
  refine ⟨p, x', hassemble, hsymbols "START", hsymbols "TALLY", fun m => ?_⟩
  rw [p.install_eq]
  have hrow : p.image.Holds 0o200 (code ++ [a, b] ++ [0]) := by
    rw [himage]
    exact Memory.holds_setFrom (show 0o200 + 11 ≤ 4096 by decide)
  obtain ⟨m', link, hends, hstatus, hview⟩ :=
    ends_of_holds (m := { m with memory := p.image }) (Memory.holds_append_iff.mp hrow).1
  have hregisters : m'.registers = { link, ac := a * b, pc := 0o210 } :=
    congrArg View.registers hview
  have hmemory : m'.memory = p.image.set 0o212 0 := congrArg View.memory hview
  refine ⟨m', hends, hstatus, ?_, congrArg (·.pc) hregisters, ?_, ?_⟩
  · rw [hregisters]
    exact BitVec.toNat_mul a b
  · rw [hmemory]
    exact Memory.get_set_self _ _ _
  · intro address haddress hne
    have hne : Word.ofNat address ≠ 0o212 := Word.ofNat_ne (Nat.lt_succ_of_le haddress) hne
    rw [p.word_eq_read haddress, hmemory]
    exact Memory.get_set_of_ne hne 0

end TwelveBit.Multiplication
