import TwelveBit.Proofs.Faulting
import TwelveBit.Proofs.MemoryReference
import TwelveBit.Proofs.Ring

/-!
# Micro-operations against the reference machine

The reference machine of numbers (`Reference.State`) is given the two groups of operate
instructions. A micro-operation is asked for by the bit of its value in the word
(`Reference.asks`), and each group carries its micro-operations out in one fixed order, in
arithmetic:

* the first group clears, complements and increments (`State.accumulate`), and then rotates the
  thirteen bits of the link and the accumulator (`State.rotate`),
* the second group decides whether to skip (`State.skips`), and then clears the accumulator and
  joins the switches to it (`State.groupTwo`).

`effect_groupOne` and `effect_groupTwo` are the agreement, for all bits of a word and all registers.
-/

namespace TwelveBit

/-! ## The two groups in arithmetic -/

namespace Reference

/-- Whether a word has the bit of this value. -/
def asks (word value : Nat) : Bool := decide (word / value % 2 = 1)

/-- An operate instruction of the second group. -/
def IsGroupTwo (word : Nat) : Prop :=
  word / 512 = 7 ∧ asks word 0o400 = true ∧ asks word 0o1 = false

instance (word : Nat) : Decidable (IsGroupTwo word) :=
  inferInstanceAs (Decidable (_ ∧ _ ∧ _))

namespace State

variable (s : State) (word : Nat)

/-- The first group up to its rotations: clear, complement, increment. The carry of the increment
replaces the link. -/
def accumulate : State :=
  let c := if asks word 0o200 then 0 else s.ac
  let l := if asks word 0o100 then 0 else s.link
  let c := if asks word 0o40 then 4095 - c else c
  let l := if asks word 0o20 then 1 - l else l
  { s with
    link := if asks word 0o1 then if c = 4095 then 1 else 0 else l
    ac := if asks word 0o1 then (c + 1) % 4096 else c }

/-- The link and the accumulator as one number of thirteen bits. -/
def bits : BitVec 13 := BitVec.ofNat 13 (4096 * s.link + s.ac)

/-- Rotate the link and the accumulator to the right and then to the left. -/
def rotate : State :=
  let places := if asks word 0o2 then 2 else 1
  let v := s.bits
  let v := if asks word 0o10 then v.rotateRight places else v
  let v := if asks word 0o4 then v.rotateLeft places else v
  { s with link := v.toNat / 4096, ac := v.toNat % 4096 }

/-- Carry out a word of the first group. -/
def groupOne : State := (s.accumulate word).rotate word

/-- Whether a word of the second group skips: if one of the tests that it asks for holds, or with
the bit of the opposite if none of them does. -/
def skips : Bool :=
  let holds := (asks word 0o100 && decide (2048 ≤ s.ac)) ||
    (asks word 0o40 && decide (s.ac = 0)) || (asks word 0o20 && decide (s.link = 1))
  if asks word 0o10 then !holds else holds

/-- Carry out a word of the second group, but for its halt. The skip is decided before anything
changes. -/
def groupTwo (switches : Nat) : State :=
  { s with
    pc := if s.skips word then (s.pc + 1) % 4096 else s.pc
    ac := ((if asks word 0o200 then 0 else s.ac) ||| (if asks word 0o4 then switches else 0)) %
      4096 }

end State

end Reference

open Reference

/-! ## The bits of a word -/

namespace Instruction

theorem getLsbD_eq_asks (w : Word) (k : Nat) : w.getLsbD k = asks w.toNat (1 <<< k) := by
  rw [BitVec.getLsbD, Nat.testBit_eq_decide_div_mod_eq, asks, Nat.one_shiftLeft]

theorem decode_of_isGroupTwo {i : Instruction} (h : IsGroupTwo i.toNat) (pc : Word) :
    i.decode pc = .ok (.groupTwo (.ofWord i)) := by
  obtain ⟨hcode, hgroup, hlast⟩ := h
  have hopcode : i.opcode = .opr := by
    rw [← Opcode.code_toNat_inj, toNat_code, hcode]
    rfl
  have hbit : i.getLsbD 8 = true := (getLsbD_eq_asks i 8).trans hgroup
  have hbit' : i.getLsbD 0 = false := (getLsbD_eq_asks i 0).trans hlast
  rw [decode, hopcode]
  dsimp only
  rw [decodeOperate, operateGroup?, hbit, hbit']
  rfl

end Instruction

theorem GroupOne.ofWord_eq (w : Word) : GroupOne.ofWord w =
    { clear := asks w.toNat 0o200
      clearLink := asks w.toNat 0o100
      complement := asks w.toNat 0o40
      complementLink := asks w.toNat 0o20
      right := asks w.toNat 0o10
      left := asks w.toNat 0o4
      twice := asks w.toNat 0o2
      increment := asks w.toNat 0o1 } := by
  simp only [ofWord, Instruction.getLsbD_eq_asks]
  rfl

theorem GroupTwo.ofWord_eq (w : Word) : GroupTwo.ofWord w =
    { clear := asks w.toNat 0o200
      sign := asks w.toNat 0o100
      zero := asks w.toNat 0o40
      link := asks w.toNat 0o20
      opposite := asks w.toNat 0o10
      switches := asks w.toNat 0o4
      halt := asks w.toNat 0o2 } := by
  simp only [ofWord, Instruction.getLsbD_eq_asks]
  rfl

/-! ## The first group -/

namespace GroupOne

variable (g : GroupOne) (x : LinkAccumulator)

/-- The micro-operations without the rotations. -/
def still : GroupOne := { g with right := false, left := false }

/-- The rotations come last. -/
theorem apply_eq : g.apply x =
    applyIf g.left (g.turn .rotateLeft) (applyIf g.right (g.turn .rotateRight) (g.still.apply x)) :=
  rfl

theorem ac_applyIf (condition : Bool) (f : LinkAccumulator → LinkAccumulator) :
    (applyIf condition f x).ac = if condition then (f x).ac else x.ac := by
  cases condition <;> rfl

theorem link_applyIf (condition : Bool) (f : LinkAccumulator → LinkAccumulator) :
    (applyIf condition f x).link = if condition then (f x).link else x.link := by
  cases condition <;> rfl

theorem ac_still : (g.still.apply x).ac =
    let c := if g.clear then 0 else x.ac
    let c := if g.complement then ~~~c else c
    if g.increment then c + 1 else c := by
  simp [apply, still, ac_applyIf, LinkAccumulator.add, Word.addCarry]

theorem link_still : (g.still.apply x).link =
    let c := if g.clear then 0 else x.ac
    let l := if g.clearLink then false else x.link
    let c := if g.complement then ~~~c else c
    let l := if g.complementLink then !l else l
    if g.increment then (c.addCarry 1).2 else l := by
  simp [apply, still, ac_applyIf, link_applyIf, LinkAccumulator.add]

/-- A rotation made twice turns the bits by twice as many places. -/
theorem bits_turn {rotate : LinkAccumulator → LinkAccumulator} {places : Int}
    (h : ∀ y, (rotate y).bits = turned places y.bits) :
    (g.turn rotate x).bits = turned (if g.twice then places + places else places) x.bits := by
  rw [turn]
  split
  · rw [h, h, turned_turned]
  · rw [h]

theorem bits_turn_right : (g.turn .rotateRight x).bits =
    x.bits.rotateRight (if g.twice then 2 else 1) := by
  rw [g.bits_turn x LinkAccumulator.bits_rotateRight]
  cases g.twice with
  | false => exact (rotateRight_eq_turned (k := 1) (by decide) _).symm
  | true => exact (rotateRight_eq_turned (k := 2) (by decide) _).symm

theorem bits_turn_left : (g.turn .rotateLeft x).bits =
    x.bits.rotateLeft (if g.twice then 2 else 1) := by
  rw [g.bits_turn x LinkAccumulator.bits_rotateLeft]
  cases g.twice with
  | false => exact (rotateLeft_eq_turned (k := 1) (by decide) _).symm
  | true => exact (rotateLeft_eq_turned (k := 2) (by decide) _).symm

/-- The rotations turn all thirteen bits, to the right and then to the left. -/
theorem bits_apply : (g.apply x).bits =
    let places := if g.twice then 2 else 1
    let v := (g.still.apply x).bits
    let v := if g.right then v.rotateRight places else v
    if g.left then v.rotateLeft places else v := by
  rw [apply_eq]
  cases g.left <;> cases g.right <;> simp [bits_turn_left, bits_turn_right]

end GroupOne

/-! ### The reference machine does the same -/

namespace Reference.State

/-- The numbers of a link and an accumulator. -/
structure Has (s : State) (x : LinkAccumulator) : Prop where
  link : s.link = x.link.toNat
  ac : s.ac = x.ac.toNat

variable {s : State} {x : LinkAccumulator} (w : Word)

theorem Has.bits (h : s.Has x) : s.bits = x.bits := by
  rw [State.bits, h.link, h.ac, ← LinkAccumulator.toNat_bits, BitVec.ofNat_toNat,
    BitVec.setWidth_eq]

theorem toNat_carry_one (c : Word) :
    (c.addCarry 1).2.toNat = if c.toNat = 4095 then 1 else 0 := by
  have hc := c.isLt
  have hcarry : (c.addCarry 1).2 = decide (c.toNat = 4095) := by
    rw [Word.addCarry, decide_eq_decide]
    show 4096 ≤ c.toNat + 1 ↔ c.toNat = 4095
    omega
  rw [hcarry]
  exact Bool.cond_decide ..

theorem toNat_not_link (l : Bool) : (!l).toNat = 1 - l.toNat := by
  cases l <;> rfl

/-- The steps before the rotations are arithmetic. -/
theorem Has.accumulate (h : s.Has x) :
    (s.accumulate w.toNat).Has ((GroupOne.ofWord w).still.apply x) := by
  constructor
  · rw [GroupOne.link_still, GroupOne.ofWord_eq]
    simp only [State.accumulate, h.link, h.ac, toNat_carry_one, toNat_not_link,
      apply_ite Bool.toNat, apply_ite BitVec.toNat, BitVec.toNat_not]
    rfl
  · rw [GroupOne.ac_still, GroupOne.ofWord_eq]
    simp [State.accumulate, h.ac, apply_ite BitVec.toNat]

/-- A number of thirteen bits is a link and an accumulator. -/
theorem has_of_bits {v : BitVec 13} (hv : x.bits = v) :
    State.Has { s with link := v.toNat / 4096, ac := v.toNat % 4096 } x := by
  have hbits := x.toNat_bits
  have hac := x.ac.isLt
  rw [hv] at hbits
  constructor
  · show v.toNat / 4096 = x.link.toNat
    omega
  · show v.toNat % 4096 = x.ac.toNat
    omega

theorem Has.groupOne (h : s.Has x) :
    (s.groupOne w.toNat).Has ((GroupOne.ofWord w).apply x) := by
  have hbits := GroupOne.bits_apply (GroupOne.ofWord w) x
  rw [← (h.accumulate w).bits] at hbits
  apply has_of_bits
  rw [hbits, GroupOne.ofWord_eq]

/-- As many places to the left as to the right are none, and no rotation asked for is none. -/
theorem Has.rotate_of_eq (h : s.Has x) {word : Nat} (heq : asks word 0o10 = asks word 0o4) :
    s.rotate word = s := by
  have hplaces : (if asks word 0o2 then 2 else 1) < 13 := by split <;> decide
  have hs : s.rotate word = { s with link := s.bits.toNat / 4096, ac := s.bits.toNat % 4096 } := by
    rw [rotate, heq]
    cases asks word 0o4
    · rfl
    · simp only [if_true, rotateLeft_rotateRight hplaces]
  have hx := has_of_bits (s := s) h.bits.symm
  rw [hs]
  exact State.ext rfl (hx.ac.trans h.ac.symm) (hx.link.trans h.link.symm) rfl

end Reference.State

namespace Machine

variable (m : Machine)

theorem numbers_has : m.numbers.Has m.registers.toLinkAccumulator := ⟨rfl, rfl⟩

/-- **The first group is arithmetic on thirteen bits.** For all bits of a word and all registers,
the numbers of the machine afterwards are those of the reference machine. Rotations both ways cancel
each other, and what doubles a rotation does nothing by itself. -/
theorem effect_groupOne (w address : Word) :
    let e := m.effect (.groupOne (.ofWord w)) address
    m.numbersAfter e = m.numbers.groupOne w.toNat ∧
      (asks w.toNat 0o10 = asks w.toNat 0o4 →
        m.numbersAfter e = m.numbers.accumulate w.toNat) ∧
      e.registers.pc = m.registers.pc ∧ e.teleprinter = m.teleprinter ∧ e.halts = false := by
  have hgroup := m.numbers_has.groupOne w
  have hnumbers : m.numbersAfter (m.effect (.groupOne (.ofWord w)) address) =
      m.numbers.groupOne w.toNat := State.ext rfl hgroup.ac.symm hgroup.link.symm rfl
  refine ⟨hnumbers, ?_, rfl, rfl, rfl⟩
  intro heq
  rw [hnumbers, State.groupOne, (m.numbers_has.accumulate w).rotate_of_eq heq]

/-- Complement, increment and both rotations, by two places: the carry is in the link. -/
theorem effect_groupOne_of_both_rotations :
    let w : Word := 0o7057
    let s := ({} : Machine).numbersAfter (({} : Machine).effect (.groupOne (.ofWord w)) 0)
    asks w.toNat 0o10 = asks w.toNat 0o4 ∧ s.link = 1 ∧ s.ac = 0 := by
  intro w s
  have hboth : asks w.toNat 0o10 = asks w.toNat 0o4 := by decide
  obtain ⟨-, hcancel, -⟩ := effect_groupOne {} w 0
  have hs : s = ({} : Machine).numbers.accumulate w.toNat := hcancel hboth
  rw [hs]
  exact ⟨hboth, by decide, by decide⟩

end Machine

/-! ## The second group -/

namespace GroupTwo

variable (g : GroupTwo) (x : LinkAccumulator)

/-- The opposite of every test holds exactly if none of the tests does. -/
theorem allOpposite_eq : g.allOpposite x = !g.anyTest x := by
  simp [allOpposite, anyTest, bne]

theorem skips_eq : g.skips x = if g.opposite then !g.anyTest x else g.anyTest x := by
  rw [skips, allOpposite_eq]

/-- The bit of the opposite is the only one that changes. -/
theorem ofWord_flip (w : Word) : GroupTwo.ofWord (w ^^^ 0o10) =
    { GroupTwo.ofWord w with opposite := !(GroupTwo.ofWord w).opposite } := by
  simp [ofWord]

theorem skips_flip (w : Word) : (ofWord (w ^^^ 0o10)).skips x = !(ofWord w).skips x := by
  have hany : (ofWord (w ^^^ 0o10)).anyTest x = (ofWord w).anyTest x := by
    rw [ofWord_flip]
    rfl
  rw [skips_eq, skips_eq, hany, ofWord_flip]
  cases (ofWord w).opposite <;> simp

theorem ac_apply (switches : Nat) (r : Registers) : (g.apply switches r).ac =
    (if g.clear then 0 else r.ac) ||| (if g.switches then Word.ofNat switches else 0) := by
  unfold apply
  cases g.clear <;> cases g.switches <;> simp

theorem link_apply (switches : Nat) (r : Registers) : (g.apply switches r).link = r.link := by
  unfold apply
  cases g.clear <;> cases g.switches <;> simp

theorem pc_apply (switches : Nat) (r : Registers) :
    (g.apply switches r).pc = (r.skipIf (g.skips r.toLinkAccumulator)).pc := by
  unfold apply
  cases g.clear <;> cases g.switches <;> rfl

end GroupTwo

/-! ### The reference machine does the same -/

theorem Reference.State.Has.skips {s : State} {x : LinkAccumulator} (h : s.Has x) (w : Word) :
    s.skips w.toNat = (GroupTwo.ofWord w).skips x := by
  have hsign : decide (2048 ≤ s.ac) = x.ac.negative := by
    rw [h.ac, Word.negative, BitVec.msb_eq_decide]
  have hzero : decide (s.ac = 0) = (x.ac == 0) := by
    rw [h.ac, Bool.eq_iff_iff, decide_eq_true_iff, beq_iff_eq, ← BitVec.toNat_inj]
    rfl
  have hlink : decide (s.link = 1) = x.link := by
    rw [h.link]
    cases x.link <;> rfl
  rw [State.skips, hsign, hzero, hlink, GroupTwo.skips_eq, GroupTwo.ofWord_eq, GroupTwo.anyTest]

namespace Machine

variable (m : Machine)

theorem numbersAfter_groupTwo (w address : Word) :
    m.numbersAfter (m.effect (.groupTwo (.ofWord w)) address) =
      m.numbers.groupTwo w.toNat m.switches := by
  refine State.ext ?_ ?_ ?_ rfl
  · show ((GroupTwo.ofWord w).apply m.switches m.registers).pc.toNat =
      if m.numbers.skips w.toNat then (m.registers.pc.toNat + 1) % 4096 else m.registers.pc.toNat
    rw [GroupTwo.pc_apply, Registers.toNat_pc_skipIf, m.numbers_has.skips]
  · show ((GroupTwo.ofWord w).apply m.switches m.registers).ac.toNat =
      ((if asks w.toNat 0o200 then 0 else m.registers.ac.toNat) |||
        (if asks w.toNat 0o4 then m.switches else 0)) % 4096
    have hac : m.registers.ac.toNat % 2 ^ 12 = m.registers.ac.toNat :=
      Nat.mod_eq_of_lt m.registers.ac.isLt
    rw [GroupTwo.ac_apply, GroupTwo.ofWord_eq, BitVec.toNat_or, show 4096 = 2 ^ 12 from rfl,
      Nat.or_mod_two_pow]
    simp only [apply_ite BitVec.toNat, apply_ite (· % 2 ^ 12), hac, BitVec.toNat_ofNat]
    rfl
  · show ((GroupTwo.ofWord w).apply m.switches m.registers).link.toNat = m.registers.link.toNat
    rw [GroupTwo.link_apply]

/-- A step leaves the numbers that its effect has. -/
theorem StepsBy.numbers {m m' : Machine} {e : Effect} (h : m.StepsBy e m') :
    m'.numbers = m.numbersAfter e := by
  rw [Machine.numbers, numbersAfter, h.registers, h.memory]

/-- A step on a word of the second group. If it halts, it does so with everything else done. -/
theorem step_of_isGroupTwo (h : IsGroupTwo m.fetch.toNat) :
    ∃ m', m.step = (.ok (if asks m.fetch.toNat 0o2 then .halted else .retired), m') ∧
      m'.numbers =
        { m.numbers with pc := (m.numbers.pc + 1) % 4096 }.groupTwo m.fetch.toNat m.switches ∧
      m'.status = (if asks m.fetch.toNat 0o2 then .halted else .stopped) ∧
      m'.teleprinter = m.teleprinter ∧ m'.switches = m.switches ∧
      m'.events =
        if m.tracing then
          ((if asks m.fetch.toNat 0o2 then [Event.halted m'.registers.pc] else []) ++
            [Event.executed m.registers.pc m.fetch m'.registers]).foldl .push m.events
        else m.events := by
  have hdecode := Instruction.decode_of_isGroupTwo h m.registers.pc
  have hhalt : (GroupTwo.ofWord m.fetch).halt = asks m.fetch.toNat 0o2 := by
    rw [GroupTwo.ofWord_eq]
  have hadvance : m.advance.numbers = { m.numbers with pc := (m.numbers.pc + 1) % 4096 } :=
    State.ext m.toNat_next rfl rfl rfl
  have hnumbers := m.advance.numbersAfter_groupTwo m.fetch m.operand
  obtain ⟨m', hstep, hm'⟩ := step_of_decode hdecode
  rw [← hhalt, ← hadvance]
  refine ⟨m', hstep, ?_, hm'.status, hm'.teleprinter, hm'.switches, ?_⟩
  · exact hm'.numbers.trans hnumbers
  · rw [hm'.events, hm'.registers]
    rfl

/-- **The second group tests first and halts last.** The bit of the opposite turns every decision to
skip into its contrary. For all bits of a word and all registers, the decision is made on the link
and the accumulator as they are before, the numbers of the machine afterwards are those of the
reference machine, and the bit of the halt is the only thing that halts. A step that halts tells so
with the registers that it leaves. -/
theorem effect_groupTwo (w address : Word) :
    let e := m.effect (.groupTwo (.ofWord w)) address
    (GroupTwo.ofWord w).skips m.registers.toLinkAccumulator = m.numbers.skips w.toNat ∧
      (∀ x, (GroupTwo.ofWord (w ^^^ 0o10)).skips x = !(GroupTwo.ofWord w).skips x) ∧
      m.numbersAfter e = m.numbers.groupTwo w.toNat m.switches ∧
      e.registers.link = m.registers.link ∧ e.halts = asks w.toNat 0o2 ∧
      (m.fetch = w → IsGroupTwo w.toNat →
        ∃ m', m.step = (.ok (if asks w.toNat 0o2 then .halted else .retired), m') ∧
          m'.numbers =
            { m.numbers with pc := (m.numbers.pc + 1) % 4096 }.groupTwo w.toNat m.switches ∧
          m'.status = (if asks w.toNat 0o2 then .halted else .stopped) ∧
          m'.teleprinter = m.teleprinter ∧ m'.switches = m.switches ∧
          m'.events =
            if m.tracing then
              ((if asks w.toNat 0o2 then [Event.halted m'.registers.pc] else []) ++
                [Event.executed m.registers.pc w m'.registers]).foldl .push m.events
            else m.events) := by
  intro e
  refine ⟨(m.numbers_has.skips w).symm, fun x => GroupTwo.skips_flip x w,
    m.numbersAfter_groupTwo w address, GroupTwo.link_apply _ _ _, ?_, ?_⟩
  · show (GroupTwo.ofWord w).halt = asks w.toNat 0o2
    rw [GroupTwo.ofWord_eq]
  · rintro rfl hgroup
    exact m.step_of_isGroupTwo hgroup

/-- `SZA CLA OSR HLT` at the last address, with a cleared accumulator: the skip goes on from the
start of memory, and the switches are in the accumulator when the halt is told. -/
theorem effect_groupTwo_of_halt_at_the_end :
    let w : Word := 0o7646
    let m : Machine :=
      { registers := { pc := 0o7777 }
        memory := Memory.cleared.set 0o7777 w
        switches := 0o55
        events := .blank }
    m.fetch = w ∧ IsGroupTwo w.toNat ∧
      ∃ m', m.step = (.ok .halted, m') ∧ m'.registers.pc = 1 ∧ m'.registers.ac = 0o55 ∧
        m'.events.toList = [.halted 1, .executed 0o7777 w m'.registers] := by
  intro w m
  have hfetch : m.fetch = w := (Memory.get_set ..).trans (if_pos rfl)
  have hgroup : IsGroupTwo w.toNat := by decide
  have hhalt : asks w.toNat 0o2 = true := by decide
  obtain ⟨-, -, -, -, -, hsteps⟩ := effect_groupTwo m w 0
  obtain ⟨m', hstep, hnumbers, -, -, -, hevents⟩ := hsteps hfetch hgroup
  rw [hhalt] at hstep hevents
  have hpc : m'.registers.pc = 1 :=
    BitVec.eq_of_toNat_eq ((congrArg State.pc hnumbers).trans (by decide))
  have hac : m'.registers.ac = 0o55 :=
    BitVec.eq_of_toNat_eq ((congrArg State.ac hnumbers).trans (by decide))
  refine ⟨hfetch, hgroup, m', hstep, hpc, hac, ?_⟩
  rw [hevents, hpc]
  rfl

end Machine

end TwelveBit
