import TwelveBit.Proofs.Addressing
import TwelveBit.Proofs.Stepping

/-!
# Programs in execution

A program sees registers, memory, teleprinter and switches of the machine that carries it out, and
nothing of the accounts that the machine keeps (`View`). `Leads n v v'` says that `n` instructions
lead from one view to another, on every machine and without a halt.

What one instruction does to a view is `View.carry`, if its word is known (`View.Next`). A program
is followed from instruction to instruction by `Leads.of_word`, a loop by induction on its rounds,
and `Leads.ends` says what it means for a run that the end has been reached.
-/

namespace TwelveBit

/-! ## Rows of words in memory -/

namespace Memory

/-- A row of words stands in memory from an origin on. -/
def Holds (m : Memory) (origin : Nat) (row : List Word) : Prop :=
  ∀ i w, row[i]? = some w → m.get (Word.ofNat (origin + i)) = w

variable {m : Memory} {origin : Nat} {row first second : List Word} {a w : Word}

theorem get_set_of_ne (h : a ≠ w) (v : Word) : (m.set w v).get a = m.get a := by
  rw [get_set, if_neg h]

theorem get_set_self (m : Memory) (a w : Word) : (m.set a w).get a = w := by
  rw [get_set, if_pos rfl]

theorem set_set (m : Memory) (a v w : Word) : (m.set a v).set a w = m.set a w := by
  apply ext_get
  intro b
  simp only [get_set]
  split <;> rfl

/-- Storing a word where it stands already changes nothing. -/
theorem set_of_get (h : m.get a = w) : m.set a w = m := by
  apply ext_get
  intro b
  rw [get_set]
  split
  · next hb => rw [hb, h]
  · rfl

theorem holds_nil (m : Memory) (origin : Nat) : m.Holds origin [] := by
  intro i w h
  cases h

theorem holds_cons_iff : m.Holds origin (w :: row) ↔
    m.get (Word.ofNat origin) = w ∧ m.Holds (origin + 1) row := by
  constructor
  · intro h
    refine ⟨h 0 w rfl, fun i v hv => ?_⟩
    rw [Nat.add_right_comm]
    exact h (i + 1) v hv
  · rintro ⟨hw, hrow⟩ i v hv
    cases i with
    | zero =>
        cases hv
        exact hw
    | succ i =>
        rw [← Nat.add_assoc, Nat.add_right_comm]
        exact hrow i v hv

theorem holds_append_iff : m.Holds origin (first ++ second) ↔
    m.Holds origin first ∧ m.Holds (origin + first.length) second := by
  induction first generalizing origin with
  | nil => exact (and_iff_right (holds_nil m origin)).symm
  | cons w rest ih =>
      rw [List.cons_append, holds_cons_iff, holds_cons_iff, ih, List.length_cons, and_assoc,
        Nat.add_right_comm, Nat.add_assoc]

/-- A word that is stored outside a row changes nothing in it. -/
theorem Holds.set (h : m.Holds origin row) (hend : origin + row.length ≤ 4096)
    (ha : a.toNat < origin ∨ origin + row.length ≤ a.toNat) (w : Word) :
    (m.set a w).Holds origin row := by
  intro i v hv
  have hi : i < row.length := (List.getElem?_eq_some_iff.mp hv).1
  rw [get_set_of_ne]
  · exact h i v hv
  · intro heq
    rw [← heq, Word.toNat_ofNat_of_lt (by omega)] at ha
    omega

/-- Words stored one after another change nothing where none of them is stored. -/
theorem get_setFrom_of_ne (h : ∀ i < row.length, a ≠ Word.ofNat (origin + i)) :
    (m.setFrom (Word.ofNat origin) row).get a = m.get a := by
  induction row generalizing m origin with
  | nil => rfl
  | cons w rest ih =>
      have hne : a ≠ Word.ofNat origin := h 0 (Nat.succ_pos _)
      rw [setFrom, ← Word.ofNat_succ, ih, get_set_of_ne hne]
      intro i hi
      rw [Nat.add_assoc, Nat.add_comm 1 i]
      exact h (i + 1) (Nat.succ_lt_succ hi)

/-- Words stored one after another change nothing before them. -/
theorem get_setFrom_of_lt (hend : origin + row.length ≤ 4096) (ha : a.toNat < origin) :
    (m.setFrom (Word.ofNat origin) row).get a = m.get a := by
  refine get_setFrom_of_ne fun i hi => ?_
  rintro rfl
  rw [Word.toNat_ofNat] at ha
  omega

/-- Words stored one after another stand there, if the end of memory is not passed. -/
theorem holds_setFrom (hend : origin + row.length ≤ 4096) :
    (m.setFrom (Word.ofNat origin) row).Holds origin row := by
  induction row generalizing m origin with
  | nil => exact holds_nil m origin
  | cons w rest ih =>
      rw [List.length_cons] at hend
      rw [holds_cons_iff, setFrom, ← Word.ofNat_succ]
      refine ⟨?_, ih (by omega)⟩
      rw [get_setFrom_of_lt (by omega), get_set_self]
      rw [Word.toNat_ofNat_of_lt (by omega)]
      exact Nat.lt_succ_self origin

end Memory

/-! ## Views -/

/-- What a program sees of the machine that carries it out. -/
structure View where
  registers : Registers
  memory : Memory
  teleprinter : Teleprinter
  switches : Nat

def Machine.view (m : Machine) : View where
  registers := m.registers
  memory := m.memory
  teleprinter := m.teleprinter
  switches := m.switches

namespace View

/-- A machine that looks like this. -/
def machine (v : View) : Machine where
  registers := v.registers
  memory := v.memory
  teleprinter := v.teleprinter
  switches := v.switches

/-- What the next instruction does, if it is this operation on this address. -/
def effect (v : View) (operation : Operation) (address : Word) : Effect :=
  v.machine.advance.effect operation address

/-- What a program sees after the next instruction, if it is this operation on this address. -/
def carry (v : View) (operation : Operation) (address : Word) : View where
  registers := (v.effect operation address).registers
  memory := (v.machine.store (v.effect operation address).store).memory
  teleprinter := (v.effect operation address).teleprinter
  switches := v.switches

/-- The next instruction is this operation on this address. -/
structure Next (v : View) (operation : Operation) (address : Word) : Prop where
  decode : Instruction.decode (v.memory.get v.registers.pc) v.registers.pc = .ok operation
  address : Instruction.effectiveAddress (v.memory.get v.registers.pc) v.registers.pc v.memory =
    address

variable {v : View} {operation : Operation} {address : Word}

/-- The next instruction from the word that stands at the program counter. -/
theorem Next.of_word {i : Instruction} {pc : Word} (hpc : v.registers.pc = pc)
    (hword : v.memory.get pc = i) (hdecode : i.decode pc = .ok operation)
    (haddress : i.effectiveAddress pc v.memory = address) : v.Next operation address := by
  subst hpc hword
  exact ⟨hdecode, haddress⟩

/-- A machine that looks like this carries the next instruction out. -/
theorem Next.cycle (h : v.Next operation address) {m : Machine} (hm : m.view = v) :
    ∃ m', m.cycle = (.ok (v.effect operation address).outcome, m') ∧
      m'.view = v.carry operation address := by
  subst hm
  have hoperand : m.operand = address := h.address
  have heffect : m.nextEffect operation = m.view.effect operation address := by
    rw [Machine.nextEffect, hoperand]
    cases operation <;> rfl
  have hcycle := Machine.cycle_of_decode h.decode
  rw [heffect] at hcycle
  refine ⟨_, hcycle, ?_⟩
  rw [Machine.apply_eq, carry]
  rcases (m.view.effect operation address).store with _ | ⟨a, w⟩ <;> rfl

/-! ### Operations on a word of memory -/

variable {w : Word}

theorem carry_tad (h : v.memory.get address = w) : v.carry .tad address =
    { v with
      registers :=
        { link := (v.registers.ac.addCarry w).2
          ac := v.registers.ac + w
          pc := v.registers.pc + 1 } } := by
  subst h
  rfl

theorem carry_isz (h : v.memory.get address + 1 = w) : v.carry .isz address =
    { v with
      registers := v.registers.skip.skipIf (w == 0)
      memory := v.memory.set address w } := by
  subst h
  rfl

end View

/-! ## From view to view -/

/-- So many instructions lead from one view to another, and none of them halts. -/
inductive Leads : Nat → View → View → Prop where
  | zero (v : View) : Leads 0 v v
  | cons {n : Nat} {v v' : View} {operation : Operation} {address : Word}
      (here : v.Next operation address) (goes : (v.effect operation address).halts = false)
      (rest : Leads n (v.carry operation address) v') : Leads (n + 1) v v'

namespace Leads

variable {n k : Nat} {v v₁ v' : View} {operation : Operation} {address : Word}

theorem trans (h : Leads n v v₁) (h' : Leads k v₁ v') : Leads (n + k) v v' := by
  induction h with
  | zero v =>
      rw [Nat.zero_add]
      exact h'
  | cons here goes rest ih =>
      rw [Nat.add_right_comm]
      exact .cons here goes (ih h')

/-- One more instruction at the front, from the word that stands at the program counter. -/
theorem of_word {i : Instruction} (pc : Word) (operation : Operation) (address : Word)
    (hpc : v.registers.pc = pc) (hword : v.memory.get pc = i)
    (hdecode : i.decode pc = .ok operation)
    (haddress : i.effectiveAddress pc v.memory = address)
    (hgoes : (v.effect operation address).halts = false) (hafter : v.carry operation address = v₁)
    (rest : Leads n v₁ v') : Leads (n + 1) v v' := by
  subst hafter
  exact .cons (.of_word hpc hword hdecode haddress) hgoes rest

/-- On a machine that looks like the first view, the instructions retire. -/
theorem retires (h : Leads n v v') {m : Machine} (hm : m.view = v) :
    ∃ m', m.Retires n m' ∧ m'.view = v' := by
  induction h generalizing m with
  | zero v => exact ⟨m, .zero m, hm⟩
  | @cons n v v' operation address here goes rest ih =>
      obtain ⟨m₁, hcycle, hm₁⟩ := here.cycle hm
      rw [Effect.outcome, goes] at hcycle
      obtain ⟨m', hretires, hm'⟩ := ih hm₁
      exact ⟨m', .cons hcycle hretires, hm'⟩

/-- **A program that leads to a halt is a run that ends there**, one instruction later. -/
theorem ends (h : Leads n v v') (hnext : v'.Next operation address)
    (hhalts : (v'.effect operation address).halts = true) {m : Machine} {start : Option Nat}
    (hm : (m.seek start).view = v) :
    ∃ m', m.Ends { start } (.ok ⟨n + 1, .halted⟩) m' ∧ m'.status = .halted ∧
      m'.view = v'.carry operation address := by
  have hstart : (m.start { start }).view = v := by
    rw [Machine.start_eq]
    exact hm
  obtain ⟨m₁, hretires, hm₁⟩ := h.retires hstart
  obtain ⟨m', hcycle, hm'⟩ := hnext.cycle hm₁
  rw [Effect.outcome, hhalts] at hcycle
  have hstatus : m'.status = .halted := Machine.status_of_halted hcycle
  exact ⟨_, Machine.ends_iff_retires.mpr ⟨n, m₁, hretires, .halt hcycle⟩, hstatus, hm'⟩

end Leads

end TwelveBit
