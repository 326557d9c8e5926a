import TwelveBit.Proofs.Execution

/-!
# What an instruction accesses

An instruction reads the word at the program counter. An indirect memory reference also reads its
pointer, and all memory references but the jump work on the word at their address.
`Machine.accesses` is the list of these addresses, for the instruction that a machine has come to.

No other word of memory plays a part in the instruction: with another word there, it does the same
(`Machine.cycle_withWord`). So a word that none of a number of steps accesses cannot influence them,
also if they change the program on their way (`Machine.nthStep_withWord`).
-/

namespace TwelveBit

theorem Memory.set_comm {a b : Word} (m : Memory) (h : a ≠ b) (v w : Word) :
    (m.set a v).set b w = (m.set b w).set a v := by
  apply ext_get
  intro c
  simp only [get_set]
  by_cases hb : c = b
  · subst hb
    simp [h.symm]
  · simp [hb]

/-! ## Instructions that have an address -/

/-- Whether an instruction with this code reads or stores the word at its address. A jump goes there
and leaves the word alone. -/
def Opcode.usesWord : Opcode → Bool
  | .and => true
  | .tad => true
  | .isz => true
  | .dca => true
  | .jms => true
  | _ => false

namespace Operation

def usesWord : Operation → Bool
  | .and => true
  | .tad => true
  | .isz => true
  | .dca => true
  | .jms => true
  | _ => false

/-- Whether an operation acts on an address. -/
def isMemoryReference : Operation → Bool
  | .jmp => true
  | operation => operation.usesWord

end Operation

/-- An operation is carried out on memory as its operation code says. -/
theorem Instruction.uses_of_decode {i : Instruction} {pc : Word} {operation : Operation}
    (h : i.decode pc = .ok operation) :
    operation.isMemoryReference = i.opcode.isMemoryReference ∧
      operation.usesWord = i.opcode.usesWord := by
  cases decodes_of_decode h with
  | reader code device => rw [code]; exact ⟨rfl, rfl⟩
  | teleprinter code device => rw [code]; exact ⟨rfl, rfl⟩
  | groupOne code group => rw [code]; exact ⟨rfl, rfl⟩
  | groupTwo code group => rw [code]; exact ⟨rfl, rfl⟩
  | _ code => rw [code]; exact ⟨rfl, rfl⟩

namespace Machine

variable {m : Machine} {x w : Word} {operation : Operation}

/-- The addresses of the words that the next instruction reads or stores: its own, that of its
pointer if it is an indirect memory reference, and the one that it works on. -/
def accesses (m : Machine) : List Word :=
  m.registers.pc ::
    ((if m.fetch.opcode.isMemoryReference && m.fetch.indirect then
        [m.fetch.direct m.registers.pc]
      else []) ++
      if m.fetch.opcode.usesWord then [m.operand] else [])

theorem not_mem_accesses_iff : x ∉ m.accesses ↔
    m.registers.pc ≠ x ∧
    (m.fetch.opcode.isMemoryReference = true → m.fetch.indirect = true →
      m.fetch.direct m.registers.pc ≠ x) ∧
    (m.fetch.opcode.usesWord = true → m.operand ≠ x) := by
  unfold accesses
  cases m.fetch.opcode.isMemoryReference <;> cases m.fetch.indirect <;>
    cases m.fetch.opcode.usesWord <;> simp [eq_comm]

/-- The machine with another word at an address. -/
def withWord (m : Machine) (x w : Word) : Machine := { m with memory := m.memory.set x w }

/-! ## One instruction -/

/-- What an operation does depends on no other word than the one that it works on. -/
theorem effect_withWord {address : Word} (h : operation.usesWord = true → address ≠ x) :
    (m.withWord x w).effect operation address = m.effect operation address := by
  cases operation with
  | and => simp only [effect, withWord, Memory.get_set_of_ne (h rfl)]
  | tad => simp only [effect, withWord, Memory.get_set_of_ne (h rfl)]
  | isz => simp only [effect, withWord, Memory.get_set_of_ne (h rfl)]
  | _ => rfl

/-- An operation that is no memory reference does not look at the address. -/
theorem effect_of_not_memoryReference (h : operation.isMemoryReference = false)
    (address address' : Word) : m.effect operation address = m.effect operation address' := by
  cases operation with
  | reader o => rfl
  | teleprinter o => rfl
  | groupOne micro => rfl
  | groupTwo micro => rfl
  | _ => cases h

/-- A store goes to the word that the operation works on. -/
theorem store_effect {address a v : Word}
    (h : (m.effect operation address).store = some (a, v)) :
    operation.usesWord = true ∧ a = address := by
  cases operation with
  | isz => cases h; exact ⟨rfl, rfl⟩
  | dca => cases h; exact ⟨rfl, rfl⟩
  | jms => cases h; exact ⟨rfl, rfl⟩
  | _ => cases h

theorem fetch_withWord (h : x ∉ m.accesses) : (m.withWord x w).fetch = m.fetch :=
  Memory.get_set_of_ne (not_mem_accesses_iff.mp h).1 w

/-- A memory reference follows the same pointer to the same address. -/
theorem operand_withWord (h : x ∉ m.accesses) (hop : m.fetch.opcode.isMemoryReference = true) :
    (m.withWord x w).operand = m.operand := by
  obtain ⟨-, hpointer, -⟩ := not_mem_accesses_iff.mp h
  unfold operand Instruction.effectiveAddress
  rw [fetch_withWord h]
  split
  · next hindirect => exact Memory.get_set_of_ne (hpointer hop hindirect) w
  · rfl

theorem nextEffect_withWord (h : x ∉ m.accesses)
    (hdecode : m.fetch.decode m.registers.pc = .ok operation) :
    (m.withWord x w).nextEffect operation = m.nextEffect operation := by
  obtain ⟨hreference, huses⟩ := Instruction.uses_of_decode hdecode
  obtain ⟨-, -, hword⟩ := not_mem_accesses_iff.mp h
  have hcongr : (m.withWord x w).advance.effect operation m.operand = m.nextEffect operation := by
    apply effect_withWord (m := m.advance)
    intro h
    exact hword (huses.symm.trans h)
  cases hop : operation.isMemoryReference with
  | true =>
      rw [nextEffect, operand_withWord h (hreference.symm.trans hop), hcongr]
  | false =>
      -- the other operations do not look at the address, which a pointer may have changed
      rw [nextEffect, effect_of_not_memoryReference hop _ m.operand, hcongr]

/-- A store goes to a word that the instruction accesses. -/
theorem ne_of_store_nextEffect (h : x ∉ m.accesses)
    (hdecode : m.fetch.decode m.registers.pc = .ok operation) {a v : Word}
    (hstore : (m.nextEffect operation).store = some (a, v)) : a ≠ x := by
  obtain ⟨huses, rfl⟩ := store_effect hstore
  obtain ⟨-, -, hword⟩ := not_mem_accesses_iff.mp h
  apply hword
  rw [← huses, (Instruction.uses_of_decode hdecode).2]

theorem get_store {store : Option (Word × Word)} (h : ∀ a v, store = some (a, v) → a ≠ x) :
    (m.store store).memory.get x = m.memory.get x := by
  rcases store with _ | ⟨a, v⟩
  · rfl
  · exact Memory.get_set_of_ne (h a v rfl).symm v

theorem store_withWord {store : Option (Word × Word)} (h : ∀ a v, store = some (a, v) → a ≠ x) :
    ((m.withWord x w).store store).memory = (m.store store).memory.set x w := by
  rcases store with _ | ⟨a, v⟩
  · rfl
  · exact Memory.set_comm m.memory (h a v rfl).symm w v

theorem apply_withWord {e : Effect} (h : ∀ a v, e.store = some (a, v) → a ≠ x) (pc : Word)
    (i : Instruction) : (m.withWord x w).apply e pc i = (m.apply e pc i).withWord x w := by
  rw [apply_eq, apply_eq, store_withWord h]
  rfl

/-- **A word that an instruction does not access plays no part in it.** The instruction answers the
same and does the same whatever the word is, and leaves it as it is. -/
theorem cycle_withWord (h : x ∉ m.accesses) (w : Word) :
    (m.withWord x w).cycle = (m.cycle.1, m.cycle.2.withWord x w) ∧
      m.cycle.2.memory.get x = m.memory.get x := by
  have hfetch := fetch_withWord (w := w) h
  cases hdecode : m.fetch.decode m.registers.pc with
  | error fault =>
      rw [cycle_of_fault hdecode, cycle_of_fault (m := m.withWord x w) (hfetch ▸ hdecode)]
      exact ⟨rfl, rfl⟩
  | ok operation =>
      have hstore (a v : Word) (hstore : (m.nextEffect operation).store = some (a, v)) : a ≠ x :=
        ne_of_store_nextEffect h hdecode hstore
      rw [cycle_of_decode hdecode, cycle_of_decode (m := m.withWord x w) (hfetch ▸ hdecode),
        nextEffect_withWord h hdecode, hfetch]
      refine ⟨?_, ?_⟩
      · exact congrArg (Prod.mk _) (apply_withWord (m := m.advance) hstore _ _)
      · rw [memory_apply]
        exact get_store (m := m.advance) hstore

/-! ## Steps -/

/-- A step is a cycle of a machine that has begun a run, and accesses the same. -/
theorem step_withWord (h : x ∉ m.accesses) (w : Word) :
    (m.withWord x w).step = (m.step.1, m.step.2.withWord x w) ∧
      m.step.2.memory.get x = m.memory.get x := by
  obtain ⟨hcycle, hget⟩ := cycle_withWord (m := m.start { stepping := true }) h w
  have hstart : (m.withWord x w).start { stepping := true } =
      (m.start { stepping := true }).withWord x w := rfl
  unfold step single
  rw [hstart, hcycle]
  rcases hm : (m.start { stepping := true }).cycle with ⟨_ | _ | _, m₁⟩ <;> rw [hm] at hget
  · exact ⟨rfl, hget⟩
  · exact ⟨rfl, hget⟩
  · exact ⟨rfl, hget⟩

/-- Steps that do not access a word lead to the same machine whatever the word is. -/
theorem afterSteps_withWord {n : Nat} (h : ∀ i < n, x ∉ (m.afterSteps i).accesses) (w : Word) :
    (m.withWord x w).afterSteps n = (m.afterSteps n).withWord x w ∧
      (m.afterSteps n).memory.get x = m.memory.get x := by
  induction n generalizing m with
  | zero => exact ⟨rfl, rfl⟩
  | succ n ih =>
      obtain ⟨hfirst, hget⟩ := step_withWord (m := m) (h 0 n.succ_pos) w
      obtain ⟨hrest, hget'⟩ := ih (m := m.step.2) fun i hi => h (i + 1) (Nat.succ_lt_succ hi)
      refine ⟨?_, hget'.trans hget⟩
      rw [afterSteps, hfirst]
      exact hrest

/-- **Memory that is never touched cannot influence a run.** Take any number of steps, whatever they
answer, and an address that none of them accesses. With another word there, each of the steps gives
the same answer and leaves the same machine, its accounts included, but for that word; and both
machines still have the word that they began with. -/
theorem nthStep_withWord {n : Nat} (h : ∀ i < n, x ∉ (m.afterSteps i).accesses) (w : Word) :
    ∀ i < n, ((m.withWord x w).nthStep i).1 = (m.nthStep i).1 ∧
      ((m.withWord x w).nthStep i).2 = (m.nthStep i).2.withWord x w ∧
      (m.nthStep i).2.memory.get x = m.memory.get x ∧
      ((m.withWord x w).nthStep i).2.memory.get x = w := by
  intro i hi
  have hbefore (j : Nat) (hj : j < i) : x ∉ (m.afterSteps j).accesses := h j (Nat.lt_trans hj hi)
  obtain ⟨hmachine, hget⟩ := afterSteps_withWord hbefore w
  obtain ⟨hstep, hget'⟩ := step_withWord (h i hi) w
  have heq : (m.withWord x w).nthStep i = ((m.nthStep i).1, (m.nthStep i).2.withWord x w) := by
    unfold nthStep
    rw [hmachine, hstep]
  rw [heq]
  refine ⟨rfl, rfl, hget'.trans hget, ?_⟩
  exact Memory.get_set_self _ x w

/-- A pointer is incremented and then jumped through. The word that it points to by then is where
the program goes on, and no step has accessed it so far. -/
theorem nthStep_withWord_of_jump :
    let m : Machine :=
      { memory := ((Memory.cleared.set 0 0o2002).set 1 0o5402).set 2 0o4, events := .blank }
    (∀ i < 2, (5 : Word) ∉ (m.afterSteps i).accesses) ∧
      ((m.withWord 5 0o7402).nthStep 1).2 = (m.nthStep 1).2.withWord 5 0o7402 ∧
      (m.nthStep 1).2.registers.pc = 5 ∧ (m.nthStep 1).2.memory.get 5 = 0 := by
  intro m
  have huntouched : ∀ i < 2, (5 : Word) ∉ (m.afterSteps i).accesses := by decide +kernel
  obtain ⟨-, hmachine, hget, -⟩ := nthStep_withWord huntouched 0o7402 1 (by decide)
  refine ⟨huntouched, hmachine, by decide +kernel, hget.trans (by decide +kernel)⟩

end Machine

end TwelveBit
