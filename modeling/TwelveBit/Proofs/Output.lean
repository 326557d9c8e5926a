import TwelveBit.Proofs.History
import TwelveBit.Proofs.Observation
import TwelveBit.Proofs.Replay

/-!
# Output and its flag

What the teleprinter has printed, and whether its flag is set, follow from the instructions that
were carried out, as their events tell of them (`Execution`). `Teleprinter.Accounts` says how,
without a machine: which of them print and what, which of them move the flag, and which of them
skip. One instruction accounts for what it did (`Machine.accounts_of_cycle`), and accounts of one
run after another are an account of both (`Accounts.append`).

To have something printed before goes unnoticed (`Machine.unnoticed_printedBefore`). So nothing is
lost and nothing changes if the output is torn off again and again (`Machine.serveAll_taking`).
`Machine.ends_accounts` puts the two together.
-/

namespace TwelveBit

/-! ## Executions -/

/-- An instruction that was carried out, as its event tells of it. -/
structure Execution where
  pc : Word
  instruction : Instruction
  /-- The registers that it left. -/
  after : Registers
  deriving DecidableEq, Repr

/-- The instruction that an event tells of, if it tells that one was carried out. -/
def Event.execution? : Event → Option Execution
  | executed pc instruction after => some ⟨pc, instruction, after⟩
  | _ => none

namespace Execution

/-- Whether the instruction is a transfer to the teleprinter with this bit of its operation set. -/
def transfers (bit : Nat) (e : Execution) : Bool :=
  e.instruction.opcode = .iot && e.instruction.device = teleprinterDevice &&
    e.instruction.operation.getLsbD bit

/-- Whether a transfer skips if the flag is set. -/
def tests (e : Execution) : Bool := e.transfers 0

/-- Whether a transfer sets the flag or clears it. -/
def moves (e : Execution) : Bool := e.transfers 1 || e.transfers 2

/-- Whether a transfer prints a character. -/
def prints (e : Execution) : Bool := e.transfers 2 && e.after.ac != 0

/-- The character that is printed: the low seven bits of the accumulator. -/
def character (e : Execution) : Char := Char.ofNat (e.after.ac &&& 0o177).toNat

end Execution

namespace Teleprinter

/-- The flag after some instructions: set if the last one that moves it prints, and as it was if
none moves it. -/
def readyAfter (ready : Bool) (executions : List Execution) : Bool :=
  match (executions.filter Execution.moves).getLast? with
  | none => ready
  | some e => e.transfers 2

/-- These instructions account for what became of a teleprinter. -/
structure Accounts (t : Teleprinter) (executions : List Execution) (t' : Teleprinter) : Prop where
  output : t'.output = t.output ++ (executions.filter Execution.prints).map Execution.character
  ready : t'.ready = readyAfter t.ready executions
  /-- A transfer to any device goes on behind the next instruction if it tests the flag and the flag
  was set before it, and else with the next instruction. -/
  skips : ∀ earlier e later, executions = earlier ++ e :: later → e.instruction.opcode = .iot →
    e.after.pc = e.pc + if e.tests && readyAfter t.ready earlier then 2 else 1

variable {t t₁ t' : Teleprinter} {executions others : List Execution} {e : Execution}

@[simp] theorem readyAfter_nil (ready : Bool) : readyAfter ready [] = ready := rfl

theorem readyAfter_append (ready : Bool) (executions others : List Execution) :
    readyAfter ready (executions ++ others) = readyAfter (readyAfter ready executions) others := by
  unfold readyAfter
  rw [List.filter_append, List.getLast?_append]
  cases (others.filter Execution.moves).getLast? with
  | none => rfl
  | some e => rfl

theorem readyAfter_singleton (ready : Bool) (e : Execution) :
    readyAfter ready [e] = if e.moves then e.transfers 2 else ready := by
  unfold readyAfter
  cases h : e.moves <;> simp [h]

namespace Accounts

theorem nil (t : Teleprinter) : t.Accounts [] t where
  output := by simp
  ready := rfl
  skips := by
    intro earlier e later h
    simp at h

/-- Accounts of what happened first and of what happened then are an account of both. -/
theorem append (h : t.Accounts executions t₁) (h' : t₁.Accounts others t') :
    t.Accounts (executions ++ others) t' where
  output := by
    rw [h'.output, h.output, List.filter_append, List.map_append, List.append_assoc]
  ready := by
    rw [h'.ready, h.ready, readyAfter_append]
  skips := by
    intro earlier e later heq htransfer
    rcases List.append_eq_append_iff.mp heq with ⟨front, rfl, hothers⟩ | ⟨rest, hexecutions, hrest⟩
    · -- the instruction is one of the later ones
      rw [readyAfter_append, ← h.ready]
      exact h'.skips front e later hothers htransfer
    · cases rest with
      | nil =>
          -- it is the first of them
          rw [List.append_nil] at hexecutions
          have hskips := h'.skips [] e later hrest.symm htransfer
          rwa [readyAfter_nil, h.ready, hexecutions] at hskips
      | cons d rest =>
          obtain ⟨rfl, -⟩ := List.cons.inj hrest
          exact h.skips earlier e rest hexecutions htransfer

/-- What has to be seen of a single instruction. -/
theorem singleton
    (output : t'.output = t.output ++ if e.prints then [e.character] else [])
    (ready : t'.ready = if e.moves then e.transfers 2 else t.ready)
    (skips : e.instruction.opcode = .iot →
      e.after.pc = e.pc + if e.tests && t.ready then 2 else 1) : t.Accounts [e] t' where
  output := by
    rw [output]
    cases h : e.prints <;> simp [h]
  ready := by
    rw [ready, readyAfter_singleton]
  skips := by
    intro earlier e' later heq htransfer
    cases earlier with
    | nil =>
        cases heq
        exact skips htransfer
    | cons d earlier => simp at heq

end Accounts

/-! ### Transfers -/

theorem ready_transfer (operation : BitVec 3) (ac : Nat) (t : Teleprinter) :
    (t.transfer operation ac).ready =
      if operation.getLsbD 1 || operation.getLsbD 2 then operation.getLsbD 2 else t.ready := by
  unfold transfer print
  cases operation.getLsbD 1 <;> cases operation.getLsbD 2 <;> rfl

theorem character_toNat (ac : Word) : character ac.toNat = Char.ofNat (ac &&& 0o177).toNat := by
  rw [character, BitVec.toNat_and]
  exact congrArg Char.ofNat (Nat.and_two_pow_sub_one_eq_mod ac.toNat 7).symm

/-- An instruction that is no transfer to the teleprinter leaves it alone. -/
theorem accounts_of_not_transfers (h : ∀ bit, e.transfers bit = false)
    (hskips : e.instruction.opcode = .iot → e.after.pc = e.pc + 1) : t.Accounts [e] t := by
  apply Accounts.singleton
  · simp [Execution.prints, h]
  · simp [Execution.moves, h]
  · simpa [Execution.tests, h] using hskips

/-- A transfer to the teleprinter accounts for what it does. -/
theorem accounts_of_transfer (hopcode : e.instruction.opcode = .iot)
    (hdevice : e.instruction.device = teleprinterDevice)
    (hskips : e.after.pc = e.pc + if t.skips e.instruction.operation then 2 else 1) :
    t.Accounts [e] (t.transfer e.instruction.operation e.after.ac.toNat) := by
  have htransfers (bit : Nat) : e.transfers bit = e.instruction.operation.getLsbD bit := by
    simp [Execution.transfers, hopcode, hdevice]
  apply Accounts.singleton
  · rw [output_transfer, character_toNat]
    simp [Execution.prints, Execution.character, htransfers, ← BitVec.toNat_inj]
  · simp [ready_transfer, Execution.moves, htransfers]
  · intro _
    rw [hskips, skips, Execution.tests, htransfers]

/-! ### What was printed before -/

/-- The teleprinter with more printed before all that it has printed. -/
def printedBefore (text : Text) (t : Teleprinter) : Teleprinter :=
  { t with printed := text.toArray ++ t.printed }

theorem printedBefore_nil (t : Teleprinter) : t.printedBefore [] = t := by
  simp [printedBefore]

theorem output_printedBefore (text : Text) (t : Teleprinter) :
    (t.printedBefore text).output = text ++ t.output := by
  simp [printedBefore, output]

/-- A transfer only adds to what has been printed. -/
theorem transfer_printedBefore (text : Text) (t : Teleprinter) (operation : BitVec 3) (ac : Nat) :
    (t.printedBefore text).transfer operation ac =
      (t.transfer operation ac).printedBefore text := by
  unfold transfer print printedBefore
  by_cases hac : ac = 0 <;> cases operation.getLsbD 1 <;> cases operation.getLsbD 2 <;>
    simp [hac, Array.push_append]

end Teleprinter

/-! ## One instruction -/

/-- The events of a group tell of the one instruction that they belong to. -/
theorem Event.Group.filterMap_events (g : Event.Group) :
    g.events.filterMap Event.execution? = [⟨g.pc, g.instruction, g.after⟩] := by
  unfold Event.Group.events
  rcases g.store with _ | ⟨address, value⟩ <;> cases g.instruction.halts <;> rfl

/-- The counter is past the instruction, and past the next one if that is skipped. -/
theorem Registers.pc_skip_skipIf (condition : Bool) (r : Registers) :
    (r.skip.skipIf condition).pc = r.pc + if condition then 2 else 1 := by
  cases condition with
  | false => rfl
  | true => exact BitVec.add_assoc r.pc 1 1

/-- A single group that can be replayed tells of the instruction at the counter, and of the
registers that the replay ends with. -/
theorem Replay.of_singleton {memory memory' : Memory} {registers registers' : Registers}
    {g : Event.Group} (h : Replay memory registers [g] memory' registers') :
    g.pc = registers.pc ∧ g.instruction = memory.get registers.pc ∧ g.after = registers' := by
  generalize hgroups : [g] = groups at h
  cases h with
  | nil => cases hgroups
  | cons place fetched stores next =>
      cases hgroups
      refine ⟨place, ?_, ?_⟩
      · rw [← fetched, place]
      · generalize g.write memory = written at next
        generalize g.after = after at next ⊢
        cases next
        rfl

namespace Machine

variable {m m' : Machine} {k : Nat} {records : List Event}

/-- The next instruction as it is told of when it has led to another machine. -/
def execution (m m' : Machine) : Execution where
  pc := m.registers.pc
  instruction := m.fetch
  after := m'.registers

/-- A transfer to the teleprinter accounts for what it does. -/
theorem accounts_of_teleprinter (hopcode : m.fetch.opcode = .iot)
    (hdevice : m.fetch.device = teleprinterDevice)
    (hafter : m'.registers =
      m.registers.skip.skipIf (m.teleprinter.skips m.fetch.operation)) :
    m.teleprinter.Accounts [m.execution m']
      (m.teleprinter.transfer m.fetch.operation m.registers.ac.toNat) := by
  have hac : (m.execution m').after.ac = m.registers.ac := by
    show m'.registers.ac = m.registers.ac
    rw [hafter, Registers.ac_skipIf]
    rfl
  have hpc : (m.execution m').after.pc =
      m.registers.pc + if m.teleprinter.skips m.fetch.operation then 2 else 1 := by
    show m'.registers.pc = _
    rw [hafter, Registers.pc_skip_skipIf]
  rw [← hac]
  exact Teleprinter.accounts_of_transfer (e := m.execution m') hopcode hdevice hpc

/-- An instruction that is no transfer at all leaves the teleprinter alone. -/
theorem accounts_of_not_transfer (hopcode : m.fetch.opcode ≠ .iot) :
    m.teleprinter.Accounts [m.execution m'] m.teleprinter := by
  apply Teleprinter.accounts_of_not_transfers
  · intro bit
    simp [Execution.transfers, execution, hopcode]
  · intro h
    exact absurd h hopcode

/-- **An instruction accounts for what it does to the teleprinter.** -/
theorem accounts_of_cycle {outcome : Outcome} (h : m.cycle = (.ok outcome, m')) :
    m.teleprinter.Accounts [m.execution m'] m'.teleprinter := by
  cases hdecode : m.fetch.decode m.registers.pc with
  | error fault =>
      rw [cycle_of_fault hdecode] at h
      cases h
  | ok operation =>
      rw [cycle_of_decode hdecode] at h
      cases h
      rw [teleprinter_apply]
      cases Instruction.decodes_of_decode hdecode with
      | teleprinter code device => exact accounts_of_teleprinter code device (registers_apply _ _ _ _)
      | reader code device =>
          -- another device, whose flag is never set
          have hother : readerDevice ≠ teleprinterDevice := by decide
          apply Teleprinter.accounts_of_not_transfers
          · intro bit
            simp [Execution.transfers, execution, device, hother]
          · intro _
            simp only [execution, registers_apply]
            rfl
      | groupOne code group => exact accounts_of_not_transfer (by rw [code]; decide)
      | groupTwo code group => exact accounts_of_not_transfer (by rw [code]; decide)
      | _ code => exact accounts_of_not_transfer (by rw [code]; decide)

/-! ## Runs -/

/-- The events that an instruction adds account for it. -/
theorem Recording.accounts_of_cycle (hrecording : m.Recording records) {outcome : Outcome}
    (h : m.cycle = (.ok outcome, m')) :
    ∃ added, m'.Recording (records ++ added) ∧
      m.teleprinter.Accounts (added.filterMap Event.execution?) m'.teleprinter := by
  obtain ⟨g, hrecording', hreplay, -⟩ := hrecording.cycle h
  obtain ⟨hpc, hinstruction, hafter⟩ := hreplay.of_singleton
  have hexecution : (⟨g.pc, g.instruction, g.after⟩ : Execution) = m.execution m' := by
    rw [hpc, hinstruction, hafter]
    rfl
  refine ⟨g.events, hrecording', ?_⟩
  rw [Event.Group.filterMap_events, hexecution]
  exact Machine.accounts_of_cycle h

theorem Recording.accounts_of_retires (hrecording : m.Recording records) (h : Retires k m m') :
    ∃ added, m'.Recording (records ++ added) ∧
      m.teleprinter.Accounts (added.filterMap Event.execution?) m'.teleprinter := by
  induction h generalizing records with
  | zero m =>
      refine ⟨[], ?_, .nil _⟩
      rw [List.append_nil]
      exact hrecording
  | cons first rest ih =>
      obtain ⟨added, hrecording₁, haccounts⟩ := hrecording.accounts_of_cycle first
      obtain ⟨others, hrecording', haccounts'⟩ := ih hrecording₁
      refine ⟨added ++ others, ?_, ?_⟩
      · rw [← List.append_assoc]
        exact hrecording'
      · rw [List.filterMap_append]
        exact haccounts.append haccounts'

/-- The instructions that were carried out from one machine to another, as the events tell of them
that have been added, account for what became of the teleprinter. -/
def AccountsFor (m m' : Machine) : Prop :=
  ∃ added, m'.events.toList = m.events.toList ++ added ∧
    m.teleprinter.Accounts (added.filterMap Event.execution?) m'.teleprinter

/-- The events of a call account for it, however it ends. -/
theorem Recording.accountsFor_of_ends (hrecording : m.Recording records) {launch : Launch}
    {result : Except Fault Completion} (h : m.Ends launch result m') : m.AccountsFor m' := by
  have hteleprinter : (m.start launch).teleprinter = m.teleprinter := by
    obtain ⟨_ | pc, stepping⟩ := launch
    · rfl
    · rfl
  obtain ⟨n, m₁, hretires, hend⟩ := h.cases
  obtain ⟨added, hrecording₁, haccounts⟩ :=
    (hrecording.start launch).accounts_of_retires hretires
  rw [hteleprinter] at haccounts
  unfold AccountsFor
  rw [hrecording.toList]
  rcases hend with hlast | ⟨-, -, rfl⟩
  · cases hlast with
    | halt last =>
        obtain ⟨others, hrecording₂, haccounts₂⟩ := hrecording₁.accounts_of_cycle last
        refine ⟨added ++ others, ?_, ?_⟩
        · rw [← List.append_assoc]
          exact hrecording₂.toList
        · rw [List.filterMap_append]
          exact haccounts.append haccounts₂
    | fault last =>
        -- a fault comes up before anything has been done
        obtain ⟨hrecording₂, -, -⟩ := hrecording₁.cycle_fault last
        obtain ⟨-, rfl⟩ := cycle_eq_error_iff.mp last
        exact ⟨added, hrecording₂.toList, haccounts⟩
  · exact ⟨added, hrecording₁.toList, haccounts⟩

/-! ## Tearing off the output -/

/-- The machine with more printed before all that it has printed. -/
def printedBefore (m : Machine) (text : Text) : Machine :=
  { m with teleprinter := m.teleprinter.printedBefore text }

theorem printedBefore_nil (m : Machine) : m.printedBefore [] = m := by
  rw [printedBefore, Teleprinter.printedBefore_nil]

theorem effect_printedBefore (m : Machine) (text : Text) (operation : Operation)
    (address : Word) :
    (m.printedBefore text).effect operation address =
      { m.effect operation address with
        teleprinter := (m.effect operation address).teleprinter.printedBefore text } := by
  cases operation with
  | teleprinter o =>
      unfold effect printedBefore
      simp only [Teleprinter.transfer_printedBefore]
      rfl
  | _ => rfl

theorem apply_printedBefore (m : Machine) (text : Text) (e : Effect) (pc : Word)
    (i : Instruction) :
    (m.printedBefore text).apply { e with teleprinter := e.teleprinter.printedBefore text } pc i =
      (m.apply e pc i).printedBefore text := by
  rw [apply_eq, apply_eq]
  obtain ⟨registers, teleprinter, store, halts⟩ := e
  cases store <;> rfl

/-- No instruction notices what has been printed before. -/
theorem unnoticed_printedBefore (text : Text) : Unnoticed (·.printedBefore text) where
  registers _ := rfl
  memory _ := rfl
  setRegisters _ _ := rfl
  setMemory _ _ := rfl
  setStatus _ _ := rfl
  setSwitches _ _ := rfl
  note _ _ := rfl
  cycle m := by
    cases h : m.fetch.decode m.registers.pc with
    | error fault =>
        rw [cycle_of_fault h, cycle_of_fault (m := m.printedBefore text) h]
        rfl
    | ok operation =>
        rw [cycle_of_decode h, cycle_of_decode (m := m.printedBefore text) h]
        have heffect := effect_printedBefore m.advance text operation m.operand
        have hnext : (m.printedBefore text).nextEffect operation = _ := heffect
        rw [hnext]
        exact congrArg (Prod.mk _) (apply_printedBefore m.advance text _ _ _)

/-- The text that was torn off, if a request was answered by that. -/
def Reply.output? : Reply → Option Text
  | output text => some text
  | _ => none

/-- No request but one for the output is answered by it. -/
theorem output?_serve {request : Request} (h : request ≠ .takeOutput) (fuel : Nat) (m : Machine) :
    (m.serve fuel request).1.output? = none := by
  cases request with
  | takeOutput => exact absurd rfl h
  | run launch =>
      simp only [serve]
      cases m.run launch fuel <;> rfl
  | _ => rfl

/-- Requests with the output torn off again and again, and without. If more was printed before, and
nothing is torn off, then at the end there is also what was torn off. -/
theorem serveAll_printedBefore (fuel : Nat) (m : Machine) (requests : List Request) (text : Text) :
    (m.printedBefore text).serveAll fuel (requests.filter (· != .takeOutput)) =
      ((m.serveAll fuel requests).1.filter (·.output?.isNone),
        (m.serveAll fuel requests).2.printedBefore
          (text ++ ((m.serveAll fuel requests).1.filterMap Reply.output?).flatten)) := by
  induction requests generalizing m text with
  | nil =>
      simp [serveAll]
  | cons request rest ih =>
      by_cases h : request = .takeOutput
      · subst h
        have hkept : m.printedBefore text =
            { m with teleprinter := m.teleprinter.tearOff }.printedBefore
              (text ++ m.teleprinter.output) := by
          simp [printedBefore, Teleprinter.printedBefore, Teleprinter.tearOff, Teleprinter.output]
        rw [List.filter_cons_of_neg (by decide), hkept, ih]
        simp [serveAll, serve, Reply.output?]
      · have hreply := output?_serve h fuel m
        rw [List.filter_cons_of_pos (by simpa using h)]
        simp [serveAll, (unnoticed_printedBefore text).serve h, ih, hreply]

/-- The machine with its output torn off. -/
def tornOff (m : Machine) : Machine := { m with teleprinter := m.teleprinter.tearOff }

/-- Tearing off the output loses nothing and changes nothing else. -/
theorem serveAll_taking (m : Machine) (fuel : Nat) (requests : List Request) :
    let (replies, torn) := m.serveAll fuel requests
    let (others, whole) := m.serveAll fuel (requests.filter (· != .takeOutput))
    others = replies.filter (·.output?.isNone) ∧ whole.tornOff = torn.tornOff ∧
      (replies.filterMap Reply.output?).flatten ++ torn.teleprinter.output =
        whole.teleprinter.output := by
  have h := serveAll_printedBefore fuel m requests []
  rw [printedBefore_nil, List.nil_append] at h
  simp only [h]
  exact ⟨trivial, rfl, (Teleprinter.output_printedBefore _ _).symm⟩

/-- **The instructions that were carried out determine the output and the flag.** Let a machine
report its events. Every run and every step of it, whatever the options and however it ends, is
accounted for by the instructions that its events tell of. And if its output is torn off in between,
again and again, all other requests are answered alike, the machine that is left differs in its
output only, and what was torn off and what is left make up the output of the whole. -/
theorem ends_accounts {records : Array Event} (htracing : m.tracing = true)
    (hevents : m.events = .on records) :
    (∀ launch result m', m.Ends launch result m' → m.AccountsFor m') ∧
      m.AccountsFor m.step.2 ∧
      ∀ fuel requests,
        let (replies, torn) := m.serveAll fuel requests
        let (others, whole) := m.serveAll fuel (requests.filter (· != .takeOutput))
        others = replies.filter (·.output?.isNone) ∧ whole.tornOff = torn.tornOff ∧
          (replies.filterMap Reply.output?).flatten ++ torn.teleprinter.output =
            whole.teleprinter.output := by
  have hrecording : m.Recording records.toList := ⟨htracing, hevents⟩
  refine ⟨?_, ?_, m.serveAll_taking⟩
  · intro launch result m' h
    exact hrecording.accountsFor_of_ends h
  · exact hrecording.accountsFor_of_ends m.ends_step

/-- One transfer that tests the flag, clears it and prints: it skips, as the flag was set, and
prints the character of the low seven bits, which are zero here while the accumulator is not. -/
theorem ends_accounts_of_test_and_print :
    let m : Machine :=
      { registers := { ac := 0o200 }
        memory := Memory.cleared.set 0 0o6047
        teleprinter := { ready := true }
        events := .blank }
    m.tracing = true ∧ m.events = .on #[] ∧ m.AccountsFor m.step.2 ∧
      m.step.2.events.toList = [.executed 0 0o6047 { ac := 0o200, pc := 2 }] ∧
      m.step.2.teleprinter = { ready := true, printed := #[Char.ofNat 0] } := by
  intro m
  have haccounts : m.AccountsFor m.step.2 := (ends_accounts (m := m) rfl rfl).2.1
  exact ⟨rfl, rfl, haccounts, by decide +kernel, by decide +kernel⟩

end Machine

end TwelveBit
