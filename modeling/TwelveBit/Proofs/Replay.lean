import TwelveBit.Proofs.Stepping

/-!
# The events replay the run

The events of a run come in groups, one for each instruction that was carried out: its store, its
halt, and what it left in the registers. `Replay` is the relation of a list of groups to a memory
and registers that it starts from: it never asks a machine, and follows the instructions by nothing
but what their events tell. `Machine.Recounts` says that the events which a call has added are
groups that can be replayed from where the call began to where it ended.

A cycle adds one group (`Machine.recording_of_decode`), or none at a fault. `ends_recounts` is the
result for whole runs and for steps, whatever ended them.
-/

namespace TwelveBit

/-! ## Groups of events -/

/-- Whether an instruction with this code stores a word. -/
def Opcode.stores : Opcode → Bool
  | .isz => true
  | .dca => true
  | .jms => true
  | _ => false

/-- Whether an instruction halts: it is an operate instruction of the second group and has the
micro-operation for it. -/
def Instruction.halts (i : Instruction) : Bool :=
  i.opcode = .opr && i.operateGroup? = some .two && (GroupTwo.ofWord i).halt

namespace Event

/-- The events of one instruction. -/
structure Group where
  pc : Word
  instruction : Instruction
  /-- The address and the word of its store. -/
  store : Option (Word × Word)
  /-- The registers that it left. -/
  after : Registers

namespace Group

/-- The events in their order: the store, the halt, and that the instruction was carried out. -/
def events (g : Group) : List Event :=
  (g.store.toList.map fun (address, value) => .stored address value) ++
    (if g.instruction.halts then [.halted g.after.pc] else []) ++
    [.executed g.pc g.instruction g.after]

/-- Memory after the store of a group. -/
def write (g : Group) (memory : Memory) : Memory :=
  match g.store with
  | none => memory
  | some (address, value) => memory.set address value

end Group

end Event

/-- Following groups of events from a memory and registers to those at their end. Each group tells
of the instruction that memory, as it is by then, holds at the program counter, and has a store
exactly if that instruction stores a word. -/
inductive Replay : Memory → Registers → List Event.Group → Memory → Registers → Prop where
  | nil (memory : Memory) (registers : Registers) : Replay memory registers [] memory registers
  | cons {memory memory' : Memory} {registers registers' : Registers} {g : Event.Group}
      {rest : List Event.Group} (place : g.pc = registers.pc)
      (fetched : memory.get g.pc = g.instruction)
      (stores : g.store.isSome = g.instruction.opcode.stores)
      (next : Replay (g.write memory) g.after rest memory' registers') :
      Replay memory registers (g :: rest) memory' registers'

theorem Replay.append {memory memory₁ memory₂ : Memory} {registers registers₁ registers₂ : Registers}
    {groups groups' : List Event.Group} (h : Replay memory registers groups memory₁ registers₁)
    (h' : Replay memory₁ registers₁ groups' memory₂ registers₂) :
    Replay memory registers (groups ++ groups') memory₂ registers₂ := by
  induction h with
  | nil memory registers => exact h'
  | cons place fetched stores next ih => exact .cons place fetched stores (ih h')

namespace Machine

variable {m m' : Machine} {operation : Operation} {records : List Event}
  {result : Except Fault Completion} {k : Nat}

/-! ## One cycle -/

/-- What the bits of an instruction say about its effect. -/
theorem stores_halts_of_decode (h : m.fetch.decode m.registers.pc = .ok operation) :
    (m.nextEffect operation).store.isSome = m.fetch.opcode.stores ∧
      (m.nextEffect operation).halts = m.fetch.halts := by
  rw [Instruction.halts]
  cases Instruction.decodes_of_decode h with
  | reader code device => rw [code]; exact ⟨rfl, rfl⟩
  | teleprinter code device => rw [code]; exact ⟨rfl, rfl⟩
  | groupOne code group => rw [code, group]; exact ⟨rfl, rfl⟩
  | groupTwo code group => rw [code, group]; exact ⟨rfl, (Bool.true_and _).symm⟩
  | _ code => rw [code]; exact ⟨rfl, rfl⟩

/-- A machine that reports events and has these on its tape. -/
structure Recording (m : Machine) (records : List Event) : Prop where
  tracing : m.tracing = true
  events : m.events = .on records.toArray

theorem Recording.toList (h : m.Recording records) : m.events.toList = records := by
  rw [h.events]
  rfl

/-- The events of the next instruction, if it is carried out as this operation. -/
def nextGroup (m : Machine) (operation : Operation) : Event.Group where
  pc := m.registers.pc
  instruction := m.fetch
  store := (m.nextEffect operation).store
  after := (m.nextEffect operation).registers

theorem events_nextGroup (h : m.fetch.decode m.registers.pc = .ok operation) :
    (m.nextEffect operation).events m.registers.pc m.fetch = (m.nextGroup operation).events := by
  rw [Effect.events, (stores_halts_of_decode h).2]
  rfl

theorem write_nextGroup (m : Machine) (operation : Operation) :
    (m.nextGroup operation).write m.memory =
      (m.advance.store (m.nextEffect operation).store).memory := by
  rw [Event.Group.write, nextGroup]
  rcases (m.nextEffect operation).store with _ | ⟨address, value⟩ <;> rfl

/-- An instruction that is carried out can be replayed from its group, whose events are reported if
events are. -/
theorem exists_group_of_cycle {outcome : Outcome} (h : m.cycle = (.ok outcome, m')) :
    ∃ g : Event.Group, Replay m.memory m.registers [g] m'.memory m'.registers ∧
      (g.instruction.halts = true ↔ outcome = .halted) ∧ m'.tracing = m.tracing ∧
      m'.events = if m.tracing then g.events.foldl .push m.events else m.events := by
  cases hdecode : m.fetch.decode m.registers.pc with
  | error fault => rw [cycle_of_fault hdecode] at h; cases h
  | ok operation =>
      rw [cycle_of_decode hdecode] at h
      cases h
      obtain ⟨hstores, hhalts⟩ := stores_halts_of_decode hdecode
      refine ⟨m.nextGroup operation, .cons rfl rfl hstores ?_, ?_, ?_, ?_⟩
      · rw [memory_apply, registers_apply, write_nextGroup]
        exact .nil _ _
      · show m.fetch.halts = true ↔ _
        rw [← hhalts, Effect.outcome]
        cases (m.nextEffect operation).halts <;> simp
      · rw [apply_eq]
        rfl
      · rw [apply_eq, events_nextGroup hdecode]
        rfl

/-- An instruction that is carried out adds its group, and can be replayed from it. -/
theorem Recording.cycle {outcome : Outcome} (hrecording : m.Recording records)
    (h : m.cycle = (.ok outcome, m')) :
    ∃ g : Event.Group, m'.Recording (records ++ g.events) ∧
      Replay m.memory m.registers [g] m'.memory m'.registers ∧
      (g.instruction.halts = true ↔ outcome = .halted) := by
  obtain ⟨g, hreplay, hhalts, htracing, hevents⟩ := exists_group_of_cycle h
  refine ⟨g, ⟨htracing.trans hrecording.tracing, ?_⟩, hreplay, hhalts⟩
  rw [hevents, hrecording.tracing, hrecording.events, if_pos rfl]
  exact Tape.foldl_push_on _ _

/-- A fault adds no event, and leaves memory and all but the program counter. -/
theorem Recording.cycle_fault {fault : Fault} (hrecording : m.Recording records)
    (h : m.cycle = (.error fault, m')) :
    m'.Recording records ∧ m'.memory = m.memory ∧ m'.registers = m.registers.skip := by
  cases hdecode : m.fetch.decode m.registers.pc with
  | error fault =>
      rw [cycle_of_fault hdecode] at h
      cases h
      exact ⟨⟨hrecording.tracing, hrecording.events⟩, rfl, rfl⟩
  | ok operation => rw [cycle_of_decode hdecode] at h; cases h

/-- Cycles that retire add a group each, and none of them halts. -/
theorem Recording.retires (hrecording : m.Recording records) (h : Retires k m m') :
    ∃ groups : List Event.Group, groups.length = k ∧
      (∀ g ∈ groups, g.instruction.halts = false) ∧
      m'.Recording (records ++ groups.flatMap Event.Group.events) ∧
      Replay m.memory m.registers groups m'.memory m'.registers := by
  -- on the cycles; the first group is put in front of those of the others
  induction h generalizing records with
  | zero m =>
      refine ⟨[], rfl, List.forall_mem_nil _, ?_, .nil _ _⟩
      rw [List.flatMap_nil, List.append_nil]
      exact hrecording
  | cons first rest ih =>
      obtain ⟨g, hrecording₁, hreplay, hhalts⟩ := hrecording.cycle first
      obtain ⟨groups, hlength, hgroups, hrecording', hreplay'⟩ := ih hrecording₁
      refine ⟨g :: groups, congrArg (· + 1) hlength, List.forall_mem_cons.mpr ⟨?_, hgroups⟩, ?_,
        hreplay.append hreplay'⟩
      · exact Bool.eq_false_iff.mpr fun h => by cases hhalts.mp h
      · rw [List.flatMap_cons, ← List.append_assoc]
        exact hrecording'

/-! ## Whole calls -/

/-- The events that a call has added recount it. They are groups that can be replayed from the
memory and the registers before the call to those after it. Only the last instruction may halt, and
it does so exactly if the call answers that it has halted.

At a fault the groups tell of the steps before it, and the program counter has moved on once
more. -/
def Recounts (m : Machine) (result : Except Fault Completion) (m' : Machine) : Prop :=
  ∃ groups last,
    m'.events.toList = m.events.toList ++ groups.flatMap Event.Group.events ∧
    Replay m.memory m.registers groups m'.memory last ∧
    match result with
    | .ok completion =>
      groups.length = completion.steps ∧ m'.registers = last ∧
        ∃ earlier g, groups = earlier ++ [g] ∧ (∀ g ∈ earlier, g.instruction.halts = false) ∧
          (g.instruction.halts = true ↔ completion.last = .halted)
    | .error fault =>
      m'.registers = last.skip ∧ (∀ g ∈ groups, g.instruction.halts = false) ∧
        ∃ m'', m.StepsTo groups.length (.error fault) m''

theorem Recording.seek (h : m.Recording records) (start : Option Nat) :
    (m.seek start).Recording records := by
  cases start <;> exact ⟨h.tracing, h.events⟩

theorem Recording.start (h : m.Recording records) (launch : Launch) :
    (m.start launch).Recording records := by
  rw [start_eq]
  exact ⟨(h.seek launch.start).tracing, (h.seek launch.start).events⟩

/-- A run recounts from where it was started. -/
theorem Recording.recounts (hrecording : m.Recording records) {launch : Launch}
    (h : m.Ends launch result m') : (m.seek launch.start).Recounts result m' := by
  obtain ⟨k, m₁, hretires, hend⟩ := h.cases
  obtain ⟨groups, hlength, hhalts, hrecording₁, hreplay⟩ :=
    (hrecording.start launch).retires hretires
  have hstart := start_eq launch m
  rw [hstart] at hreplay
  rw [Recounts, (hrecording.seek launch.start).toList]
  rcases hend with hlast | ⟨rfl, rfl, rfl⟩
  · have hsteps := (tracks_start m launch).retires_closes_iff.mp ⟨m₁, m', hretires, hlast, rfl⟩
    cases hlast with
    | @halt m₂ last =>
        obtain ⟨g, hrecording₂, hreplay₂, hg⟩ := hrecording₁.cycle last
        refine ⟨groups ++ [g], m₂.registers, ?_, hreplay.append hreplay₂, ?_, rfl, groups, g, rfl,
          hhalts, hg⟩
        · rw [List.flatMap_append, List.flatMap_singleton, ← List.append_assoc]
          exact hrecording₂.toList
        · rw [List.length_append, hlength]
          rfl
    | fault last =>
        obtain ⟨hrecording₂, hmemory, hregisters⟩ := hrecording₁.cycle_fault last
        obtain ⟨-, m'', hsteps, -⟩ := hsteps
        refine ⟨groups, m₁.registers, hrecording₂.toList, ?_, hregisters, hhalts, m'', ?_⟩
        · rw [hmemory]
          exact hreplay
        · rw [hlength]
          exact hsteps
  · obtain ⟨g, rfl⟩ := List.length_eq_one_iff.mp hlength
    refine ⟨[g], m₁.registers, hrecording₁.toList, hreplay, rfl, rfl, [], g, rfl,
      List.forall_mem_nil _, ?_⟩
    rw [hhalts g List.mem_cons_self]
    exact iff_of_false Bool.false_ne_true (fun h => by cases h)

/-- **The events replay the run.** Let a machine report its events. Every run and every step of it,
whatever the options and however it ends, is recounted by the events that it has added. -/
theorem ends_recounts {records : Array Event} (htracing : m.tracing = true)
    (hevents : m.events = .on records) :
    (∀ launch result m', m.Ends launch result m' →
      (m.seek launch.start).Recounts result m') ∧
    m.Recounts (m.step.1.map fun last => ⟨1, last⟩) m.step.2 := by
  have hrecording : m.Recording records.toList := ⟨htracing, hevents⟩
  exact ⟨fun launch result m' h => hrecording.recounts h, hrecording.recounts m.ends_step⟩

/-- A deposit overwrites the instruction after it by a halt, which the run then comes to. -/
theorem ends_recounts_of_overwritten_instruction :
    let m : Machine :=
      { registers := { ac := 0o7402 }
        memory := (Memory.cleared.set 0 0o3001).set 1 0o6777
        events := .blank }
    m.tracing = true ∧ m.events = .on #[] ∧
      ∃ m', m.Ends {} (.ok ⟨2, .halted⟩) m' ∧ m.Recounts (.ok ⟨2, .halted⟩) m' ∧
        m'.events.toList =
          [.stored 1 0o7402, .executed 0 0o3001 { pc := 1 }, .halted 2,
            .executed 1 0o7402 { pc := 2 }] := by
  intro m
  let m₁ := (m.start {}).cycle.2
  have hok {answer : Except Fault Outcome} {outcome : Outcome}
      (h : answer.toOption = some outcome) : answer = .ok outcome := by
    cases answer with
    | error fault => cases h
    | ok _ => exact congrArg Except.ok (Option.some.inj h)
  have hfirst : (m.start {}).cycle.1 = .ok .retired := hok (by decide +kernel)
  have hlast : m₁.cycle.1 = .ok .halted := hok (by decide +kernel)
  have hevents : (m₁.cycle.2.noteHalt 2).events.toList =
      [.stored 1 0o7402, .executed 0 0o3001 { pc := 1 }, .halted 2,
        .executed 1 0o7402 { pc := 2 }] := by decide +kernel
  have hends : m.Ends {} (.ok ⟨2, .halted⟩) (m₁.cycle.2.noteHalt 2) :=
    ends_iff_retires.mpr ⟨1, m₁, .cons (Prod.ext hfirst rfl) (.zero m₁),
      .halt (Prod.ext hlast rfl)⟩
  exact ⟨rfl, rfl, _, hends, (ends_recounts (m := m) rfl rfl).1 {} _ _ hends, hevents⟩

end Machine

end TwelveBit
