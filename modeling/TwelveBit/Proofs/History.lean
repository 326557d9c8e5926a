import TwelveBit.Machine.Request
import TwelveBit.Proofs.Faulting

/-!
# Histories

A history is a list of requests, each of which is answered before the next is made. Whatever it is,
and whatever numbers it brings in from outside, the machine stays a machine of twelve bits
(`Machine.Bounded`), and its status is the one that the last answer to a run or a step tells
(`Reply.status?`).

Most of this is so because the machine is made of words. What has to be shown is `Machine.Sound`:
the teleprinter prints seven bits of a character, and a latched fault is the fault of some word. A
cycle keeps a machine sound (`Sound.cycle`), hence a whole run does, and hence every request.
-/

namespace TwelveBit

/-- The numbers that an event tells. -/
def Event.numbers : Event → List Nat
  | executed pc i after => [pc.toNat, i.toNat, after.ac.toNat, after.pc.toNat]
  | stored address value => [address.toNat, value.toNat]
  | halted pc => [pc.toNat]

/-- The status of a machine whose last instruction has ended like this. -/
def Outcome.status : Outcome → Status
  | retired => .stopped
  | halted => .halted

namespace Machine

/-- The status that an answer tells, if it is the answer to a run or a step. -/
def Reply.status? : Reply → Option Status
  | ran (.ok completion) => some completion.last.status
  | stepped (.ok outcome) => some outcome.status
  | ran (.error fault) => some (.faulted fault)
  | stepped (.error fault) => some (.faulted fault)
  | _ => none

/-- No number of a machine is too large: words and addresses have twelve bits, devices six and
characters seven. -/
structure Bounded (m : Machine) : Prop where
  size : m.memory.toList.length = 4096
  words : ∀ w ∈ m.memory.toList, w.toNat ≤ 0o7777
  pc : m.registers.pc.toNat ≤ 0o7777
  ac : m.registers.ac.toNat ≤ 0o7777
  printed : ∀ c ∈ m.teleprinter.output, c.toNat < 128
  events : ∀ e ∈ m.events.toList, ∀ n ∈ e.numbers, n ≤ 0o7777
  fault : ∀ fault, m.status = .faulted fault →
    fault.pc ≤ 0o7777 ∧ fault.instruction ≤ 0o7777 ∧ ∀ device ∈ fault.device?, device ≤ 0o77

/-- What requests keep true of a machine, beyond that it is made of words. -/
structure Sound (m : Machine) : Prop where
  printed : ∀ c ∈ m.teleprinter.output, c.toNat < 128
  latched : ∀ fault, m.status = .faulted fault →
    ∃ pc word : Word, Fault.of? pc.toNat word.toNat = some fault

variable {m m' : Machine} {fault : Fault} {result : Except Fault Completion} {k : Nat}

/-! ## A sound machine is bounded -/

/-- The device of a fault is a field of its word. -/
theorem device_le_of_of? {pc word : Nat} (h : Fault.of? pc word = some fault) :
    ∀ device ∈ fault.device?, device ≤ 0o77 := by
  have hdevice : word / 8 % 64 ≤ 0o77 := Nat.le_of_lt_succ (Nat.mod_lt _ (by decide))
  rw [Fault.of?] at h
  split at h
  · cases h
    intro device hmem
    cases hmem
    exact hdevice
  · split at h <;> cases h
    intro device hmem
    cases hmem

theorem Sound.bounded (h : m.Sound) : m.Bounded := by
  have hword (w : Word) : w.toNat ≤ 0o7777 := Nat.le_of_lt_succ w.isLt
  refine ⟨Vector.length_toList, fun w _ => hword w, hword _, hword _, h.printed, ?_, ?_⟩
  · intro e he n hn
    cases e with
    | executed pc i after =>
      simp only [Event.numbers, List.mem_cons, List.not_mem_nil, or_false] at hn
      rcases hn with rfl | rfl | rfl | rfl <;> exact hword _
    | stored address value =>
      simp only [Event.numbers, List.mem_cons, List.not_mem_nil, or_false] at hn
      rcases hn with rfl | rfl <;> exact hword _
    | halted pc =>
      rw [List.mem_singleton.mp hn]
      exact hword pc
  · intro fault hfault
    obtain ⟨pc, word, hof⟩ := h.latched fault hfault
    obtain ⟨hpc, hinstruction⟩ := Fault.of?_eq_some hof
    exact ⟨hpc ▸ hword pc, hinstruction ▸ hword word, device_le_of_of? hof⟩

/-! ## What keeps a machine sound -/

/-- A number prints the character of its low seven bits. -/
theorem toNat_character (ac : Nat) : (Teleprinter.character ac).toNat = ac % 128 := by
  have hlt : ac % 128 < 128 := Nat.mod_lt _ (by decide)
  rw [Teleprinter.character, Char.ofNat, dif_pos (Or.inl (by omega))]
  rfl

/-- Only a transfer to the teleprinter moves it. -/
theorem teleprinter_effect (m : Machine) (operation : Operation) (address : Word) :
    (m.effect operation address).teleprinter = match operation with
      | .teleprinter o => m.teleprinter.transfer o m.registers.ac.toNat
      | _ => m.teleprinter := by
  cases operation <;> rfl

/-- What an instruction prints has seven bits. -/
theorem printed_effect (h : ∀ c ∈ m.teleprinter.output, c.toNat < 128) (operation : Operation)
    (address : Word) : ∀ c ∈ (m.effect operation address).teleprinter.output, c.toNat < 128 := by
  rw [teleprinter_effect]
  cases operation with
  | teleprinter o =>
      simp only [Teleprinter.output_transfer, List.forall_mem_append]
      refine ⟨h, ?_⟩
      split
      · rw [List.forall_mem_singleton, toNat_character]
        exact Nat.mod_lt _ (by decide)
      · exact List.forall_mem_nil _
  | _ => exact h

/-- A cycle keeps a machine sound. -/
theorem Sound.cycle (h : m.Sound) : m.cycle.2.Sound := by
  cases hdecode : m.fetch.decode m.registers.pc with
  | error fault =>
      rw [cycle_of_fault hdecode]
      refine ⟨h.printed, fun fault' hfault => ⟨m.registers.pc, m.fetch, ?_⟩⟩
      cases hfault
      exact Instruction.decode_eq_error_iff.mp hdecode
  | ok operation =>
      rw [cycle_of_decode hdecode, apply_eq]
      refine ⟨printed_effect (m := m.advance) h.printed operation m.operand, fun fault hfault => ?_⟩
      dsimp only at hfault
      split at hfault
      · cases hfault
      · exact h.latched fault hfault

theorem Sound.retires (h : m.Sound) (hretires : Retires k m m') : m'.Sound := by
  induction hretires with
  | zero m => exact h
  | cons first rest ih =>
      have hfirst := h.cycle
      rw [first] at hfirst
      exact ih hfirst

/-- The status and what has been printed are all that soundness asks about. -/
theorem Sound.of_eq (h : m.Sound) (hprinted : m'.teleprinter.output = m.teleprinter.output)
    (hstatus : ∀ fault, m'.status = .faulted fault → m.status = .faulted fault) : m'.Sound :=
  ⟨hprinted ▸ h.printed, fun fault hfault => h.latched fault (hstatus fault hfault)⟩

theorem Sound.start (h : m.Sound) (launch : Launch) : (m.start launch).Sound := by
  obtain ⟨_ | pc, stepping⟩ := launch
  · exact h.of_eq rfl (fun fault hfault => by cases hfault)
  · exact h.of_eq rfl (fun fault hfault => by cases hfault)

/-- A run keeps a machine sound, and its answer tells the status. -/
theorem Sound.ends (h : m.Sound) {launch : Launch} (hends : m.Ends launch result m') :
    m'.Sound ∧ (Reply.ran result).status? = some m'.status := by
  obtain ⟨k, m₁, hretires, hlast⟩ := hends.cases
  have h₁ := (h.start launch).retires hretires
  rcases hlast with hlast | ⟨-, rfl, rfl⟩
  · cases hlast with
    | @halt m₂ last =>
        have h₂ := h₁.cycle
        rw [last] at h₂
        exact ⟨h₂.of_eq rfl (fun fault hfault => hfault),
          congrArg some (status_of_halted last).symm⟩
    | fault last =>
        have h₂ := h₁.cycle
        rw [last] at h₂
        exact ⟨h₂, congrArg some (frozenAt_of_cycle last).latched.symm⟩
  · exact ⟨h₁.of_eq rfl (fun fault hfault => by cases hfault), rfl⟩

/-! ## Requests -/

/-- A request that is answered keeps a machine sound, and leaves the status that its answer tells,
or the one that was there if it tells none. -/
theorem Sound.serve (h : m.Sound) {fuel : Nat} {request : Request} {reply : Reply}
    (hserve : m.serve fuel request = (reply, m')) (hreply : ∀ steps, reply ≠ .unfinished steps) :
    m'.Sound ∧ m'.status = reply.status?.getD m.status := by
  cases request with
  | run launch =>
      rw [Machine.serve] at hserve
      cases hrun : m.run launch fuel with
      | finished result m₁ =>
          rw [hrun] at hserve
          cases hserve
          obtain ⟨hsound, hstatus⟩ := h.ends ⟨fuel, hrun⟩
          rw [hstatus]
          exact ⟨hsound, rfl⟩
      | unfinished steps m₁ =>
          rw [hrun] at hserve
          cases hserve
          exact absurd rfl (hreply steps)
  | step =>
      obtain ⟨rfl, rfl⟩ : .stepped m.step.1 = reply ∧ m.step.2 = m' := Prod.mk.inj hserve
      obtain ⟨hsound, hstatus⟩ := h.ends m.ends_step
      refine ⟨hsound, ?_⟩
      cases hanswer : m.step.1 <;> rw [hanswer] at hstatus <;>
        exact (Option.some.inj hstatus).symm
  | takeOutput =>
      cases hserve
      exact ⟨⟨List.forall_mem_nil _, h.latched⟩, rfl⟩
  | _ =>
      -- these requests leave the teleprinter and the status alone
      cases hserve
      exact ⟨h.of_eq rfl (fun fault hfault => hfault), rfl⟩

theorem serve_of_run {fuel : Nat} {launch : Launch} (h : m.run launch fuel = .finished result m') :
    m.serve fuel (.run launch) = (.ran result, m') := by
  rw [serve, h]

/-- A history is one request and then the others. -/
theorem serveAll_of_serve {m₁ : Machine} {fuel : Nat} {request : Request} {reply : Reply}
    {rest : List Request} {replies : List Reply} (hfirst : m.serve fuel request = (reply, m₁))
    (hrest : m₁.serveAll fuel rest = (replies, m')) :
    m.serveAll fuel (request :: rest) = (reply :: replies, m') := by
  rw [serveAll, hfirst]
  dsimp only
  rw [hrest]

/-- A status that an answer tells is never that of a machine in the middle of a run. -/
theorem ne_running_of_status? {reply : Reply} {status : Status} (h : reply.status? = some status) :
    status ≠ .running := by
  rcases reply with _ | _ | (_ | ⟨_, _ | _⟩) | (_ | _ | _) | _ <;> cases h <;>
    exact Status.noConfusion

/-- A history keeps a machine sound, and leaves the status that its last answer to a run or a step
tells. -/
theorem Sound.serveAll (h : m.Sound) {fuel : Nat} {requests : List Request} {replies : List Reply}
    (hserve : m.serveAll fuel requests = (replies, m'))
    (hreplies : ∀ steps, .unfinished steps ∉ replies) :
    m'.Sound ∧ m'.status = (replies.filterMap Reply.status?).getLast?.getD m.status := by
  induction requests generalizing m replies with
  | nil =>
      cases hserve
      exact ⟨h, rfl⟩
  | cons request rest ih =>
      rw [Machine.serveAll] at hserve
      rcases hfirst : m.serve fuel request with ⟨reply, m₁⟩
      rcases hrest : m₁.serveAll fuel rest with ⟨others, m₂⟩
      rw [hfirst] at hserve
      dsimp only at hserve
      rw [hrest] at hserve
      cases hserve
      have hreply (steps : Nat) : reply ≠ .unfinished steps := by
        rintro rfl
        exact hreplies steps List.mem_cons_self
      obtain ⟨h₁, hstatus₁⟩ := h.serve hfirst hreply
      obtain ⟨h₂, hstatus₂⟩ := ih h₁ hrest fun steps hmem =>
        hreplies steps (List.mem_cons_of_mem _ hmem)
      refine ⟨h₂, ?_⟩
      rw [hstatus₂, hstatus₁, List.filterMap_cons]
      cases reply.status? with
      | none => rfl
      | some status => rw [List.getLast?_cons, Option.getD_some, Option.getD_some]

/-- **Whatever is asked of it, a machine stays a machine of twelve bits.** Take a new machine, with
any number on its switches and with its tapes on or off, and a history of any requests with any
numbers in which every run ends. The machine after it is bounded, it is not running, and it is
stopped, halted or faulted as the last answer to a run or a step tells; before any such answer it is
stopped. -/
theorem serveAll_bounded {switches fuel : Nat} {tracing : Bool} {events : Tape Event}
    {journal : Tape Record} {requests : List Request} {replies : List Reply}
    (h : serveAll fuel { switches, tracing, events, journal } requests = (replies, m'))
    (hreplies : ∀ steps, .unfinished steps ∉ replies) :
    m'.Bounded ∧ m'.status ≠ .running ∧
      m'.status = (replies.filterMap Reply.status?).getLast?.getD .stopped := by
  have hnew : Sound { switches, tracing, events, journal } :=
    ⟨List.forall_mem_nil _, fun fault hfault => by cases hfault⟩
  obtain ⟨hsound, hstatus⟩ := hnew.serveAll h hreplies
  refine ⟨hsound.bounded, ?_, hstatus⟩
  rw [hstatus]
  cases hlast : (replies.filterMap Reply.status?).getLast? with
  | none => exact Status.noConfusion
  | some status =>
      obtain ⟨reply, -, hreply⟩ := List.mem_filterMap.mp (List.mem_of_getLast? hlast)
      exact ne_running_of_status? hreply

/-- Numbers of more than twelve bits, in the switches and from outside: they name the last word of
memory, and put an instruction there that reads the switches and halts. Then the output is torn
off. -/
theorem serveAll_bounded_of_large_numbers :
    ∃ replies m',
      serveAll 1 { switches := 0o17777 }
        [.edit (.write 0o17777 0o17406), .setPc 0o17777, .run {}, .takeOutput] = (replies, m') ∧
      (∀ steps, .unfinished steps ∉ replies) ∧
      m'.Bounded ∧ m'.registers = { ac := 0o7777 } ∧ m'.status = .halted := by
  let m : Machine :=
    { switches := 0o17777
      memory := Memory.cleared.edit (.write 0o17777 0o17406)
      registers := { pc := Word.ofNat 0o17777 } }
  have hfetch : (m.start {}).fetch = 0o7406 := by
    show (Memory.cleared.set (Word.ofNat 0o17777) (Word.ofNat 0o17406)).get (Word.ofNat 0o17777) = _
    rw [Memory.get_set, if_pos rfl]
    rfl
  have hdecode : (m.start {}).fetch.decode (m.start {}).registers.pc =
      .ok (.groupTwo (.ofWord 0o7406)) := by
    rw [hfetch]
    rfl
  obtain ⟨m₁, hrun, hregisters, hteleprinter⟩ : ∃ m₁, m.run {} 1 = .finished (.ok ⟨1, .halted⟩) m₁ ∧
      m₁.registers = { ac := 0o7777 } ∧ m₁.teleprinter = {} :=
    ⟨_, resume_of_closes (.halt (cycle_of_decode hdecode)),
      (registers_apply _ _ _ _).trans (by decide), (teleprinter_apply _ _ _ _).trans rfl⟩
  have hlast : m₁.serveAll 1 [.takeOutput] = ([.output []], { m₁ with teleprinter := {} }) := by
    rw [serveAll, serve, hteleprinter]
    rfl
  have hserve : serveAll 1 { switches := 0o17777 }
      [.edit (.write 0o17777 0o17406), .setPc 0o17777, .run {}, .takeOutput] =
        ([.done, .done, .ran (.ok ⟨1, .halted⟩), .output []], { m₁ with teleprinter := {} }) :=
    serveAll_of_serve rfl (serveAll_of_serve rfl (serveAll_of_serve (serve_of_run hrun) hlast))
  have hreplies : ∀ steps, .unfinished steps ∉
      [Reply.done, .done, .ran (.ok ⟨1, .halted⟩), .output []] := by
    simp
  obtain ⟨hbounded, -, hstatus⟩ := serveAll_bounded hserve hreplies
  exact ⟨_, _, hserve, hreplies, hbounded, hregisters, hstatus⟩

end Machine

end TwelveBit
