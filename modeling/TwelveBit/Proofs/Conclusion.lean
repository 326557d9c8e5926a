import TwelveBit.Proofs.Output

/-!
# How a run concludes

A run that may carry out a limited number of instructions is taken step by step, and one without a
limit is a run of the loop. `Machine.Concludes` is the relation that both come to: the steps that
retire before it, and then a halt, a fault, or the limit. It has one outcome
(`Concludes.unique`) for a limit or none, and a limit always has one (`exists_concludes`).

What happened before a run concluded can be told by groups of events, one for each instruction that
was carried out, whether they are reported or not. `Machine.Tells` is what such groups tell of the
machine that is left: its memory and registers, what was printed, and its tape. It holds of one
instruction (`exists_tells_of_cycle`) and is put together by `Tells.append`.
-/

namespace TwelveBit

/-- The instruction that a group of events tells of. -/
def Event.Group.execution (g : Event.Group) : Execution := ⟨g.pc, g.instruction, g.after⟩

namespace Machine

variable {m m₁ m₂ m' : Machine} {k j n : Nat} {answer answer' : Except Fault Outcome}
  {limit : Option Nat}

/-! ## Steps that retire -/

/-- The first `n` steps retire. -/
def AllRetire (m : Machine) (n : Nat) : Prop := ∀ i < n, (m.nthStep i).1 = .ok .retired

theorem allRetire_succ :
    m.AllRetire (n + 1) ↔ m.step.1 = .ok .retired ∧ m.step.2.AllRetire n := by
  constructor
  · intro h
    exact ⟨h 0 n.succ_pos, fun i hi => h (i + 1) (Nat.succ_lt_succ hi)⟩
  · rintro ⟨hfirst, hrest⟩ i hi
    cases i with
    | zero => exact hfirst
    | succ i => exact hrest i (Nat.lt_of_succ_lt_succ hi)

/-- Steps come to an end within a limit, or all of them retire. -/
theorem exists_stepsTo_or_allRetire (m : Machine) (n : Nat) :
    (∃ k < n, ∃ answer m', m.StepsTo k answer m' ∧ answer ≠ .ok .retired) ∨ m.AllRetire n := by
  induction n with
  | zero => exact .inr fun i hi => absurd hi (Nat.not_lt_zero i)
  | succ n ih =>
      rcases ih with ⟨k, hk, hend⟩ | hretire
      · exact .inl ⟨k, Nat.lt_succ_of_lt hk, hend⟩
      · by_cases hlast : (m.nthStep n).1 = .ok .retired
        · refine .inr fun i hi => ?_
          rcases Nat.lt_succ_iff_lt_or_eq.mp hi with hlt | rfl
          · exact hretire i hlt
          · exact hlast
        · exact .inl ⟨n, n.lt_succ_self, _, _, ⟨hretire, rfl⟩, hlast⟩

/-- Steps that all retire do not come to an end among them. -/
theorem StepsTo.le_of_allRetire (h : m.StepsTo k answer m') (hanswer : answer ≠ .ok .retired)
    (hretire : m.AllRetire n) : n ≤ k := by
  refine Nat.le_of_not_lt fun hlt => ?_
  have hretired := hretire k hlt
  rw [h.2] at hretired
  exact hanswer hretired

/-- Steps come to one end. -/
theorem StepsTo.unique (h : m.StepsTo k answer m₁) (hanswer : answer ≠ .ok .retired)
    (h' : m.StepsTo j answer' m₂) (hanswer' : answer' ≠ .ok .retired) :
    k = j ∧ answer = answer' ∧ m₁ = m₂ := by
  obtain rfl := Nat.le_antisymm (h'.le_of_allRetire hanswer' h.1) (h.le_of_allRetire hanswer h'.1)
  exact ⟨rfl, Prod.mk.inj (h.2.symm.trans h'.2)⟩

/-! ### The status -/

theorem status_of_step_retired (h : m.step = (.ok .retired, m')) : m'.status = .stopped := by
  rw [step, single] at h
  split at h <;> cases h
  rfl

theorem status_of_step_halted (h : m.step = (.ok .halted, m')) : m'.status = .halted := by
  rw [step, single] at h
  split at h <;> cases h
  next m₁ hcycle =>
      have hstatus : m₁.status = .halted := status_of_halted hcycle
      exact hstatus

/-- Steps that retire leave a machine stopped that was stopped before. -/
theorem AllRetire.status (h : m.AllRetire n) (hstatus : m.status = .stopped) :
    (m.afterSteps n).status = .stopped := by
  induction n generalizing m with
  | zero => exact hstatus
  | succ n ih =>
      obtain ⟨hfirst, hrest⟩ := allRetire_succ.mp h
      exact ih hrest (status_of_step_retired (Prod.ext hfirst rfl))

/-- The loop carries out what steps that retire do. -/
theorem AllRetire.exists_retires {l : Machine} (h : m.AllRetire n) (htracks : Tracks l m) :
    ∃ l', Retires n l l' ∧ Tracks l' (m.afterSteps n) := by
  induction n generalizing l m with
  | zero => exact ⟨l, .zero l, htracks⟩
  | succ n ih =>
      obtain ⟨hfirst, hrest⟩ := allRetire_succ.mp h
      rcases htracks.next with
        ⟨l₁, m₁, hl, hm, hnext⟩ | ⟨l₁, m₁, -, hm, -⟩ | ⟨fault, l₁, m₁, -, hm, -⟩
      · rw [hm] at hrest
        obtain ⟨l', hretires, htracks'⟩ := ih hrest hnext
        refine ⟨l', .cons hl hretires, ?_⟩
        rw [afterSteps, hm]
        exact htracks'
      · rw [hm] at hfirst
        cases hfirst
      · rw [hm] at hfirst
        cases hfirst

/-! ## Steps up to a limit -/

theorem extend_of_stepsTo (h : m.StepsTo k answer m') (hanswer : answer ≠ .ok .retired)
    (hk : k < n) (count : Nat) (last : Option (Except Fault Outcome)) :
    Steps.extend n ⟨count, last, m⟩ = ⟨count + k + 1, some answer, m'⟩ := by
  -- on the steps that retire, each of which takes one from the limit
  induction n generalizing k m count last with
  | zero => exact absurd hk (Nat.not_lt_zero k)
  | succ n ih =>
      cases k with
      | zero =>
          rw [stepsTo_zero] at h
          rw [Steps.extend, h]
          split
          · next hretired => exact absurd (congrArg Prod.fst hretired) hanswer
          · next hstep =>
              cases hstep
              rfl
      | succ k =>
          obtain ⟨hfirst, hrest⟩ := stepsTo_succ.mp h
          have hstep : m.step = (.ok .retired, m.step.2) := Prod.ext hfirst rfl
          rw [Steps.extend, hstep]
          refine (ih hrest (Nat.lt_of_succ_lt_succ hk) (count + 1) _).trans ?_
          rw [Nat.add_right_comm count 1 k, Nat.add_assoc count k 1]

theorem extend_of_allRetire (h : m.AllRetire n) (count : Nat)
    (last : Option (Except Fault Outcome)) :
    Steps.extend n ⟨count, last, m⟩ =
      ⟨count + n, if n = 0 then last else some (.ok .retired), m.afterSteps n⟩ := by
  induction n generalizing m count last with
  | zero => rfl
  | succ n ih =>
      obtain ⟨hfirst, hrest⟩ := allRetire_succ.mp h
      have hstep : m.step = (.ok .retired, m.step.2) := Prod.ext hfirst rfl
      rw [Steps.extend, hstep]
      refine (ih hrest (count + 1) _).trans ?_
      rw [ite_self, if_neg n.succ_ne_zero, Nat.add_right_comm]
      rfl

/-- Steps that come to an end within their limit. -/
theorem stepUpTo_of_stepsTo (h : m.StepsTo k answer m') (hanswer : answer ≠ .ok .retired)
    (hk : k < n) : m.stepUpTo n = ⟨k + 1, some answer, m'⟩ := by
  rw [stepUpTo, extend_of_stepsTo h hanswer hk, Nat.zero_add]

/-- Steps that are taken up to their limit. -/
theorem stepUpTo_of_allRetire (h : m.AllRetire n) : m.stepUpTo n =
    ⟨n, if n = 0 then none else some (.ok .retired), m.afterSteps n⟩ := by
  rw [stepUpTo, extend_of_allRetire h, Nat.zero_add]

/-! ## Conclusions -/

/-- How a run concludes. -/
inductive Ending where
  | halted
  | faulted (fault : Fault)
  /-- The instructions that it may carry out are used up. -/
  | exhausted
  deriving DecidableEq, Repr

/-- The registers that are left, when these are left by the instructions that were carried out. A
fault has moved the program counter on once more. -/
def Ending.leave : Ending → Registers → Registers
  | faulted _, r => r.skip
  | _, r => r

/-- A run from where the machine stands, with a limit or without, concludes like this, after so many
instructions have been carried out, and leaves this machine. -/
inductive Concludes (m : Machine) (limit : Option Nat) : Ending → Nat → Machine → Prop where
  | halted {k : Nat} {m' : Machine} (steps : m.StepsTo k (.ok .halted) m')
      (within : ∀ n ∈ limit, k < n) : Concludes m limit .halted (k + 1) m'
  /-- The instruction that faults is not carried out, but it counts for the limit. -/
  | faulted {k : Nat} {fault : Fault} {m' : Machine} (steps : m.StepsTo k (.error fault) m')
      (within : ∀ n ∈ limit, k < n) : Concludes m limit (.faulted fault) k m'
  | exhausted {n : Nat} (bound : limit = some n) (retire : m.AllRetire n) :
      Concludes m limit .exhausted n (m.afterSteps n)

theorem halted_ne_retired : (.ok .halted : Except Fault Outcome) ≠ .ok .retired := by
  intro h
  cases h

theorem error_ne_retired (fault : Fault) :
    (.error fault : Except Fault Outcome) ≠ .ok .retired := by
  intro h
  cases h

/-- Without a limit there is room for every instruction. -/
theorem within_none (k : Nat) : ∀ n ∈ (none : Option Nat), k < n := by
  intro n h
  cases h

/-- Steps that come to an end within the limit are a conclusion. -/
theorem StepsTo.exists_concludes (h : m.StepsTo k answer m') (hanswer : answer ≠ .ok .retired)
    (within : ∀ n ∈ limit, k < n) : ∃ ending j, m.Concludes limit ending j m' := by
  rcases answer with fault | _ | _
  · exact ⟨_, _, .faulted h within⟩
  · exact absurd rfl hanswer
  · exact ⟨_, _, .halted h within⟩

/-- Steps that come to an end within the limit do not use it up. -/
theorem StepsTo.not_allRetire (h : m.StepsTo k answer m') (hanswer : answer ≠ .ok .retired)
    (within : ∀ n ∈ limit, k < n) (bound : limit = some n) : ¬ m.AllRetire n := by
  intro hretire
  exact Nat.not_lt.mpr (h.le_of_allRetire hanswer hretire) (within n bound)

/-- With a limit every run concludes. -/
theorem exists_concludes (m : Machine) (n : Nat) :
    ∃ ending k m', m.Concludes (some n) ending k m' := by
  rcases m.exists_stepsTo_or_allRetire n with ⟨k, hk, answer, m', hsteps, hanswer⟩ | hretire
  · have hwithin : ∀ n' ∈ some n, k < n' := by
      rintro n' ⟨⟩
      exact hk
    obtain ⟨ending, j, hconcludes⟩ := hsteps.exists_concludes hanswer hwithin
    exact ⟨ending, j, m', hconcludes⟩
  · exact ⟨_, _, _, .exhausted rfl hretire⟩

/-- A run has one conclusion. -/
theorem Concludes.unique {ending ending' : Ending} (h : m.Concludes limit ending k m₁)
    (h' : m.Concludes limit ending' j m₂) : ending = ending' ∧ k = j ∧ m₁ = m₂ := by
  cases h with
  | halted steps within =>
      cases h' with
      | halted steps' within' =>
          obtain ⟨rfl, -, rfl⟩ := steps.unique halted_ne_retired steps' halted_ne_retired
          exact ⟨rfl, rfl, rfl⟩
      | faulted steps' within' =>
          obtain ⟨-, hanswer, -⟩ :=
            steps.unique halted_ne_retired steps' (error_ne_retired _)
          cases hanswer
      | exhausted bound retire =>
          exact absurd retire (steps.not_allRetire halted_ne_retired within bound)
  | faulted steps within =>
      cases h' with
      | halted steps' within' =>
          obtain ⟨-, hanswer, -⟩ :=
            steps.unique (error_ne_retired _) steps' halted_ne_retired
          cases hanswer
      | faulted steps' within' =>
          obtain ⟨rfl, hanswer, rfl⟩ :=
            steps.unique (error_ne_retired _) steps' (error_ne_retired _)
          cases hanswer
          exact ⟨rfl, rfl, rfl⟩
      | exhausted bound retire =>
          exact absurd retire (steps.not_allRetire (error_ne_retired _) within bound)
  | exhausted bound retire =>
      cases h' with
      | halted steps' within' =>
          exact absurd retire (steps'.not_allRetire halted_ne_retired within' bound)
      | faulted steps' within' =>
          exact absurd retire (steps'.not_allRetire (error_ne_retired _) within' bound)
      | exhausted bound' retire' =>
          cases bound.symm.trans bound'
          exact ⟨rfl, rfl, rfl⟩

/-! ## What the groups tell -/

/-- Groups of events tell of the instructions that were carried out from one machine to another. Its
memory and registers are where the groups can be replayed to, its teleprinter is what the
instructions account for, and their events are on its tape if it reports events. -/
structure Tells (m : Machine) (groups : List Event.Group) (m' : Machine) : Prop where
  replay : Replay m.memory m.registers groups m'.memory m'.registers
  prints : m.teleprinter.Accounts (groups.map Event.Group.execution) m'.teleprinter
  tracing : m'.tracing = m.tracing
  events : m'.events =
    if m.tracing then (groups.flatMap Event.Group.events).foldl .push m.events else m.events

namespace Tells

theorem nil (m : Machine) : m.Tells [] m where
  replay := .nil _ _
  prints := .nil _
  tracing := rfl
  events := (ite_self _).symm

theorem append {groups others : List Event.Group} (h : m.Tells groups m₁)
    (h' : m₁.Tells others m') : m.Tells (groups ++ others) m' where
  replay := h.replay.append h'.replay
  prints := by
    rw [List.map_append]
    exact h.prints.append h'.prints
  tracing := h'.tracing.trans h.tracing
  events := by
    rw [h'.events, h.events, h.tracing, List.flatMap_append, List.foldl_append]
    split <;> rfl

/-- A machine in the loop is told of by what tells of the steps beside it. -/
theorem of_tracks {groups : List Event.Group} {l : Machine} (h : m.Tells groups m')
    (htracks : Tracks l m') : m.Tells groups l := by
  have hsame : l.withoutJournal = { m' with status := .running }.withoutJournal := htracks
  have hregisters : l.registers = m'.registers := (congrArg registers hsame :)
  have hmemory : l.memory = m'.memory := (congrArg memory hsame :)
  have hteleprinter : l.teleprinter = m'.teleprinter := (congrArg teleprinter hsame :)
  have htracing : l.tracing = m'.tracing := (congrArg Machine.tracing hsame :)
  have hevents : l.events = m'.events := (congrArg Machine.events hsame :)
  constructor
  · rw [hmemory, hregisters]
    exact h.replay
  · rw [hteleprinter]
    exact h.prints
  · rw [htracing]
    exact h.tracing
  · rw [hevents]
    exact h.events

end Tells

/-- An instruction that is carried out is told of by one group. -/
theorem exists_tells_of_cycle {outcome : Outcome} (h : m.cycle = (.ok outcome, m')) :
    ∃ g : Event.Group, m.Tells [g] m' ∧ (g.instruction.halts = true ↔ outcome = .halted) := by
  obtain ⟨g, hreplay, hhalts, htracing, hevents⟩ := exists_group_of_cycle h
  obtain ⟨hpc, hinstruction, hafter⟩ := hreplay.of_singleton
  have hexecution : g.execution = m.execution m' := by
    rw [Event.Group.execution, hpc, hinstruction, hafter]
    rfl
  refine ⟨g, ⟨hreplay, ?_, htracing, ?_⟩, hhalts⟩
  · rw [List.map_singleton, hexecution]
    exact accounts_of_cycle h
  · rw [List.flatMap_singleton]
    exact hevents

/-- So is a step that does not fault. -/
theorem exists_tells_of_step {outcome : Outcome} (h : m.step = (.ok outcome, m')) :
    ∃ g : Event.Group, m.Tells [g] m' ∧ (g.instruction.halts = true ↔ outcome = .halted) := by
  rw [step, single] at h
  split at h <;> cases h
  all_goals
    next hcycle =>
      -- the status and the journal are all that a step sets besides
      obtain ⟨g, htells, hhalts⟩ := exists_tells_of_cycle hcycle
      exact ⟨g, ⟨htells.replay, htells.prints, htells.tracing, htells.events⟩, hhalts⟩

/-- Steps that retire are told of by a group each, and none of these halts. -/
theorem AllRetire.exists_tells (h : m.AllRetire n) :
    ∃ groups : List Event.Group, groups.length = n ∧ m.Tells groups (m.afterSteps n) ∧
      ∀ g ∈ groups, g.instruction.halts = false := by
  induction n generalizing m with
  | zero => exact ⟨[], rfl, .nil m, List.forall_mem_nil _⟩
  | succ n ih =>
      obtain ⟨hfirst, hrest⟩ := allRetire_succ.mp h
      obtain ⟨g, htells, hhalts⟩ := exists_tells_of_step (Prod.ext hfirst rfl)
      obtain ⟨groups, hlength, htells', hgroups⟩ := ih hrest
      refine ⟨g :: groups, congrArg (· + 1) hlength, htells.append htells',
        List.forall_mem_cons.mpr ⟨?_, hgroups⟩⟩
      exact Bool.eq_false_iff.mpr fun h => by cases hhalts.mp h

/-- A step that faults leaves everything that the groups tell of, but for the program counter. -/
theorem step_fault {fault : Fault} (h : m.step = (.error fault, m')) :
    m'.memory = m.memory ∧ m'.registers = m.registers.skip ∧ m'.teleprinter = m.teleprinter ∧
      m'.events = m.events := by
  rw [step, single] at h
  split at h <;> cases h
  next hcycle =>
      obtain ⟨-, rfl⟩ := cycle_eq_error_iff.mp hcycle
      exact ⟨rfl, rfl, rfl, rfl⟩

/-- Of groups that do not halt and one more that does, the last one halts and no other. -/
theorem halts_iff_of_concat {groups : List Event.Group} {g : Event.Group}
    (hgroups : ∀ g ∈ groups, g.instruction.halts = false) (hg : g.instruction.halts = true)
    {i : Nat} {g' : Event.Group} (h : (groups ++ [g])[i]? = some g') :
    g'.instruction.halts = true ↔ i = groups.length := by
  rcases Nat.lt_or_ge i groups.length with hlt | hge
  · rw [List.getElem?_append_left hlt] at h
    rw [hgroups g' (List.mem_of_getElem? h)]
    exact iff_of_false Bool.false_ne_true (Nat.ne_of_lt hlt)
  · rw [List.getElem?_append_right hge, List.getElem?_singleton] at h
    split at h
    · next hzero =>
        cases h
        exact iff_of_true hg (Nat.le_antisymm (Nat.sub_eq_zero_iff_le.mp hzero) hge)
    · cases h

/-- What was carried out before a run concluded is told of by a group for each instruction. Only the
last of them may halt, and it does so exactly if the run concludes by a halt. The machine that is
left is the one that the groups tell of, but for the program counter at a fault. -/
theorem Concludes.exists_tells {ending : Ending} (h : m.Concludes limit ending k m') :
    ∃ (groups : List Event.Group) (last : Machine), groups.length = k ∧ m.Tells groups last ∧
      (∀ i g, groups[i]? = some g →
        (g.instruction.halts = true ↔ ending = .halted ∧ i + 1 = k)) ∧
      m'.memory = last.memory ∧ m'.teleprinter = last.teleprinter ∧ m'.events = last.events ∧
      m'.registers = ending.leave last.registers := by
  -- before the last instruction none halts
  have hnone {ending : Ending} {groups : List Event.Group}
      (hgroups : ∀ g ∈ groups, g.instruction.halts = false) (hending : ending ≠ .halted)
      (i : Nat) (g : Event.Group) (hg : groups[i]? = some g) :
      g.instruction.halts = true ↔ ending = .halted ∧ i + 1 = k := by
    rw [hgroups g (List.mem_of_getElem? hg)]
    exact iff_of_false Bool.false_ne_true fun h => hending h.1
  cases h with
  | halted steps within =>
      obtain ⟨groups, hlength, htells, hgroups⟩ := AllRetire.exists_tells steps.1
      obtain ⟨g, htells', hhalts⟩ := exists_tells_of_step steps.2
      refine ⟨groups ++ [g], m', ?_, htells.append htells', ?_, rfl, rfl, rfl, rfl⟩
      · rw [List.length_append, hlength]
        rfl
      · intro i g' hg'
        rw [halts_iff_of_concat hgroups (hhalts.mpr rfl) hg', hlength, Nat.add_right_cancel_iff]
        exact (and_iff_right rfl).symm
  | faulted steps within =>
      obtain ⟨groups, hlength, htells, hgroups⟩ := AllRetire.exists_tells steps.1
      obtain ⟨hmemory, hregisters, hteleprinter, hevents⟩ := step_fault steps.2
      refine ⟨groups, _, hlength, htells, hnone hgroups ?_, hmemory, hteleprinter, hevents,
        hregisters⟩
      intro h
      cases h
  | exhausted bound retire =>
      obtain ⟨groups, hlength, htells, hgroups⟩ := retire.exists_tells
      refine ⟨groups, _, hlength, htells, hnone hgroups ?_, rfl, rfl, rfl, rfl⟩
      intro h
      cases h

end Machine

end TwelveBit
