import Mathlib.Data.List.Nodup
import TwelveBit.Proofs.Joining

/-!
# Which operate instructions have a spelling

`Instruction.operateNames?` spells a word bit by bit and gives up on three kinds of word: a rotation
by two places that rotates to neither side, a word of the second group with no bit of it set or with
none but `CLA`, and a word of neither group. It is right to give up: no names whatever are joined to
such a word (`exists_operateNames?`). In the first group only the rotations by two places have the
bit that doubles them. In the second group every name but `CLA` has a bit of its own below it, and a
row of nothing but `CLA` is read in the first group.

A spelling names every micro-operation once (`GroupOne.nodup_names?`, `GroupTwo.nodup_names?`).
-/

namespace TwelveBit

open Mnemonic

/-- Names are selected once each if no two choices have the same. -/
theorem Mnemonic.nodup_select {choices : List (Bool × String)} (h : (choices.map (·.2)).Nodup) :
    (select choices).Nodup := by
  have hchosen : ((choices.filter (·.1)).map (·.2)).Nodup :=
    h.sublist (List.filter_sublist.map _)
  have hselect : select choices = ((choices.filter (·.1)).map (·.2)).map String.toList := by
    rw [select, List.map_map]
    rfl
  rw [hselect]
  exact hchosen.map fun _ _ => String.toList_inj.mp

/-! ## The first group -/

namespace GroupOne

variable {m : GroupOne}

theorem names?_eq_none_iff :
    m.names? = none ↔ m.twice = true ∧ m.right = false ∧ m.left = false := by
  unfold names?
  split
  · next h => simpa [and_assoc] using h
  · next h => simpa [and_assoc] using h

theorem nodup_names? {names : List Text} (h : m.names? = some names) : names.Nodup := by
  obtain ⟨-, rfl⟩ := of_names? h
  split
  · exact List.nodup_singleton _
  · apply nodup_select
    cases htwice : m.twice with
    | false => simp [choices, htwice]
    | true => simp [choices, htwice]

end GroupOne

/-! ## The second group -/

namespace GroupTwo

variable {m : GroupTwo}

theorem names?_eq_none_iff : m.names? = none ↔
    m.sign = false ∧ m.zero = false ∧ m.link = false ∧ m.opposite = false ∧
      m.switches = false ∧ m.halt = false := by
  constructor
  · intro h
    rw [names?_eq, ite_eq_left_iff] at h
    have hnames := not_imp_comm.mp h (by simp)
    -- nothing but `CLA` is chosen
    have hchosen : ∀ c ∈ (m.tests ++ m.actions).map (·.1), c.1 = true →
        c.2.toList = "CLA".toList := by
      intro c hc hc'
      have hmem := mem_select hc hc'
      rcases hnames with hnil | hlone
      · rw [hnil] at hmem
        cases hmem
      · rw [hlone] at hmem
        exact List.mem_singleton.mp hmem
    rcases m.tests_cases with ⟨hopposite, htested, htests⟩ | ⟨hopposite, -, htests⟩ |
      ⟨hopposite, htests⟩
    · simp [htests, actions] at hchosen
      simp [hchosen] at htested
    · simp [htests, actions] at hchosen
    · simp [htests, actions] at hchosen
      simp [hchosen, hopposite]
  · rintro ⟨hsign, hzero, hlink, hopposite, hswitches, hhalt⟩
    cases hclear : m.clear with
    | false => simp [names?, testNames, select, *]
    | true => simp [names?, testNames, select, *]

theorem nodup_names? {names : List Text} (h : m.names? = some names) : names.Nodup := by
  obtain ⟨rfl, -⟩ := of_names? h
  apply nodup_select
  rcases m.tests_cases with ⟨-, -, htests⟩ | ⟨-, -, htests⟩ | ⟨-, htests⟩
  all_goals simp [htests, actions]

end GroupTwo

/-! ## Words and their spellings -/

namespace Instruction

variable {i : Instruction} {names : List Text}

/-- **A word that some names are joined to has a spelling.** -/
theorem exists_operateNames? (h : operateWord? names = some i) :
    ∃ spelling, i.operateNames? = some spelling := by
  obtain ⟨group, hread, hw, -, hgroup⟩ := group_of_operateWord? h
  unfold operateNames?
  rw [hgroup, ← Option.ne_none_iff_exists']
  intro hnone
  cases hread with
  | one _ _ =>
      -- the bit that doubles a rotation comes with a rotation
      have htable : ∀ entry ∈ groupOne, entry.2.getLsbD 1 = true →
          entry.2.getLsbD 3 = true ∨ entry.2.getLsbD 2 = true := by decide
      obtain ⟨htwice, hright, hleft⟩ := GroupOne.names?_eq_none_iff.mp hnone
      obtain ⟨entry, hentry, hname, hbit⟩ := (hw 1).mp htwice
      rcases htable entry hentry hbit with hbit | hbit
      · exact Bool.eq_false_iff.mp hright (hw.getLsbD_of_mem hentry hname hbit)
      · exact Bool.eq_false_iff.mp hleft (hw.getLsbD_of_mem hentry hname hbit)
  | two _ htwo hnot =>
      -- a name that the first group does not have comes with a bit that is not `CLA`
      have htable : ∀ entry ∈ groupTwo, groupOne.Has entry.1 ∨
          ∃ k ∈ [6, 5, 4, 3, 2, 1], entry.2.getLsbD k = true := by decide
      simp only [not_forall] at hnot
      obtain ⟨name, hname, hother⟩ := hnot
      obtain ⟨v, hv⟩ := htwo name hname
      obtain ⟨k, hk, hbit⟩ := (htable _ hv).resolve_left hother
      have hi := hw.getLsbD_of_mem hv hname hbit
      obtain ⟨hsign, hzero, hlink, hopposite, hswitches, hhalt⟩ :=
        GroupTwo.names?_eq_none_iff.mp hnone
      have hclear : ∀ k ∈ [6, 5, 4, 3, 2, 1], i.getLsbD k = false := by
        simp only [List.forall_mem_cons]
        exact ⟨hsign, hzero, hlink, hopposite, hswitches, hhalt, List.forall_mem_nil _⟩
      rw [hclear k hk] at hi
      cases hi

theorem nodup_operateNames? (h : i.operateNames? = some names) : names.Nodup := by
  unfold operateNames? at h
  split at h
  · cases h
  · exact GroupOne.nodup_names? h
  · exact GroupTwo.nodup_names? h

/-- **A word is spelled exactly if it can be.** The spelling of an operate instruction is one or
more names, none of them twice, that are joined to the instruction; and if it has no spelling, then
no names are joined to it, however many they are and in whatever order. -/
theorem operateNames?_spells (hop : i.opcode = .opr) :
    (∀ names, i.operateNames? = some names →
      names ≠ [] ∧ names.Nodup ∧ operateWord? names = some i) ∧
    (i.operateNames? = none ↔ ∀ names, operateWord? names ≠ some i) := by
  constructor
  · intro names h
    have hjoin := operateWord?_operateNames hop h
    exact ⟨(mem_of_operateWord? hjoin).1, nodup_operateNames? h, hjoin⟩
  · constructor
    · intro hnone names h
      obtain ⟨spelling, hspelling⟩ := exists_operateNames? h
      rw [hnone] at hspelling
      cases hspelling
    · intro hnot
      rw [Option.eq_none_iff_forall_ne_some]
      intro names h
      exact hnot names (operateWord?_operateNames hop h)

/-- The word of the second group that has no bit but `CLA` is spelled by no names: `CLA` is read in
the first group. -/
theorem operateNames?_spells_of_lone_clear :
    Instruction.opcode 0o7600 = .opr ∧ operateNames? 0o7600 = none ∧
      ∀ names, operateWord? names ≠ some 0o7600 := by
  have hop : Instruction.opcode 0o7600 = .opr := by decide
  have hnone : operateNames? 0o7600 = none := by decide
  exact ⟨hop, hnone, (operateNames?_spells hop).2.mp hnone⟩

end Instruction

end TwelveBit
