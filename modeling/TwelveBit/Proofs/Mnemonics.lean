import TwelveBit.Instruction.Disassembly
import TwelveBit.Proofs.Lookup

/-!
# Mnemonics are read back

The disassembler spells a word with names, and the assembler joins the words of the names again. Of
the operate instructions each bit is one name's business, so the two are compared bit by bit
(`Table.union?_select`).

The tables do not get into each other's way: `CLA` is the only name in two of them, and it is read
in the first group unless another name stands beside it that only the second group has. This is why
the disassembler never writes a `CLA` of the second group alone (`GroupTwo.exists_not_groupOne`).
-/

namespace TwelveBit.Mnemonic

/-! ## Tables -/

namespace Table

variable {table : Table} {name : Text} {w : Word}

theorem mem_of_word? (h : table.word? name = some w) : (name, w) ∈ table := mem_of_lookup h

/-- In a table without a name twice, a name stands for the word that it has in an entry. -/
theorem word?_of_mem (hnodup : (table.map (·.1)).Nodup) (hmem : (name, w) ∈ table) :
    table.word? name = some w := (lookup_eq_some_iff_mem hnodup).mpr hmem

/-- In a table without a name twice, a name that a word has stands for the word. -/
theorem word?_of_name? (hnodup : (table.map (·.1)).Nodup) (h : table.name? w = some name) :
    table.word? name = some w := by
  obtain ⟨⟨key, value⟩, hfind, rfl⟩ := Option.map_eq_some_iff.mp h
  have hvalue := List.find?_some hfind
  rw [← of_decide_eq_true hvalue]
  exact word?_of_mem hnodup (List.mem_of_find?_eq_some hfind)

/-! ## Joining words -/

/-- One name more joins one word more. -/
theorem union?_cons (table : Table) (name : Text) (rest : List Text) :
    table.union? (name :: rest) =
      (table.word? name).bind fun w => (table.union? rest).map (w ||| ·) := by
  rw [union?, List.mapM_cons, union?]
  cases table.word? name with
  | none => rfl
  | some w =>
      cases rest.mapM table.word? with
      | none => rfl
      | some ws => rfl

/-- Names are joined only if the table has all of them. -/
theorem exists_word?_of_union? {names : List Text} (h : table.union? names = some w) :
    ∀ n ∈ names, ∃ v, table.word? n = some v := by
  induction names generalizing w with
  | nil => exact fun n hn => absurd hn List.not_mem_nil
  | cons n rest ih =>
      rw [union?_cons] at h
      obtain ⟨v, hv, hmap⟩ := Option.bind_eq_some_iff.mp h
      obtain ⟨u, hu, -⟩ := Option.map_eq_some_iff.mp hmap
      exact List.forall_mem_cons.mpr ⟨⟨v, hv⟩, ih hu⟩

theorem union?_eq_none {names : List Text} {n : Text} (hn : n ∈ names) (h : table.word? n = none) :
    table.union? names = none := by
  cases hu : table.union? names with
  | none => rfl
  | some w =>
      obtain ⟨v, hv⟩ := exists_word?_of_union? hu n hn
      rw [h] at hv
      cases hv

theorem select_cons (c : Bool × String) (rest : List (Bool × String)) :
    select (c :: rest) = if c.1 then c.2.toList :: select rest else select rest := by
  obtain ⟨b, n⟩ := c
  cases b <;> rfl

/-- **The bits of joined words**: a bit is set exactly if it is set in the word of a name whose
condition holds. -/
theorem union?_select (table : Table) {choices : List ((Bool × String) × Word)}
    (h : ∀ c ∈ choices, table.word? c.1.2 = some c.2) :
    ∃ u, table.union? (select (choices.map (·.1))) = some u ∧
      ∀ k, u.getLsbD k = choices.any fun c => c.2.getLsbD k && c.1.1 := by
  induction choices with
  | nil => exact ⟨0, rfl, fun k => BitVec.getLsbD_zero⟩
  | cons c rest ih =>
      obtain ⟨⟨chosen, name⟩, w⟩ := c
      obtain ⟨hw, hrest⟩ := List.forall_mem_cons.mp h
      obtain ⟨u, hu, hbits⟩ := ih hrest
      rw [List.map_cons, select_cons]
      cases chosen with
      | false =>
          refine ⟨u, hu, fun k => ?_⟩
          rw [hbits, List.any_cons, Bool.and_false, Bool.false_or]
      | true =>
          refine ⟨w ||| u, ?_, fun k => ?_⟩
          · rw [if_pos rfl, union?_cons, hw, hu]
            rfl
          · rw [BitVec.getLsbD_or, hbits, List.any_cons, Bool.and_true]

end Table

/-- Nothing is selected exactly if no condition holds. -/
theorem select_eq_nil_iff {choices : List (Bool × String)} :
    select choices = [] ↔ (choices.any (·.1)) = false := by
  induction choices with
  | nil => exact iff_of_true rfl rfl
  | cons c rest ih =>
      rw [Table.select_cons, List.any_cons, Bool.or_eq_false_iff]
      cases c.1 with
      | false =>
          rw [if_neg Bool.false_ne_true, ih]
          exact (and_iff_right rfl).symm
      | true =>
          rw [if_pos rfl]
          exact iff_of_false (List.cons_ne_nil _ _) (fun h => Bool.noConfusion h.1)

theorem select_append (choices others : List (Bool × String)) :
    select (choices ++ others) = select choices ++ select others := by
  rw [select, List.filter_append, List.map_append, select, select]

theorem mem_select {choices : List (Bool × String)} {c : Bool × String} (hc : c ∈ choices)
    (hchosen : c.1 = true) : c.2.toList ∈ select choices :=
  List.mem_map.mpr ⟨c, List.mem_filter.mpr ⟨hc, hchosen⟩, rfl⟩

/-! ## Operate instructions -/

/-- The first group is preferred. -/
theorem operateWord?_of_groupOne {names : List Text} {w : Word} (hne : names ≠ [])
    (h : groupOne.union? names = some w) : operateWord? names = some w := by
  rw [operateWord?, if_neg (by rwa [List.isEmpty_iff]), h]
  rfl

/-- The second group is read where the first has not all of the names. -/
theorem operateWord?_of_groupTwo {names : List Text} {w : Word} (hne : names ≠ [])
    (hone : groupOne.union? names = none) (h : groupTwo.union? names = some w) :
    operateWord? names = some w := by
  rw [operateWord?, if_neg (by rwa [List.isEmpty_iff]), hone, h]
  rfl

end TwelveBit.Mnemonic

namespace TwelveBit

open Mnemonic

/-- The high bits of an operate instruction are set. -/
theorem Instruction.getLsbD_of_operate {i : Instruction} (hop : i.opcode = .opr) {k : Nat}
    (hk : 9 ≤ k) (hk' : k < 12) : i.getLsbD k = true := by
  have hcode : i.extractLsb' 9 3 = 7#3 := by
    rw [← Opcode.code_ofCode (i.extractLsb' 9 3)]
    exact congrArg Opcode.code hop
  have hbit : (i.extractLsb' 9 3).getLsbD (k - 9) = i.getLsbD k := by
    rw [BitVec.getLsbD_extractLsb', Nat.add_sub_cancel' hk, decide_eq_true (by omega),
      Bool.true_and]
  rw [← hbit, hcode]
  obtain rfl | rfl | rfl : k = 9 ∨ k = 10 ∨ k = 11 := by omega
  all_goals rfl

/-! ### The first group -/

namespace GroupOne

/-- The choices that a word of the first group makes, each with the word of its name. -/
def choices (m : GroupOne) : List ((Bool × String) × Word) :=
  [((m.clear, "CLA"), 0o7200), ((m.clearLink, "CLL"), 0o7100), ((m.complement, "CMA"), 0o7040),
   ((m.complementLink, "CML"), 0o7020), ((m.increment, "IAC"), 0o7001),
   ((m.right, if m.twice then "RTR" else "RAR"), if m.twice then 0o7012 else 0o7010),
   ((m.left, if m.twice then "RTL" else "RAL"), if m.twice then 0o7006 else 0o7004)]

/-- The bits of the word that asks for these micro-operations. -/
def bit (m : GroupOne) : Nat → Bool
  | 0 => m.increment
  | 1 => m.twice
  | 2 => m.left
  | 3 => m.right
  | 4 => m.complementLink
  | 5 => m.complement
  | 6 => m.clearLink
  | 7 => m.clear
  | 8 => false
  | _ => true

theorem bit_ofWord {i : Instruction} (hop : i.opcode = .opr) (hgroup : i.getLsbD 8 = false)
    {k : Nat} (hk : k < 12) : (ofWord i).bit k = i.getLsbD k := by
  rcases Nat.lt_or_ge k 9 with hlow | hhigh
  · obtain rfl | rfl | rfl | rfl | rfl | rfl | rfl | rfl | rfl : k = 0 ∨ k = 1 ∨ k = 2 ∨ k = 3 ∨
        k = 4 ∨ k = 5 ∨ k = 6 ∨ k = 7 ∨ k = 8 := by omega
    all_goals first | rfl | exact hgroup.symm
  · rw [Instruction.getLsbD_of_operate hop hhigh hk]
    obtain rfl | rfl | rfl : k = 9 ∨ k = 10 ∨ k = 11 := by omega
    all_goals rfl

theorem word?_choices (m : GroupOne) : ∀ c ∈ m.choices, groupOne.word? c.1.2 = some c.2 := by
  have hentries : ∀ twice : Bool, ∀ entry ∈ [("CLA", (0o7200 : Word)), ("CLL", 0o7100),
      ("CMA", 0o7040), ("CML", 0o7020), ("IAC", 0o7001),
      (if twice then "RTR" else "RAR", if twice then 0o7012 else 0o7010),
      (if twice then "RTL" else "RAL", if twice then 0o7006 else 0o7004)],
      groupOne.word? entry.1 = some entry.2 := by
    decide
  intro c hc
  exact hentries m.twice (c.1.2, c.2) (List.mem_map_of_mem (f := fun c => (c.1.2, c.2)) hc)

/-- What is chosen, if anything is, sets the bits that it was chosen for. A rotation by two needs a
rotation. -/
theorem any_choices {m : GroupOne} (hrotate : m.twice = true → (m.right || m.left) = true)
    (hsome : (m.choices.any fun c => c.1.1) = true) {k : Nat} (hk : k < 12) :
    (m.choices.any fun c => c.2.getLsbD k && c.1.1) = m.bit k := by
  obtain rfl | rfl | hhigh | hlow : k = 1 ∨ k = 8 ∨ (k = 9 ∨ k = 10 ∨ k = 11) ∨
      (k = 0 ∨ k = 2 ∨ k = 3 ∨ k = 4 ∨ k = 5 ∨ k = 6 ∨ k = 7) := by omega
  · -- both rotations by two have the bit
    cases htwice : m.twice with
    | false => simp [choices, bit, htwice]
    | true => simpa [choices, bit, htwice, Bool.or_comm] using hrotate htwice
  · -- no name of this group has the bit
    cases htwice : m.twice <;> simp [choices, bit, htwice]
  · -- every name has the operation code
    rcases hhigh with rfl | rfl | rfl
    all_goals cases htwice : m.twice <;> simpa [choices, bit, htwice] using hsome
  · -- one name has the bit, or both rotations to one side
    rcases hlow with rfl | rfl | rfl | rfl | rfl | rfl | rfl
    all_goals cases htwice : m.twice <;> simp [choices, bit, htwice]

/-- Without a choice no bit is set below the operation code. -/
theorem bit_of_no_choice {m : GroupOne} (hrotate : m.twice = true → (m.right || m.left) = true)
    (hnone : (m.choices.any fun c => c.1.1) = false) {k : Nat} (hk : k < 12) :
    m.bit k = BitVec.getLsbD (0o7000 : Word) k := by
  obtain ⟨clear, clearLink, complement, complementLink, right, left, twice, increment⟩ := m
  simp only [choices, List.any_cons, List.any_nil, Bool.or_false, Bool.or_eq_false_iff] at hnone
  obtain ⟨rfl, rfl, rfl, rfl, rfl, rfl, rfl⟩ := hnone
  have htwice : twice = false := by
    cases twice with
    | false => rfl
    | true => exact absurd (hrotate rfl) (by decide)
  subst htwice
  revert k
  decide

/-- What is known of a word of the first group that can be spelled: it doubles no rotation that it
does not ask for, and its names are its choices, or `NOP` if there are none. -/
theorem of_names? {m : GroupOne} {names : List Text} (h : m.names? = some names) :
    (m.twice = true → (m.right || m.left) = true) ∧
      names = if (select (m.choices.map (·.1))).isEmpty then ["NOP".toList]
        else select (m.choices.map (·.1)) := by
  have hselect : m.names? = if m.twice && !m.right && !m.left then none
      else some (if (select (m.choices.map (·.1))).isEmpty then ["NOP".toList]
        else select (m.choices.map (·.1))) := rfl
  rw [hselect] at h
  split at h
  · cases h
  · next hspelled =>
      refine ⟨fun htwice => ?_, (Option.some.inj h).symm⟩
      rw [htwice] at hspelled
      revert hspelled
      cases m.right <;> cases m.left <;> decide

/-- **The first group is read back**: the names of a word of the first group are joined to the word
again. -/
theorem operateWord?_names {i : Instruction} (hop : i.opcode = .opr) (hgroup : i.getLsbD 8 = false)
    {names : List Text} (h : (ofWord i).names? = some names) :
    operateWord? names = some i := by
  have hbit {k : Nat} (hk : k < 12) := bit_ofWord hop hgroup hk
  generalize ofWord i = m at h hbit
  obtain ⟨hrotate, rfl⟩ := of_names? h
  have hany : ((m.choices.map (·.1)).any (·.1)) = m.choices.any fun c => c.1.1 := List.any_map
  cases hchosen : m.choices.any fun c => c.1.1 with
  | false =>
      have hnil := select_eq_nil_iff.mpr (hany.trans hchosen)
      have hword : (0o7000 : Word) = i := by
        apply BitVec.eq_of_getLsbD_eq
        intro k hk
        rw [← bit_of_no_choice hrotate hchosen hk, hbit hk]
      rw [hnil, ← hword]
      decide
  | true =>
      have hne : select (m.choices.map (·.1)) ≠ [] := by
        intro hnil
        rw [select_eq_nil_iff, hany, hchosen] at hnil
        cases hnil
      obtain ⟨u, hu, hbits⟩ := groupOne.union?_select m.word?_choices
      have hword : u = i := by
        apply BitVec.eq_of_getLsbD_eq
        intro k hk
        rw [hbits, any_choices hrotate hchosen hk, hbit hk]
      rw [if_neg (by rwa [List.isEmpty_iff]), ← hword]
      exact operateWord?_of_groupOne hne hu

end GroupOne

/-! ### The second group -/

namespace GroupTwo

/-- The tests that a word of the second group makes, each with the word of its name. -/
def tests (m : GroupTwo) : List ((Bool × String) × Word) :=
  if m.opposite then
    if m.sign || m.zero || m.link then
      [((m.sign, "SPA"), 0o7510), ((m.zero, "SNA"), 0o7450), ((m.link, "SZL"), 0o7430)]
    else [((true, "SKP"), 0o7410)]
  else [((m.sign, "SMA"), 0o7500), ((m.zero, "SZA"), 0o7440), ((m.link, "SNL"), 0o7420)]

/-- The choices of a word of the second group besides its tests. -/
def actions (m : GroupTwo) : List ((Bool × String) × Word) :=
  [((m.clear, "CLA"), 0o7600), ((m.switches, "OSR"), 0o7404), ((m.halt, "HLT"), 0o7402)]

/-- The bits of the word that asks for these micro-operations. -/
def bit (m : GroupTwo) : Nat → Bool
  | 0 => false
  | 1 => m.halt
  | 2 => m.switches
  | 3 => m.opposite
  | 4 => m.link
  | 5 => m.zero
  | 6 => m.sign
  | 7 => m.clear
  | _ => true

theorem bit_ofWord {i : Instruction} (hop : i.opcode = .opr) (hgroup : i.getLsbD 8 = true)
    (hlast : i.getLsbD 0 = false) {k : Nat} (hk : k < 12) : (ofWord i).bit k = i.getLsbD k := by
  rcases Nat.lt_or_ge k 9 with hlow | hhigh
  · obtain rfl | rfl | rfl | rfl | rfl | rfl | rfl | rfl | rfl : k = 0 ∨ k = 1 ∨ k = 2 ∨ k = 3 ∨
        k = 4 ∨ k = 5 ∨ k = 6 ∨ k = 7 ∨ k = 8 := by omega
    all_goals first | rfl | exact hlast.symm | exact hgroup.symm
  · rw [Instruction.getLsbD_of_operate hop hhigh hk]
    obtain rfl | rfl | rfl : k = 9 ∨ k = 10 ∨ k = 11 := by omega
    all_goals rfl

/-- The tests are in the table of the second group, and only there. -/
theorem word?_tests (m : GroupTwo) :
    ∀ c ∈ m.tests, groupOne.word? c.1.2 = none ∧ groupTwo.word? c.1.2 = some c.2 := by
  have htests : ∀ entry ∈ [("SPA", (0o7510 : Word)), ("SNA", 0o7450), ("SZL", 0o7430)] ++
      [("SKP", 0o7410)] ++ [("SMA", 0o7500), ("SZA", 0o7440), ("SNL", 0o7420)],
      groupOne.word? entry.1 = none ∧ groupTwo.word? entry.1 = some entry.2 := by
    decide
  intro c hc
  refine htests (c.1.2, c.2) ?_
  have hentry := List.mem_map_of_mem (f := fun c => (c.1.2, c.2)) hc
  rw [tests] at hentry
  split at hentry
  · split at hentry
    · exact List.mem_append_left _ (List.mem_append_left _ hentry)
    · exact List.mem_append_left _ (List.mem_append_right _ hentry)
  · exact List.mem_append_right _ hentry

theorem word?_actions (m : GroupTwo) : ∀ c ∈ m.actions, groupTwo.word? c.1.2 = some c.2 := by
  have hactions : ∀ entry ∈ [("CLA", (0o7600 : Word)), ("OSR", 0o7404), ("HLT", 0o7402)],
      groupTwo.word? entry.1 = some entry.2 := by
    decide
  intro c hc
  exact hactions (c.1.2, c.2) (List.mem_map_of_mem (f := fun c => (c.1.2, c.2)) hc)

/-- The three ways in which a word of the second group can test: the opposite of some tests, nothing
with an opposite, or plain tests. -/
theorem tests_cases (m : GroupTwo) :
    (m.opposite = true ∧ (m.sign || m.zero || m.link) = true ∧ m.tests =
      [((m.sign, "SPA"), 0o7510), ((m.zero, "SNA"), 0o7450), ((m.link, "SZL"), 0o7430)]) ∨
    (m.opposite = true ∧ (m.sign = false ∧ m.zero = false ∧ m.link = false) ∧ m.tests =
      [((true, "SKP"), 0o7410)]) ∨
    (m.opposite = false ∧ m.tests =
      [((m.sign, "SMA"), 0o7500), ((m.zero, "SZA"), 0o7440), ((m.link, "SNL"), 0o7420)]) := by
  rw [tests]
  split
  · next hopposite =>
      split
      · next htested => exact Or.inl ⟨hopposite, htested, rfl⟩
      · next htested =>
          rw [Bool.not_eq_true, Bool.or_eq_false_iff, Bool.or_eq_false_iff, and_assoc] at htested
          exact Or.inr (Or.inl ⟨hopposite, htested, rfl⟩)
  · next hopposite => exact Or.inr (Or.inr ⟨Bool.eq_false_iff.mpr hopposite, rfl⟩)

/-- What is chosen, if anything is, sets the bits that it was chosen for. -/
theorem any_choices {m : GroupTwo} (hsome : ((m.tests ++ m.actions).any fun c => c.1.1) = true)
    {k : Nat} (hk : k < 12) :
    ((m.tests ++ m.actions).any fun c => c.2.getLsbD k && c.1.1) = m.bit k := by
  obtain rfl | hhigh | hlow : k = 3 ∨ (k = 8 ∨ k = 9 ∨ k = 10 ∨ k = 11) ∨
      (k = 0 ∨ k = 1 ∨ k = 2 ∨ k = 4 ∨ k = 5 ∨ k = 6 ∨ k = 7) := by omega
  · -- the opposite tests have the bit, and a skip without a test
    rcases m.tests_cases with ⟨hopposite, htested, htests⟩ | ⟨hopposite, -, htests⟩ |
      ⟨hopposite, htests⟩
    · rw [Bool.or_assoc] at htested
      simpa [htests, actions, bit, hopposite] using htested
    · simp [htests, actions, bit, hopposite]
    · simp [htests, actions, bit, hopposite]
  · -- every name has the operation code and the bit of the group
    rcases m.tests_cases with ⟨-, -, htests⟩ | ⟨-, -, htests⟩ | ⟨-, htests⟩
    · rcases hhigh with rfl | rfl | rfl | rfl
      all_goals simpa [htests, actions, bit] using hsome
    · rcases hhigh with rfl | rfl | rfl | rfl
      all_goals simp [htests, actions, bit]
    · rcases hhigh with rfl | rfl | rfl | rfl
      all_goals simpa [htests, actions, bit] using hsome
  · -- one name has the bit, or a test and its opposite
    rcases m.tests_cases with ⟨-, -, htests⟩ | ⟨-, hnone, htests⟩ | ⟨-, htests⟩
    · rcases hlow with rfl | rfl | rfl | rfl | rfl | rfl | rfl
      all_goals simp [htests, actions, bit]
    · rcases hlow with rfl | rfl | rfl | rfl | rfl | rfl | rfl
      all_goals simp [htests, actions, bit, hnone]
    · rcases hlow with rfl | rfl | rfl | rfl | rfl | rfl | rfl
      all_goals simp [htests, actions, bit]

theorem testNames_eq (m : GroupTwo) : m.testNames = select (m.tests.map (·.1)) := by
  rw [testNames, tests]
  cases m.opposite with
  | false => rfl
  | true =>
      cases m.sign <;> cases m.zero <;> cases m.link <;> rfl

/-- The names of a word of the second group are its choices, unless they are none or a lone
`CLA`. -/
theorem names?_eq (m : GroupTwo) : m.names? =
    if select ((m.tests ++ m.actions).map (·.1)) = [] ∨
      select ((m.tests ++ m.actions).map (·.1)) = ["CLA".toList] then none
    else some (select ((m.tests ++ m.actions).map (·.1))) := by
  rw [List.map_append, select_append, ← testNames_eq]
  rfl

theorem of_names? {m : GroupTwo} {names : List Text} (h : m.names? = some names) :
    names = select ((m.tests ++ m.actions).map (·.1)) ∧ names ≠ [] ∧ names ≠ ["CLA".toList] := by
  rw [names?_eq] at h
  split at h
  · cases h
  · next hspelled =>
      cases h
      exact ⟨rfl, not_or.mp hspelled⟩

/-- A spelling of the second group has a name that the first group does not have. -/
theorem exists_not_groupOne {m : GroupTwo}
    (hne : select ((m.tests ++ m.actions).map (·.1)) ≠ [])
    (hlone : select ((m.tests ++ m.actions).map (·.1)) ≠ ["CLA".toList]) :
    ∃ n ∈ select ((m.tests ++ m.actions).map (·.1)), groupOne.word? n = none := by
  rw [List.map_append, select_append] at hne hlone ⊢
  cases htested : m.tests.any fun c => c.1.1 with
  | true =>
      obtain ⟨c, hc, hchosen⟩ := List.any_eq_true.mp htested
      refine ⟨c.1.2.toList, List.mem_append_left _ ?_, (m.word?_tests c hc).1⟩
      exact mem_select (List.mem_map_of_mem (f := (·.1)) hc) hchosen
  | false =>
      have hnil : select (m.tests.map (·.1)) = [] := by
        rw [select_eq_nil_iff, List.any_map]
        exact htested
      rw [hnil, List.nil_append] at hne hlone ⊢
      -- without a test and without another action there is the lone name or none at all
      obtain ⟨clear, sign, zero, link, opposite, switches, halt⟩ := m
      cases switches with
      | true =>
          exact ⟨"OSR".toList, mem_select (c := (true, "OSR")) (by simp [actions]) rfl,
            by decide⟩
      | false =>
          cases halt with
          | true =>
              exact ⟨"HLT".toList, mem_select (c := (true, "HLT")) (by simp [actions]) rfl,
                by decide⟩
          | false =>
              cases clear with
              | true => exact absurd rfl hlone
              | false => exact absurd rfl hne

/-- **The second group is read back**: the names of a word of the second group are joined to the
word again. One of them is not `CLA`, so the first group does not have all of them. -/
theorem operateWord?_names {i : Instruction} (hop : i.opcode = .opr) (hgroup : i.getLsbD 8 = true)
    (hlast : i.getLsbD 0 = false) {names : List Text} (h : (ofWord i).names? = some names) :
    operateWord? names = some i := by
  have hbit {k : Nat} (hk : k < 12) := bit_ofWord hop hgroup hlast hk
  generalize ofWord i = m at h hbit
  obtain ⟨rfl, hne, hlone⟩ := of_names? h
  have htable : ∀ c ∈ m.tests ++ m.actions, groupTwo.word? c.1.2 = some c.2 := by
    rw [List.forall_mem_append]
    exact ⟨fun c hc => (m.word?_tests c hc).2, m.word?_actions⟩
  have hchosen : ((m.tests ++ m.actions).any fun c => c.1.1) = true := by
    have hany := mt select_eq_nil_iff.mpr hne
    rw [List.any_map, Bool.not_eq_false] at hany
    exact hany
  obtain ⟨u, hu, hbits⟩ := groupTwo.union?_select htable
  have hword : u = i := by
    apply BitVec.eq_of_getLsbD_eq
    intro k hk
    rw [hbits, any_choices hchosen hk, hbit hk]
  obtain ⟨n, hn, hnone⟩ := exists_not_groupOne hne hlone
  rw [← hword]
  exact operateWord?_of_groupTwo hne (Table.union?_eq_none hn hnone) hu

end GroupTwo

/-! ## What the names of an instruction are read as -/

namespace Instruction

/-- The names of an operate instruction are joined to the instruction again. -/
theorem operateWord?_operateNames {i : Instruction} (hop : i.opcode = .opr) {names : List Text}
    (h : i.operateNames? = some names) : operateWord? names = some i := by
  rw [operateNames?, operateGroup?] at h
  cases hgroup : i.getLsbD 8 with
  | false =>
      rw [hgroup] at h
      exact GroupOne.operateWord?_names hop hgroup h
  | true =>
      rw [hgroup, if_pos rfl] at h
      cases hlast : i.getLsbD 0 with
      | false =>
          rw [hlast] at h
          exact GroupTwo.operateWord?_names hop hgroup hlast h
      | true =>
          rw [hlast] at h
          cases h

end Instruction

namespace Mnemonic

/-- The names of operate instructions and of input and output are letters, and none of them is a
memory reference. -/
theorem name_of_mem : ∀ entry ∈ groupOne ++ groupTwo ++ inputOutput,
    entry.1 ≠ [] ∧ entry.1.all Char.isAlphanum = true ∧ memoryReference? entry.1 = none := by
  decide

/-- The names that are joined to a word are one or more, and stand in the tables. -/
theorem mem_of_operateWord? {names : List Text} {w : Word} (h : operateWord? names = some w) :
    names ≠ [] ∧ ∀ n ∈ names, ∃ v, (n, v) ∈ groupOne ++ groupTwo ++ inputOutput := by
  rw [operateWord?] at h
  split at h
  · cases h
  · next hne =>
      refine ⟨fun hnil => hne (List.isEmpty_iff.mpr hnil), fun n hn => ?_⟩
      cases hone : groupOne.union? names with
      | some u =>
          obtain ⟨v, hv⟩ := Table.exists_word?_of_union? hone n hn
          exact ⟨v, List.mem_append_left _ (List.mem_append_left _ (Table.mem_of_word? hv))⟩
      | none =>
          rw [hone] at h
          obtain ⟨v, hv⟩ := Table.exists_word?_of_union? h n hn
          exact ⟨v, List.mem_append_left _ (List.mem_append_right _ (Table.mem_of_word? hv))⟩

/-- A name of an input or output instruction is read as the instruction, and by no other table. -/
theorem inputOutput?_of_name? {w : Word} {name : Text} (h : inputOutput.name? w = some name) :
    inputOutput? name = some w ∧ operateWord? [name] = none ∧
      ∃ v, (name, v) ∈ groupOne ++ groupTwo ++ inputOutput := by
  have hapart : ∀ entry ∈ inputOutput, operateWord? [entry.1] = none := by
    decide
  have hword : inputOutput.word? name = some w := Table.word?_of_name? (by decide) h
  have hmem := Table.mem_of_word? hword
  exact ⟨hword, hapart _ hmem, w, List.mem_append_right _ hmem⟩

theorem memoryReference?_mnemonic {o : Opcode} (h : o.isMemoryReference = true) :
    memoryReference? o.mnemonic = some o := by
  revert h
  cases o <;> decide

theorem isMemoryReference_of_memoryReference? {name : Text} {o : Opcode}
    (h : memoryReference? name = some o) : o.isMemoryReference = true := by
  have htable : ∀ entry ∈ memoryReferences,
      (Instruction.opcode entry.2).isMemoryReference = true := by decide
  obtain ⟨w, hw, rfl⟩ := Option.map_eq_some_iff.mp h
  have hentry := htable _ (Table.mem_of_word? hw)
  exact hentry

end Mnemonic

end TwelveBit
