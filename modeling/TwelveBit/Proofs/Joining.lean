import Mathlib.Data.Option.Basic
import TwelveBit.Proofs.Mnemonics

/-!
# Joining micro-operations

Which words the names of micro-operations are joined to. Names are read in the first group if it has
all of them, and in the second if only that has (`ReadIn`). The word has the bits that the table of
the group gives to any of the names (`Table.IsUnion`), so neither the order of the names plays a
part nor how often one of them stands there: `operateWord?_eq_some_iff` has nothing but membership
in it.

All words of one table agree in the bits that tell the groups apart, and joining words keeps what
they agree in (`Table.union?_and`). So a word belongs to the group in which its names were read
(`group_of_operateWord?`), however many names there are and whatever they ask for.
-/

namespace TwelveBit

namespace Instruction

variable {i : Instruction} {mask value : Word}

/-! ## Words that agree with another in some bits -/

theorem opcode_of_and (hmask : mask.extractLsb' 9 3 = 7#3) (h : i &&& mask = value) :
    i.opcode = Instruction.opcode value := by
  have hones : (7#3 : BitVec 3) = BitVec.allOnes 3 := rfl
  unfold opcode
  rw [← h, BitVec.extractLsb'_and, hmask, hones, BitVec.and_allOnes]

theorem getLsbD_of_and {k : Nat} (hmask : mask.getLsbD k = true) (h : i &&& mask = value) :
    i.getLsbD k = value.getLsbD k := by
  rw [← h, BitVec.getLsbD_and, hmask, Bool.and_true]

/-- An operate instruction with bit 8 clear. -/
theorem group_of_and_one (h : i &&& 0o7400 = 0o7000) :
    i.opcode = .opr ∧ i.operateGroup? = some .one := by
  have hgroup : i.getLsbD 8 = false := getLsbD_of_and rfl h
  refine ⟨opcode_of_and rfl h, ?_⟩
  rw [operateGroup?, hgroup]
  rfl

/-- An operate instruction with bit 8 set and bit 0 clear. -/
theorem group_of_and_two (h : i &&& 0o7401 = 0o7400) :
    i.opcode = .opr ∧ i.operateGroup? = some .two := by
  have hgroup : i.getLsbD 8 = true := getLsbD_of_and rfl h
  have hlast : i.getLsbD 0 = false := getLsbD_of_and rfl h
  refine ⟨opcode_of_and rfl h, ?_⟩
  rw [operateGroup?, hgroup, hlast]
  rfl

end Instruction

namespace Mnemonic

/-! ## The union of words -/

namespace Table

variable {table : Table} {names others : List Text} {name : Text} {v w : Word}

/-- The table has a word for the name. -/
def Has (table : Table) (name : Text) : Prop := ∃ w, (name, w) ∈ table

theorem has_iff_mem : table.Has name ↔ name ∈ table.map (·.1) := by
  simp [Has]

instance : Decidable (table.Has name) := decidable_of_iff _ has_iff_mem.symm

/-- The word has the bits that the table gives to any of the names, and no other. -/
def IsUnion (table : Table) (names : List Text) (w : Word) : Prop :=
  ∀ k, w.getLsbD k = true ↔ ∃ entry ∈ table, entry.1 ∈ names ∧ entry.2.getLsbD k = true

theorem IsUnion.unique (hv : table.IsUnion names v) (hw : table.IsUnion names w) : v = w := by
  apply BitVec.eq_of_getLsbD_eq
  intro k _
  rw [Bool.eq_iff_iff, hv, hw]

theorem isUnion_nil (table : Table) : table.IsUnion [] 0 := by
  intro k
  simp

theorem isUnion_singleton (hnodup : (table.map (·.1)).Nodup) (h : (name, w) ∈ table) :
    table.IsUnion [name] w := by
  intro k
  constructor
  · intro hk
    exact ⟨(name, w), h, List.mem_singleton_self name, hk⟩
  · rintro ⟨⟨other, v⟩, hentry, hother, hk⟩
    obtain rfl : other = name := by simpa using hother
    have hv := word?_of_mem hnodup hentry
    rw [word?_of_mem hnodup h] at hv
    cases hv
    exact hk

theorem IsUnion.append (hv : table.IsUnion names v) (hw : table.IsUnion others w) :
    table.IsUnion (names ++ others) (v ||| w) := by
  intro k
  rw [BitVec.getLsbD_or, Bool.or_eq_true, hv, hw]
  constructor
  · rintro (⟨entry, hentry, hmem, hk⟩ | ⟨entry, hentry, hmem, hk⟩)
    · exact ⟨entry, hentry, List.mem_append_left _ hmem, hk⟩
    · exact ⟨entry, hentry, List.mem_append_right _ hmem, hk⟩
  · rintro ⟨entry, hentry, hmem, hk⟩
    rcases List.mem_append.mp hmem with hmem | hmem
    · exact .inl ⟨entry, hentry, hmem, hk⟩
    · exact .inr ⟨entry, hentry, hmem, hk⟩

theorem isUnion_congr (h : ∀ n, n ∈ others ↔ n ∈ names) :
    table.IsUnion others w ↔ table.IsUnion names w := by
  simp only [IsUnion, h]

/-- A bit that the word of one of the names has. -/
theorem IsUnion.getLsbD_of_mem {k : Nat} (h : table.IsUnion names w) (hmem : (name, v) ∈ table)
    (hname : name ∈ names) (hk : v.getLsbD k = true) : w.getLsbD k = true :=
  (h k).mpr ⟨(name, v), hmem, hname, hk⟩

/-- **The bits of joined words** are those of the words. -/
theorem isUnion_of_union? (hnodup : (table.map (·.1)).Nodup) (h : table.union? names = some w) :
    table.IsUnion names w := by
  induction names generalizing w with
  | nil =>
      cases h
      exact isUnion_nil table
  | cons name rest ih =>
      rw [union?_cons] at h
      obtain ⟨v, hv, hmap⟩ := Option.bind_eq_some_iff.mp h
      obtain ⟨u, hu, rfl⟩ := Option.map_eq_some_iff.mp hmap
      exact (isUnion_singleton hnodup (mem_of_word? hv)).append (ih hu)

/-- Names that the table has can be joined. -/
theorem exists_union? (hnodup : (table.map (·.1)).Nodup) (h : ∀ n ∈ names, table.Has n) :
    ∃ w, table.union? names = some w := by
  induction names with
  | nil => exact ⟨0, rfl⟩
  | cons name rest ih =>
      obtain ⟨⟨v, hv⟩, hrest⟩ := List.forall_mem_cons.mp h
      obtain ⟨u, hu⟩ := ih hrest
      exact ⟨v ||| u, by rw [union?_cons, word?_of_mem hnodup hv, hu]; rfl⟩

theorem union?_eq_some_iff (hnodup : (table.map (·.1)).Nodup) :
    table.union? names = some w ↔ (∀ n ∈ names, table.Has n) ∧ table.IsUnion names w := by
  constructor
  · intro h
    refine ⟨fun n hn => ?_, isUnion_of_union? hnodup h⟩
    obtain ⟨v, hv⟩ := exists_word?_of_union? h n hn
    exact ⟨v, mem_of_word? hv⟩
  · rintro ⟨hnames, hw⟩
    obtain ⟨v, hv⟩ := exists_union? hnodup hnames
    rw [hv, (isUnion_of_union? hnodup hv).unique hw]

/-- **Joined words agree in what all words of their table agree in.** -/
theorem union?_and {mask value : Word} (htable : ∀ entry ∈ table, entry.2 &&& mask = value)
    (hne : names ≠ []) (h : table.union? names = some w) : w &&& mask = value := by
  induction names generalizing w with
  | nil => exact absurd rfl hne
  | cons name rest ih =>
      rw [union?_cons] at h
      obtain ⟨v, hv, hmap⟩ := Option.bind_eq_some_iff.mp h
      obtain ⟨u, hu, rfl⟩ := Option.map_eq_some_iff.mp hmap
      have hfirst : v &&& mask = value := htable _ (mem_of_word? hv)
      cases rest with
      | nil =>
          -- nothing is joined to a single word
          obtain rfl : 0#12 = u := Option.some.inj hu
          rwa [BitVec.or_zero]
      | cons other rest =>
          rw [BitVec.and_or_distrib_right, hfirst, ih (List.cons_ne_nil _ _) hu, BitVec.or_self]

end Table

/-! ## The group in which names are read -/

variable {names others : List Text} {v w : Word} {group : OperateGroup}

/-- The names of the micro-operations of a group. -/
def ofGroup : OperateGroup → Table
  | .one => groupOne
  | .two => groupTwo

theorem nodup_ofGroup (group : OperateGroup) : ((ofGroup group).map (·.1)).Nodup := by
  cases group <;> decide

/-- The group in which names are read, which has all of them. Both groups have `CLA`: a row of names
is read in the second group only if the first does not have all of them. -/
inductive ReadIn (names : List Text) : OperateGroup → Prop where
  | one (hne : names ≠ []) (hone : ∀ n ∈ names, groupOne.Has n) : ReadIn names .one
  | two (hne : names ≠ []) (htwo : ∀ n ∈ names, groupTwo.Has n)
      (hnot : ¬ ∀ n ∈ names, groupOne.Has n) : ReadIn names .two

theorem ReadIn.ne_nil (h : ReadIn names group) : names ≠ [] := by
  cases h with
  | one hne _ => exact hne
  | two hne _ _ => exact hne

theorem ReadIn.has (h : ReadIn names group) : ∀ n ∈ names, (ofGroup group).Has n := by
  cases h with
  | one _ hone => exact hone
  | two _ htwo _ => exact htwo

theorem exists_readIn_iff : (∃ group, ReadIn names group) ↔
    names ≠ [] ∧ ((∀ n ∈ names, groupOne.Has n) ∨ ∀ n ∈ names, groupTwo.Has n) := by
  constructor
  · rintro ⟨group, h⟩
    refine ⟨h.ne_nil, ?_⟩
    cases h with
    | one _ hone => exact .inl hone
    | two _ htwo _ => exact .inr htwo
  · rintro ⟨hne, hnames⟩
    by_cases hone : ∀ n ∈ names, groupOne.Has n
    · exact ⟨.one, .one hne hone⟩
    · exact ⟨.two, .two hne (hnames.resolve_left hone) hone⟩

theorem ReadIn.unique {other : OperateGroup} (h : ReadIn names group) (h' : ReadIn names other) :
    group = other := by
  cases h with
  | one _ hone =>
      cases h' with
      | one _ _ => rfl
      | two _ _ hnot => exact absurd hone hnot
  | two _ _ hnot =>
      cases h' with
      | one _ hone => exact absurd hone hnot
      | two _ _ _ => rfl

theorem ReadIn.of_mem_iff (hmem : ∀ n, n ∈ others ↔ n ∈ names) (h : ReadIn names group) :
    ReadIn others group := by
  have hne : others ≠ [] := by
    intro hnil
    apply h.ne_nil
    simpa [hnil, List.eq_nil_iff_forall_not_mem] using hmem
  cases h with
  | one _ hone => exact .one hne (by simpa only [hmem] using hone)
  | two _ htwo hnot =>
      exact .two hne (by simpa only [hmem] using htwo) (by simpa only [hmem] using hnot)

theorem ReadIn.append (h : ReadIn names group) (hothers : ReadIn others group) :
    ReadIn (names ++ others) group := by
  have hne : names ++ others ≠ [] := List.append_ne_nil_of_left_ne_nil h.ne_nil others
  cases h with
  | one _ hone => exact .one hne (List.forall_mem_append.mpr ⟨hone, hothers.has⟩)
  | two _ htwo hnot =>
      refine .two hne (List.forall_mem_append.mpr ⟨htwo, hothers.has⟩) fun hall => ?_
      exact hnot (List.forall_mem_append.mp hall).1

/-! ## The words that names are joined to -/

/-- **The word of names** is the union of their words in the group in which they are read. -/
theorem operateWord?_eq_some_iff : operateWord? names = some w ↔
    ∃ group, ReadIn names group ∧ (ofGroup group).IsUnion names w := by
  have hunion {w : Word} (group : OperateGroup) : (ofGroup group).union? names = some w ↔
      (∀ n ∈ names, (ofGroup group).Has n) ∧ (ofGroup group).IsUnion names w :=
    Table.union?_eq_some_iff (nodup_ofGroup group)
  constructor
  · intro h
    unfold operateWord? at h
    split at h
    · cases h
    · next hne =>
        rw [List.isEmpty_iff] at hne
        rcases (Option.orElse_eq_some _ _ _).mp h with hone | ⟨hnone, htwo⟩
        · obtain ⟨hnames, hw⟩ := (hunion .one).mp hone
          exact ⟨.one, .one hne hnames, hw⟩
        · obtain ⟨hnames, hw⟩ := (hunion .two).mp htwo
          refine ⟨.two, .two hne hnames fun hall => ?_, hw⟩
          obtain ⟨v, hv⟩ := Table.exists_union? (nodup_ofGroup .one) hall
          cases hnone.symm.trans hv
  · rintro ⟨group, hread, hw⟩
    have hjoin := (hunion group).mpr ⟨hread.has, hw⟩
    cases hread with
    | one hne _ => exact operateWord?_of_groupOne hne hjoin
    | two hne _ hnot =>
        refine operateWord?_of_groupTwo hne ?_ hjoin
        rw [Option.eq_none_iff_forall_ne_some]
        intro v hv
        exact hnot ((hunion .one).mp hv).1

/-- **Names are joined to a word of the group in which they are read**, and never to one of
neither. -/
theorem group_of_operateWord? (h : operateWord? names = some w) :
    ∃ group, ReadIn names group ∧ (ofGroup group).IsUnion names w ∧
      Instruction.opcode w = .opr ∧ Instruction.operateGroup? w = some group := by
  have hone : ∀ entry ∈ groupOne, entry.2 &&& 0o7400 = 0o7000 := by decide
  have htwo : ∀ entry ∈ groupTwo, entry.2 &&& 0o7401 = 0o7400 := by decide
  obtain ⟨group, hread, hw⟩ := operateWord?_eq_some_iff.mp h
  have hjoin := (Table.union?_eq_some_iff (nodup_ofGroup group)).mpr ⟨hread.has, hw⟩
  refine ⟨group, hread, hw, ?_⟩
  cases group with
  | one => exact Instruction.group_of_and_one (Table.union?_and hone hread.ne_nil hjoin)
  | two => exact Instruction.group_of_and_two (Table.union?_and htwo hread.ne_nil hjoin)

/-- **The word of names depends on the set of the names.** They are joined if there are any and one
group has all of them; the word is the union of their words in that group, the first if it has all
of them, and is an operate instruction of the group. Names in another order, or named more than
once, are joined to the same word. Rows of names that are read in the same group, one behind the
other, are joined to the union of their words. -/
theorem operateWord?_of_set (names : List Text) :
    ((operateWord? names).isSome ↔
      names ≠ [] ∧ ((∀ n ∈ names, groupOne.Has n) ∨ ∀ n ∈ names, groupTwo.Has n)) ∧
    (∀ w, operateWord? names = some w → ∃ group, ReadIn names group ∧
      (ofGroup group).IsUnion names w ∧
      Instruction.opcode w = .opr ∧ Instruction.operateGroup? w = some group) ∧
    (∀ others, (∀ n, n ∈ others ↔ n ∈ names) → operateWord? others = operateWord? names) ∧
    ∀ others group v w, ReadIn names group → ReadIn others group →
      operateWord? names = some v → operateWord? others = some w →
      operateWord? (names ++ others) = some (v ||| w) := by
  refine ⟨?_, fun w h => group_of_operateWord? h, fun others hmem => ?_, ?_⟩
  · rw [← exists_readIn_iff, Option.isSome_iff_exists]
    constructor
    · rintro ⟨w, hw⟩
      obtain ⟨group, hread, -⟩ := operateWord?_eq_some_iff.mp hw
      exact ⟨group, hread⟩
    · rintro ⟨group, hread⟩
      obtain ⟨w, hw⟩ := Table.exists_union? (nodup_ofGroup group) hread.has
      exact ⟨w, operateWord?_eq_some_iff.mpr
        ⟨group, hread, Table.isUnion_of_union? (nodup_ofGroup group) hw⟩⟩
  · ext w
    rw [operateWord?_eq_some_iff, operateWord?_eq_some_iff]
    refine exists_congr fun group => and_congr ?_ (Table.isUnion_congr hmem)
    exact ⟨.of_mem_iff fun n => (hmem n).symm, .of_mem_iff hmem⟩
  · intro others group v w hnames hothers hv hw
    have hunion {names : List Text} {w : Word} (hread : ReadIn names group)
        (h : operateWord? names = some w) : (ofGroup group).IsUnion names w := by
      obtain ⟨other, hother, hw⟩ := operateWord?_eq_some_iff.mp h
      rwa [hread.unique hother]
    exact operateWord?_eq_some_iff.mpr
      ⟨group, hnames.append hothers, (hunion hnames hv).append (hunion hothers hw)⟩

end Mnemonic

end TwelveBit
