import TwelveBit.Assembly.Program
import TwelveBit.Proofs.Lookup

/-!
# The list of symbols

A symbol table says what each name stands for, and has no order of its own: its entries may come in
any. The list of the symbols of a program has one. It is sorted by addresses, and names of one
address stand as in a dictionary, so two symbols are never of equal rank and the order of the
entries does not show (`Program.symbolList_eq_of_perm`).

If no name occurs twice in the table, none occurs twice in the list (`Program.nodup_symbolList`),
which then has exactly the names of the table, with the addresses that they stand for
(`Program.mem_symbolList`).
-/

namespace TwelveBit

/-- The order of a dictionary is that of lists of characters. -/
theorem Text.notAfter_iff {s t : Text} : s.notAfter t = true ↔ s < t ∨ s = t := by
  induction s generalizing t with
  | nil =>
      cases t with
      | nil => exact iff_of_true rfl (.inr rfl)
      | cons b t => exact iff_of_true rfl (.inl (List.nil_lt_cons b t))
  | cons a s ih =>
      cases t with
      | nil => exact iff_of_false Bool.false_ne_true (by rintro (h | h) <;> cases h)
      | cons b t =>
          rw [notAfter, Bool.or_eq_true, Bool.and_eq_true, decide_eq_true_iff, beq_iff_eq, ih,
            List.cons_lt_cons_iff, List.cons.injEq, and_or_left, or_assoc]
          rfl

namespace Assembly

namespace Program

variable {x y z : Text × Nat} {p q : Program}

/-! ## The order of the list -/

theorem listedBefore_iff :
    listedBefore x y = true ↔ x.2 < y.2 ∨ x.2 = y.2 ∧ (x.1 < y.1 ∨ x.1 = y.1) := by
  rw [listedBefore, Bool.or_eq_true, Bool.and_eq_true, decide_eq_true_iff, beq_iff_eq,
    Text.notAfter_iff]

theorem listedBefore_trans (hxy : listedBefore x y = true) (hyz : listedBefore y z = true) :
    listedBefore x z = true := by
  rw [listedBefore_iff, ← List.le_iff_lt_or_eq] at *
  rcases hxy with hxy | ⟨hxy, hnames⟩ <;> rcases hyz with hyz | ⟨hyz, hnames'⟩
  · exact .inl (Nat.lt_trans hxy hyz)
  · exact .inl (hyz ▸ hxy)
  · exact .inl (hxy ▸ hyz)
  · exact .inr ⟨hxy.trans hyz, List.le_trans hnames hnames'⟩

theorem listedBefore_total (x y : Text × Nat) :
    (listedBefore x y || listedBefore y x) = true := by
  rw [Bool.or_eq_true, listedBefore_iff, listedBefore_iff, ← List.le_iff_lt_or_eq,
    ← List.le_iff_lt_or_eq]
  rcases Nat.lt_trichotomy x.2 y.2 with hlt | heq | hgt
  · exact .inl (.inl hlt)
  · exact (List.le_total x.1 y.1).imp (fun h => .inr ⟨heq, h⟩) (fun h => .inr ⟨heq.symm, h⟩)
  · exact .inr (.inl hgt)

/-- Only a symbol itself has its rank. -/
theorem listedBefore_antisymm (hxy : listedBefore x y = true) (hyx : listedBefore y x = true) :
    x = y := by
  rw [listedBefore_iff, ← List.le_iff_lt_or_eq] at *
  rcases hxy with hxy | ⟨haddress, hxy⟩ <;> rcases hyx with hyx | ⟨haddress', hyx⟩
  · exact absurd hxy (Nat.lt_asymm hyx)
  · exact absurd haddress' (Nat.ne_of_gt hxy)
  · exact absurd haddress (Nat.ne_of_gt hyx)
  · exact Prod.ext (List.le_antisymm hxy hyx) haddress

/-! ## The list -/

/-- The list has the entries of the table. -/
theorem symbolList_perm (p : Program) :
    p.symbolList.Perm (p.symbols.entries.map fun (name, s) => (name, s.address)) :=
  List.mergeSort_perm ..

theorem mem_names_symbolList {name : Text} :
    name ∈ p.symbolList.map Prod.fst ↔ (p.symbols.get? name).isSome = true := by
  have hperm := p.symbolList_perm.map Prod.fst
  rw [List.map_map] at hperm
  rw [hperm.mem_iff]
  exact isSome_lookup_iff.symm

theorem pairwise_listedBefore (p : Program) :
    p.symbolList.Pairwise fun x y => listedBefore x y = true :=
  List.pairwise_mergeSort (fun x y z => listedBefore_trans (x := x) (y := y) (z := z))
    listedBefore_total _

/-- **The order of the entries does not show in the list.** -/
theorem symbolList_eq_of_perm (h : q.symbols.entries.Perm p.symbols.entries) :
    q.symbolList = p.symbolList := by
  have hperm : q.symbolList.Perm p.symbolList :=
    (q.symbolList_perm.trans (h.map _)).trans p.symbolList_perm.symm
  exact hperm.eq_of_pairwise (fun x y _ _ => listedBefore_antisymm)
    q.pairwise_listedBefore p.pairwise_listedBefore

section Nodup

variable (hnodup : (p.symbols.entries.map (·.1)).Nodup)
include hnodup

theorem nodup_symbolList : (p.symbolList.map Prod.fst).Nodup := by
  have hperm := p.symbolList_perm.map Prod.fst
  rw [List.map_map] at hperm
  exact hperm.nodup_iff.mpr hnodup

theorem mem_symbolList {name : Text} {address : Nat} :
    (name, address) ∈ p.symbolList ↔ p.symbols.address? name = some address := by
  rw [p.symbolList_perm.mem_iff, List.mem_map, SymbolTable.address?, Option.map_eq_some_iff]
  constructor
  · rintro ⟨⟨name', s⟩, hmem, heq⟩
    cases heq
    exact ⟨s, (lookup_eq_some_iff_mem hnodup).mpr hmem, rfl⟩
  · rintro ⟨s, hget, rfl⟩
    exact ⟨(name, s), mem_of_lookup hget, rfl⟩

/-- Without a name twice the list goes up strictly. -/
theorem pairwise_symbolList :
    p.symbolList.Pairwise fun x y => x.2 < y.2 ∨ x.2 = y.2 ∧ x.1 < y.1 := by
  have hne := List.pairwise_map.mp (nodup_symbolList hnodup)
  refine (p.pairwise_listedBefore.and hne).imp fun {x y} h => ?_
  obtain ⟨hbefore, hne⟩ := h
  refine (listedBefore_iff.mp hbefore).imp_right fun ⟨haddress, hnames⟩ => ⟨haddress, ?_⟩
  exact hnames.resolve_right hne

end Nodup

end Program

end Assembly

end TwelveBit
