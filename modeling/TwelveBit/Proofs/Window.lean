import Mathlib.Data.List.Nodup
import TwelveBit.CommandLine.Run
import TwelveBit.Proofs.Faulting

/-!
# What a window shows

A window wraps at the ends of memory and goes round once at most. So it never comes to an address
twice (`nodup_addressesAround`), and it always comes to its center (`mem_addressesAround`): a window
that begins more than a whole round ahead of its center comes to it where one does that begins
whole rounds later.

A fault is reported with the window around its word, and a row is marked if it has the address of
the fault. Every fault of a run stands at an address of memory (`exists_frozenAt_of_runFrom`), hence
one row is marked and no other (`window_surrounds`).
-/

namespace TwelveBit

/-! ## The addresses of a window -/

/-- The addresses from `before` words ahead of `center` to `after` words past it. -/
def addressesAround (center : Word) (before after : Nat) : List Word :=
  (List.range (min (before + after + 1) 4096)).map fun i =>
    center - Word.ofNat before + Word.ofNat i

variable {center : Word} {before after i : Nat}

/-- A window has a row for each of its addresses. -/
theorem window_eq (m : Memory) (center : Word) (before after : Nat) :
    m.window center before after = (addressesAround center before after).map (.ofMemory m) := by
  rw [addressesAround, List.map_map]
  rfl

theorem length_window (m : Memory) (center : Word) (before after : Nat) :
    (m.window center before after).length = min (before + after + 1) 4096 := by
  rw [window_eq, addressesAround, List.length_map, List.length_map, List.length_range]

theorem getElem?_addressesAround (h : i < min (before + after + 1) 4096) :
    (addressesAround center before after)[i]? =
      some (center - Word.ofNat before + Word.ofNat i) := by
  rw [addressesAround, List.getElem?_map, List.getElem?_range h, Option.map_some]

theorem getElem?_window (m : Memory) (h : i < min (before + after + 1) 4096) :
    (m.window center before after)[i]? =
      some (.ofMemory m (center - Word.ofNat before + Word.ofNat i)) := by
  rw [window_eq, List.getElem?_map, getElem?_addressesAround h, Option.map_some]

/-- Addresses count modulo 4096, also ahead of 0. -/
theorem toNat_sub_add (center before i : Nat) :
    ((Word.ofNat center - Word.ofNat before + Word.ofNat i).toNat : Int) =
      ((center : Int) - before + i) % 4096 := by
  simp only [BitVec.toNat_add, BitVec.toNat_sub, Word.toNat_ofNat]
  omega

/-- Less than a whole round lies between two addresses, so they differ. -/
theorem nodup_addressesAround : (addressesAround center before after).Nodup := by
  refine List.nodup_range.map_on fun i hi j hj heq => ?_
  rw [List.mem_range] at hi hj
  have hoffset := congrArg BitVec.toNat ((BitVec.add_right_inj _).mp heq)
  rw [Word.toNat_ofNat, Word.toNat_ofNat] at hoffset
  omega

theorem mem_addressesAround : center ∈ addressesAround center before after := by
  have hlt : before % 4096 < min (before + after + 1) 4096 := by omega
  have hround : Word.ofNat (before % 4096) = Word.ofNat before := by
    rw [← BitVec.toNat_inj, Word.toNat_ofNat, Word.toNat_ofNat, Nat.mod_mod]
  refine List.mem_of_getElem? (i := before % 4096) ?_
  rw [getElem?_addressesAround hlt, hround, BitVec.sub_add_cancel]

/-- A window has one row for its center. -/
theorem filter_window (m : Memory) (center : Word) (before after : Nat) :
    (m.window center before after).filter (fun row => row.address = center) =
      [.ofMemory m center] := by
  have haddress : (fun row : Row => decide (row.address = center)) ∘ Row.ofMemory m =
      fun a => decide (a = center) := rfl
  rw [window_eq, List.filter_map, haddress, List.filter_eq,
    List.count_eq_one_of_mem nodup_addressesAround mem_addressesAround]
  rfl

/-! ## Faults of a run -/

namespace Machine

/-- Steps that have ended in a fault have come to a word that has it. -/
theorem exists_frozenAt_of_extend {limit : Nat} {s : Steps} {fault : Fault}
    (hs : ∀ fault, s.last ≠ some (.error fault))
    (h : (Steps.extend limit s).last = some (.error fault)) :
    ∃ before, FrozenAt before fault (Steps.extend limit s).machine := by
  induction limit generalizing s with
  | zero => exact absurd h (hs fault)
  | succ limit ih =>
      rw [Steps.extend] at h ⊢
      rcases hstep : s.machine.step with ⟨fault' | _ | _, m₁⟩ <;> rw [hstep] at h
      · cases h
        exact ⟨s.machine, frozenAt_of_step hstep⟩
      · exact ih (fun fault h => by cases h) h
      · cases h

end Machine

namespace CommandLine

open Machine (FrozenAt)

variable {m m' : Machine} {start fuel : Nat} {limit : Option Nat} {fault : Fault}

/-- A run that ends in a fault has come to a word that has it, with a limit or without. -/
theorem exists_frozenAt_of_runFrom (h : runFrom m start limit fuel = some (some fault, m')) :
    ∃ before, FrozenAt before fault m' := by
  unfold runFrom at h
  dsimp only at h
  cases limit with
  | none =>
      dsimp only at h
      split at h
      · next result m₁ hrun =>
          rcases result with fault' | completion
          · cases h
            obtain ⟨-, before, -, hfrozen⟩ := Machine.Ends.frozenAt ⟨fuel, hrun⟩
            exact ⟨before, hfrozen⟩
          · cases h
      · cases h
  | some n =>
      obtain ⟨hlast, rfl⟩ := Prod.mk.inj (Option.some.inj h)
      obtain ⟨last, hlast, hfault⟩ := Option.bind_eq_some_iff.mp hlast
      rcases last with fault' | outcome <;> cases hfault
      exact Machine.exists_frozenAt_of_extend (fun fault h => by cases h) hlast

/-- A line that is marked. -/
def isMarked (line : Text) : Bool := line.head? = some '>'

/-- Of the lines that report a fault the one of its row is marked, and no other. -/
theorem filter_faultLines (memory : Memory) (h : fault.pc < 4096) :
    (faultLines memory fault).filter isMarked =
      ["> " ++ (Row.ofMemory memory (Word.ofNat fault.pc)).display] := by
  have hmarked (row : Row) : isMarked
      ((if row.address.toNat = fault.pc then "> " else "  ") ++ row.display) =
        decide (row.address = Word.ofNat fault.pc) := by
    have haddress : row.address.toNat = fault.pc ↔ row.address = Word.ofNat fault.pc := by
      rw [← BitVec.toNat_inj, Word.toNat_ofNat_of_lt h]
    by_cases hrow : row.address.toNat = fault.pc
    · rw [if_pos hrow, decide_eq_true (haddress.mp hrow)]
      rfl
    · rw [if_neg hrow, decide_eq_false (mt haddress.mpr hrow)]
      rfl
  have hhead : isMarked ("error: " ++ fault.message) = false := rfl
  rw [faultLines, List.filter_cons_of_neg (by rw [hhead]; decide), List.filter_map,
    show isMarked ∘ (fun row : Row =>
      (if row.address.toNat = fault.pc then "> " else "  ") ++ row.display) = _ from funext hmarked,
    filter_window, List.map_singleton, if_pos]
  show (Word.ofNat fault.pc).toNat = fault.pc
  rw [Word.toNat_ofNat_of_lt h]

/-- **A window is a run around its center.** It has as many rows as were asked for, up to a whole
round of memory. Each row stands one address behind the row before it, counted modulo 4096, with the
word that memory has there and with its text. No address occurs twice, and the center occurs once,
behind the rows ahead of it if the window is less than a round. Hence a run that ends in a fault is
reported with the row of the fault marked, and with no other. -/
theorem window_surrounds (memory : Memory) (center before after : Nat) :
    let rows := memory.window (Word.ofNat center) before after
    rows.length = min (before + after + 1) 4096 ∧
    (∀ (i : Nat) (row : Row), rows[i]? = some row →
      (row.address.toNat : Int) = ((center : Int) - before + i) % 4096 ∧
      row.word = memory.get row.address ∧ row.text = disassemble row.word row.address) ∧
    (rows.map Row.address).Nodup ∧
    rows.filter (fun row => row.address = Word.ofNat center) =
      [.ofMemory memory (Word.ofNat center)] ∧
    (before + after < 4096 →
      rows[before]? = some (.ofMemory memory (Word.ofNat center))) ∧
    ∀ m start limit fuel fault m', runFrom m start limit fuel = some (some fault, m') →
      (runReport m' (some fault) limit).err.filter isMarked =
        ["> " ++ (Row.ofMemory m'.memory (Word.ofNat fault.pc)).display] := by
  intro rows
  refine ⟨length_window memory _ before after, ?_, ?_, filter_window memory _ before after, ?_, ?_⟩
  · intro i row hrow
    have hi : i < min (before + after + 1) 4096 := by
      rw [← length_window memory (Word.ofNat center) before after]
      exact (List.getElem?_eq_some_iff.mp hrow).1
    obtain rfl := Option.some.inj ((getElem?_window memory hi).symm.trans hrow)
    exact ⟨toNat_sub_add center before i, rfl, rfl⟩
  · have haddress : Row.address ∘ Row.ofMemory memory = id := rfl
    rw [show rows = _ from window_eq memory _ before after, List.map_map, haddress, List.map_id]
    exact nodup_addressesAround
  · intro h
    have hbefore : before < min (before + after + 1) 4096 := by omega
    rw [show rows[before]? = _ from getElem?_window memory hbefore, BitVec.sub_add_cancel]
  · intro m start limit fuel fault m' h
    obtain ⟨machine, hfrozen⟩ := exists_frozenAt_of_runFrom h
    refine filter_faultLines m'.memory ?_
    rw [hfrozen.place]
    exact machine.registers.pc.isLt

/-- A window that is asked for more than memory has goes round once. One at address 0 begins ahead
of it. A run that faults in the last word of memory is reported with this row marked. -/
theorem window_surrounds_the_ends :
    let memory := Memory.cleared.set 0o7777 0o6101
    let wide := memory.window (Word.ofNat 0o10000) 0o177777 0o177777
    let small := memory.window (Word.ofNat 0) 2 2
    wide.length = 4096 ∧ (wide.map Row.address).Nodup ∧
    wide.filter (fun row => row.address = 0) = [.ofMemory memory 0] ∧
    small.map Row.address = [0o7776, 0o7777, 0, 1, 2] ∧ small[2]? = some (.ofMemory memory 0) ∧
    ∃ fault m', runFrom { memory } 0o7777 (some 1) 0 = some (some fault, m') ∧
      (runReport m' (some fault) (some 1)).err.filter isMarked =
        ["> 7777  6101  6101".toList] := by
  intro memory wide small
  obtain ⟨hlength, -, hnodup, hcenter, -, hreport⟩ :=
    window_surrounds memory 0o10000 0o177777 0o177777
  obtain ⟨-, -, -, -, hsmall, -⟩ := window_surrounds memory 0 2 2
  refine ⟨hlength, hnodup, hcenter, rfl, hsmall (by decide), ?_⟩
  have hanswer : (runFrom { memory } 0o7777 (some 1) 0).map (fun answer =>
      (answer.1, (Row.ofMemory answer.2.memory 0o7777).display)) =
        some (some (.unknownDevice 0o7777 0o10 0o6101), "7777  6101  6101".toList) := by
    decide +kernel
  obtain ⟨⟨answer, m'⟩, hrun, hanswer⟩ := Option.map_eq_some_iff.mp hanswer
  obtain ⟨rfl, hdisplay⟩ := Prod.mk.inj hanswer
  refine ⟨_, m', hrun, (hreport _ _ _ _ _ _ hrun).trans ?_⟩
  exact congrArg (fun display : Text => ["> " ++ display]) hdisplay

end CommandLine

end TwelveBit
