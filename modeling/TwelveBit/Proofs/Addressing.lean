import TwelveBit.Machine.Cycle

/-!
# The fields of a word as numbers

The library takes words apart by their bits. Here the same fields are quotients and remainders, so
that a statement about addresses is a statement about numbers and `omega` can settle it:

* a word of memory reference is `512 * code + 256 * I + 128 * Z + offset`,
* an address is `page + offset`, where the page is a multiple of 128 (`Word.toNat_page`).

`Instruction.directAddress` is the address that a memory reference names, in that arithmetic. It is
written without the bits, and `toNat_direct` proves that the library computes it.
-/

namespace TwelveBit

namespace Word

/-- An address is the word of its number. -/
theorem ofNat_toNat (a : Word) : Word.ofNat a.toNat = a := by
  rw [Word.ofNat, BitVec.ofNat_toNat, BitVec.setWidth_eq]

theorem toNat_ofNat (n : Nat) : (Word.ofNat n).toNat = n % 4096 := BitVec.toNat_ofNat n 12

theorem toNat_ofNat_of_lt {n : Nat} (h : n < 4096) : (Word.ofNat n).toNat = n :=
  (toNat_ofNat n).trans (Nat.mod_eq_of_lt h)

/-- Numbers of twelve bits stand for words of their own. -/
theorem ofNat_ne {n : Nat} {a : Word} (hn : n < 4096) (h : n ≠ a.toNat) : Word.ofNat n ≠ a := by
  rintro rfl
  rw [toNat_ofNat_of_lt hn] at h
  exact h rfl

theorem ofNat_succ (n : Nat) : Word.ofNat (n + 1) = Word.ofNat n + 1 := BitVec.ofNat_add n 1

theorem toNat_add_one (a : Word) : (a + 1).toNat = (a.toNat + 1) % 4096 := BitVec.toNat_add a 1

theorem ofNat_succ_mul (n : Nat) (a : Word) : Word.ofNat (n + 1) * a = a + Word.ofNat n * a := by
  rw [ofNat_succ, BitVec.add_mul, BitVec.add_comm]
  exact congrArg (· + Word.ofNat n * a) (BitVec.one_mul a)

/-! ## Pages -/

@[simp] theorem toNat_offset (a : Word) : a.offset.toNat = a.toNat % 128 := by
  rw [offset, BitVec.toNat_and]
  exact Nat.and_two_pow_sub_one_eq_mod a.toNat 7

/-- Page and offset have no bit in common, so they add up to the address. -/
theorem page_add_offset (a : Word) : a.page + a.offset = a := by
  have hdisjoint : a.page &&& a.offset = 0 := by
    rw [page, offset, BitVec.and_assoc, ← BitVec.and_assoc _ a, BitVec.and_comm _ a,
      BitVec.and_assoc]
    simp
  rw [BitVec.add_eq_or_of_and_eq_zero _ _ hdisjoint, page_or_offset]

@[simp] theorem toNat_page (a : Word) : a.page.toNat = a.toNat / 128 * 128 := by
  have ha := a.isLt
  have hsum := congrArg BitVec.toNat (page_add_offset a)
  have hle : a.page.toNat ≤ a.toNat := by
    rw [page, BitVec.toNat_and]
    exact Nat.and_le_left
  rw [BitVec.toNat_add, toNat_offset] at hsum
  omega

theorem samePage_iff {a b : Word} : a.samePage b = true ↔ a.toNat / 128 = b.toNat / 128 := by
  rw [samePage, beq_iff_eq, ← BitVec.toNat_inj, toNat_page, toNat_page]
  omega

theorem page_eq_zero_iff {a : Word} : a.page = 0 ↔ a.toNat / 128 = 0 := by
  rw [← BitVec.toNat_inj, toNat_page]
  show a.toNat / 128 * 128 = 0 ↔ a.toNat / 128 = 0
  omega

/-- A page and an offset together are an address on that page. -/
theorem toNat_page_or_offset (a b : Word) :
    (a.page ||| b.offset).toNat = a.toNat / 128 * 128 + b.toNat % 128 := by
  have ha := a.isLt
  have hpage : a.page.toNat = 2 ^ 7 * (a.toNat / 128) := by rw [toNat_page]; omega
  have hlt : b.toNat % 128 < 2 ^ 7 := Nat.mod_lt _ (by decide)
  rw [BitVec.toNat_or, hpage, toNat_offset, ← Nat.two_pow_add_eq_or_of_lt hlt]
  omega

end Word

/-! ## Fields of an instruction -/

/-- The number of an operation code determines it. -/
theorem Opcode.code_toNat_inj {o p : Opcode} : o.code.toNat = p.code.toNat ↔ o = p := by
  constructor
  · intro h
    rw [← Opcode.ofCode_code o, ← Opcode.ofCode_code p, BitVec.eq_of_toNat_eq h]
  · rintro rfl
    rfl

namespace Instruction

theorem toNat_code (i : Instruction) : i.opcode.code.toNat = i.toNat / 512 := by
  have := i.isLt
  rw [opcode, Opcode.code_ofCode, BitVec.extractLsb'_toNat, Nat.shiftRight_eq_div_pow]
  omega

/-- A bit of a word is a remainder of a quotient. -/
theorem toNat_getLsbD (w : Word) (k : Nat) : (w.getLsbD k).toNat = w.toNat >>> k % 2 := by
  rw [BitVec.getLsbD, Nat.testBit_eq_decide_div_mod_eq, Nat.shiftRight_eq_div_pow]
  have := Nat.mod_lt (w.toNat / 2 ^ k) (show 0 < 2 by decide)
  by_cases h : w.toNat / 2 ^ k % 2 = 1
  · rw [h]
    rfl
  · rw [show w.toNat / 2 ^ k % 2 = 0 by omega]
    rfl

theorem toNat_indirect (i : Instruction) : i.indirect.toNat = i.toNat / 256 % 2 :=
  (toNat_getLsbD i 8).trans (by rw [Nat.shiftRight_eq_div_pow])

theorem toNat_pageZero (i : Instruction) : i.pageZero.toNat = i.toNat / 128 % 2 :=
  (toNat_getLsbD i 7).trans (by rw [Nat.shiftRight_eq_div_pow])

theorem indirect_iff {i : Instruction} : i.indirect = true ↔ i.toNat / 256 % 2 = 1 := by
  rw [← toNat_indirect]
  cases i.indirect <;> decide

theorem pageZero_iff {i : Instruction} : i.pageZero = true ↔ i.toNat / 128 % 2 = 1 := by
  rw [← toNat_pageZero]
  cases i.pageZero <;> decide

/-! ## The address that an instruction names -/

/-- The number of the address that a memory reference at `location` names before it goes through a
pointer: the offset on page zero, or on the page of the location. -/
def directAddress (i : Instruction) (location : Nat) : Nat :=
  (if i.toNat / 128 % 2 = 1 then 0 else location % 4096 / 128 * 128) + i.toNat % 128

theorem directAddress_lt (i : Instruction) (location : Nat) : i.directAddress location < 4096 := by
  rw [directAddress]
  split <;> omega

theorem directAddress_mod (i : Instruction) (location : Nat) :
    i.directAddress (location % 4096) = i.directAddress location := by
  rw [directAddress, directAddress, Nat.mod_mod]

theorem toNat_direct (i : Instruction) (location : Word) :
    (i.direct location).toNat = i.directAddress location.toNat := by
  have hlt := location.isLt
  rw [direct, directAddress, Nat.mod_eq_of_lt hlt]
  by_cases hz : i.pageZero = true
  · rw [if_pos hz, if_pos (pageZero_iff.mp hz), Nat.zero_add, BitVec.toNat_or, offset,
      Word.toNat_offset]
    exact Nat.zero_or _
  · rw [if_neg hz, if_neg (mt pageZero_iff.mpr hz), offset, Word.toNat_page_or_offset]

/-- The direct address seen from a number outside the machine. -/
theorem toNat_direct_ofNat (i : Instruction) (location : Nat) :
    (i.direct (Word.ofNat location)).toNat = i.directAddress location := by
  rw [toNat_direct, Word.toNat_ofNat, directAddress_mod]

/-- An indirect reference takes the word at its direct address for its address, and a plain one the
direct address itself. -/
theorem effectiveAddress_eq (i : Instruction) (location : Nat) (memory : Memory) :
    i.effectiveAddress (Word.ofNat location) memory =
      if i.toNat / 256 % 2 = 1 then memory.read (i.directAddress location)
      else Word.ofNat (i.directAddress location) := by
  have hdirect : i.direct (Word.ofNat location) = Word.ofNat (i.directAddress location) := by
    rw [← toNat_direct_ofNat, Word.ofNat_toNat]
  rw [effectiveAddress, Memory.read, ← hdirect]
  by_cases hi : i.indirect = true
  · rw [if_pos hi, if_pos (indirect_iff.mp hi)]
  · rw [if_neg hi, if_neg (mt indirect_iff.mpr hi)]

end Instruction

end TwelveBit
