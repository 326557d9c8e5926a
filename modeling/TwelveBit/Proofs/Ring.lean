import TwelveBit.LinkAccumulator

/-!
# The ring of the link and the accumulator

The link and the accumulator are a row of thirteen bits with the link on top
(`LinkAccumulator.bits`), whose ends meet. `turned` turns such a row by a number of places, to the
left if the number is positive and to the right if it is negative.

Turns one after another add up (`turned_turned`), and thirteen places are a whole turn
(`turned_of_dvd`). Every bit is found again in the place to which it has been turned
(`getLsbD_turned_add`). The machine moves the bits through the link one at a time;
`bits_rotateLeft` and `bits_rotateRight` prove that this is turning by one place.
-/

namespace TwelveBit

/-! ## Turning thirteen bits -/

/-- Thirteen bits rotated to the left by a number of places, which counts modulo 13. -/
def turned (places : Int) (v : BitVec 13) : BitVec 13 := v.rotateLeft (places % 13).toNat

section Turned

variable {v : BitVec 13} {i : Nat} {places : Int}

/-- The bit in a place comes from so many places further right. -/
theorem getLsbD_turned (hi : i < 13) :
    (turned places v).getLsbD i = v.getLsbD ((i - places) % 13).toNat := by
  have hplaces : (places % 13).toNat < 13 := by omega
  rw [turned, BitVec.getLsbD_rotateLeft, Nat.mod_eq_of_lt hplaces]
  by_cases h : i < (places % 13).toNat
  · rw [decide_eq_true h, cond_true]
    congr 1
    omega
  · rw [decide_eq_false h, cond_false, decide_eq_true hi, Bool.true_and]
    congr 1
    omega

/-- **No bit is lost**: each one is found again so many places further left. -/
theorem getLsbD_turned_add (hi : i < 13) :
    (turned places v).getLsbD ((i + places) % 13).toNat = v.getLsbD i := by
  have hplace : ((i + places) % 13).toNat < 13 := by omega
  rw [getLsbD_turned hplace]
  congr 1
  omega

/-- Turns add up. -/
theorem turned_turned (first second : Int) (v : BitVec 13) :
    turned second (turned first v) = turned (first + second) v := by
  apply BitVec.eq_of_getLsbD_eq
  intro i hi
  have hplace : ((i - second) % 13).toNat < 13 := by omega
  rw [getLsbD_turned hi, getLsbD_turned hplace, getLsbD_turned hi]
  congr 1
  omega

/-- A number of whole turns changes nothing. -/
theorem turned_of_dvd (h : 13 ∣ places) (v : BitVec 13) : turned places v = v := by
  apply BitVec.eq_of_getLsbD_eq
  intro i hi
  rw [getLsbD_turned hi]
  congr 1
  omega

@[simp] theorem turned_zero (v : BitVec 13) : turned 0 v = v := turned_of_dvd (Int.dvd_zero 13) v

theorem rotateLeft_eq_turned {k : Nat} (hk : k < 13) (v : BitVec 13) :
    v.rotateLeft k = turned k v := by
  have hmod : ((k : Int) % 13).toNat = k := by omega
  rw [turned, hmod]

theorem rotateRight_eq_turned {k : Nat} (hk : k < 13) (v : BitVec 13) :
    v.rotateRight k = turned (-k) v := by
  apply BitVec.eq_of_getLsbD_eq
  intro i hi
  rw [getLsbD_turned hi, BitVec.getLsbD_rotateRight, Nat.mod_eq_of_lt hk]
  grind

/-- Rotating to the right and as far to the left again changes nothing. -/
theorem rotateLeft_rotateRight {k : Nat} (hk : k < 13) (v : BitVec 13) :
    (v.rotateRight k).rotateLeft k = v := by
  rw [rotateLeft_eq_turned hk, rotateRight_eq_turned hk, turned_turned, Int.add_left_neg,
    turned_zero]

end Turned

/-! ## The link on top of the accumulator -/

namespace LinkAccumulator

/-- The link and the accumulator as one row of bits, with the link on top. -/
def bits (x : LinkAccumulator) : BitVec 13 := .cons x.link x.ac

theorem toNat_bits (x : LinkAccumulator) : x.bits.toNat = 4096 * x.link.toNat + x.ac.toNat := by
  rw [bits, BitVec.toNat_cons', Nat.shiftLeft_eq, Nat.mul_comm]

theorem getLsbD_bits (x : LinkAccumulator) (i : Nat) :
    x.bits.getLsbD i = if i = 12 then x.link else x.ac.getLsbD i := BitVec.getLsbD_cons ..

/-- The bits determine the link and the accumulator. -/
theorem bits_inj {x y : LinkAccumulator} : x.bits = y.bits ↔ x = y := by
  constructor
  · intro h
    have hbit (i : Nat) : x.bits.getLsbD i = y.bits.getLsbD i := by rw [h]
    simp only [getLsbD_bits] at hbit
    have hlink : x.link = y.link := hbit 12
    have hac : x.ac = y.ac := by
      apply BitVec.eq_of_getLsbD_eq
      intro i hi
      have hne : i ≠ 12 := by omega
      simpa only [if_neg hne] using hbit i
    cases x
    congr
  · rintro rfl
    rfl

/-- Rotating left turns the row by one place. -/
theorem bits_rotateLeft (x : LinkAccumulator) : x.rotateLeft.bits = turned 1 x.bits := by
  apply BitVec.eq_of_getLsbD_eq
  intro i hi
  rw [getLsbD_turned hi, getLsbD_bits, getLsbD_bits]
  cases i with
  | zero => exact BitVec.getLsbD_concat_zero
  | succ i =>
      have hback : ((i + 1 : Nat) - 1 : Int) % 13 = i := by omega
      have hne : i ≠ 12 := by omega
      rw [hback, Int.toNat_natCast, if_neg hne]
      by_cases h : i = 11
      · -- the top bit of the accumulator, which becomes the link
        rw [if_pos (congrArg (· + 1) h), h]
        exact BitVec.msb_eq_getLsbD_last x.ac
      · have hlt : i < 11 := by omega
        simp [rotateLeft, h, hlt]

/-- Rotating right turns the row back by one place. -/
theorem bits_rotateRight (x : LinkAccumulator) : x.rotateRight.bits = turned (-1) x.bits := by
  have hleft := bits_rotateLeft x.rotateRight
  rw [rotateLeft_rotateRight] at hleft
  rw [hleft, turned_turned]
  exact (turned_zero _).symm

end LinkAccumulator

end TwelveBit
