import TwelveBit.Word

/-!
# The link and the accumulator

The accumulator is the word that arithmetic works on. The *link* is one further bit above it: an
addition leaves its carry there, and a rotation passes through it, so the two form a ring of
thirteen bits.
-/

namespace TwelveBit

structure LinkAccumulator where
  link : Bool := false
  ac : Word := 0
  deriving DecidableEq, Repr

namespace LinkAccumulator

/-- Add a word to the accumulator. The carry replaces the link, whatever the link was. -/
def add (x : LinkAccumulator) (w : Word) : LinkAccumulator :=
  let (sum, carry) := x.ac.addCarry w
  { link := carry, ac := sum }

/-- One place right: the link enters at the top, and the lowest bit becomes the link. -/
def rotateRight (x : LinkAccumulator) : LinkAccumulator where
  link := x.ac.getLsbD 0
  ac := .cons x.link (x.ac.extractLsb' 1 11)

/-- One place left: the link enters at the bottom, and the top bit becomes the link. -/
def rotateLeft (x : LinkAccumulator) : LinkAccumulator where
  link := x.ac.msb
  ac := .concat (x.ac.setWidth 11) x.link

/-! ## Rotations undo each other -/

@[simp] theorem rotateLeft_rotateRight (x : LinkAccumulator) : x.rotateRight.rotateLeft = x := by
  obtain ⟨link, ac⟩ := x
  simp only [rotateLeft, rotateRight, mk.injEq]
  refine ⟨by simp, BitVec.eq_of_getLsbD_eq fun i hi => ?_⟩
  cases i with
  | zero => simp
  | succ i => simp [Nat.add_comm 1 i]; omega

@[simp] theorem rotateRight_rotateLeft (x : LinkAccumulator) : x.rotateLeft.rotateRight = x := by
  obtain ⟨link, ac⟩ := x
  simp only [rotateLeft, rotateRight, mk.injEq]
  refine ⟨by simp, BitVec.eq_of_getLsbD_eq fun i hi => ?_⟩
  by_cases h : i = 11
  · subst h; rw [BitVec.getLsbD_cons]; simp [BitVec.msb_eq_getLsbD_last]
  · simp [BitVec.getLsbD_cons, h, BitVec.getLsbD_concat]; omega

end LinkAccumulator

end TwelveBit
