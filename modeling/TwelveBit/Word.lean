/-!
# Words of twelve bits

Everything the machine holds is a *word* of twelve bits, and an address is a word too, so memory has
`2 ^ 12 = 4096` words. The high five bits of an address name its *page* and the low seven its
*offset* within the page: an instruction has room for an offset only, which is why the page of an
address matters to the assembler, to the machine and to the disassembler alike.

A number that comes from outside the machine may be larger than a word. `Word.ofNat` keeps its low
twelve bits, and this is the only way in which an outside number enters.
-/

namespace TwelveBit

/-- A machine word, and also an address. -/
abbrev Word := BitVec 12

namespace Word

/-- The word that a number from outside stands for: the number modulo 4096. -/
abbrev ofNat (n : Nat) : Word := BitVec.ofNat 12 n

/-- The address of the first word of the page that holds `a`. -/
def page (a : Word) : Word := a &&& 0o7600

def offset (a : Word) : Word := a &&& 0o177

/-- Two addresses on one page can reach each other by an offset alone. -/
def samePage (a b : Word) : Bool := a.page == b.page

/-- Page and offset together are the address. -/
theorem page_or_offset (a : Word) : a.page ||| a.offset = a := by
  rw [page, offset, ← BitVec.and_or_distrib_left]
  exact BitVec.and_allOnes

/-- The sum of two words, with the carry out of the top bit. -/
def addCarry (a b : Word) : Word × Bool := (a + b, decide (4096 ≤ a.toNat + b.toNat))

/-- The carry stands for 4096: sum and carry together are the sum of the numbers. -/
theorem addCarry_toNat (a b : Word) :
    4096 * (a.addCarry b).2.toNat + (a.addCarry b).1.toNat = a.toNat + b.toNat := by
  have ha := a.isLt
  have hb := b.isLt
  by_cases h : 4096 ≤ a.toNat + b.toNat
  · simp only [addCarry, h, decide_true, Bool.toNat_true, BitVec.toNat_add]
    omega
  · simp only [addCarry, h, decide_false, Bool.toNat_false, BitVec.toNat_add]
    omega

/-- A word is negative when its top bit is set. -/
def negative (a : Word) : Bool := a.msb

/-- The two's complement value of a word, from -2048 to 2047. -/
def signed (a : Word) : Int := a.toInt

end Word

end TwelveBit
