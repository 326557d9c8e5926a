import TwelveBit.Instruction.MicroOperation
import TwelveBit.Registers

/-!
# What micro-operations do

The micro-operations of the first group act on the accumulator and the link in a fixed order: clear,
complement, increment, rotate. An instruction that rotates both ways rotates right first.

Those of the second group test first. The skip looks at the accumulator and the link as the
instruction finds them; only then is the accumulator cleared, and the switches come last.
-/

namespace TwelveBit

/-- Apply a function exactly when the condition holds. -/
def applyIf {α : Type} (condition : Bool) (f : α → α) (x : α) : α := if condition then f x else x

@[simp] theorem applyIf_true {α : Type} (f : α → α) (x : α) : applyIf true f x = f x := rfl

@[simp] theorem applyIf_false {α : Type} (f : α → α) (x : α) : applyIf false f x = x := rfl

namespace GroupOne

/-- A rotation by one place or by two. -/
def turn (g : GroupOne) (rotate : LinkAccumulator → LinkAccumulator) (x : LinkAccumulator) :
    LinkAccumulator :=
  if g.twice then rotate (rotate x) else rotate x

/-- The accumulator and the link after the micro-operations. -/
def apply (g : GroupOne) (x : LinkAccumulator) : LinkAccumulator :=
  let x := applyIf g.clear (fun x => { x with ac := 0 }) x
  let x := applyIf g.clearLink (fun x => { x with link := false }) x
  let x := applyIf g.complement (fun x => { x with ac := ~~~x.ac }) x
  let x := applyIf g.complementLink (fun x => { x with link := !x.link }) x
  let x := applyIf g.increment (fun x => x.add 1) x
  let x := applyIf g.right (g.turn .rotateRight) x
  applyIf g.left (g.turn .rotateLeft) x

end GroupOne

namespace GroupTwo

/-- Whether some test holds: a negative accumulator, a zero accumulator, a link that is set. -/
def anyTest (g : GroupTwo) (x : LinkAccumulator) : Bool :=
  (g.sign && x.ac.negative) || (g.zero && x.ac == 0) || (g.link && x.link)

/-- Whether the opposite of every test holds: an accumulator that is not negative, an accumulator
that is not zero, a link that is clear. -/
def allOpposite (g : GroupTwo) (x : LinkAccumulator) : Bool :=
  (!g.sign || !x.ac.negative) && (!g.zero || x.ac != 0) && (!g.link || !x.link)

/-- Whether the next instruction is skipped. -/
def skips (g : GroupTwo) (x : LinkAccumulator) : Bool :=
  if g.opposite then g.allOpposite x else g.anyTest x

/-- The registers after the micro-operations. The number on the switches counts modulo 4096. -/
def apply (g : GroupTwo) (switches : Nat) (r : Registers) : Registers :=
  let skip := g.skips r.toLinkAccumulator
  let r := r.skipIf skip
  let r := applyIf g.clear (fun r => { r with ac := 0 }) r
  applyIf g.switches (fun r => { r with ac := r.ac ||| Word.ofNat switches }) r

end GroupTwo

end TwelveBit
