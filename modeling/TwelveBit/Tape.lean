/-!
# Tapes

A tape collects records in the order in which they are made. It can also be off: then records are
dropped, and a long run does not pile them up.
-/

namespace TwelveBit

/-- A place for records, which may be off. -/
inductive Tape (α : Type) where
  | off
  /-- Records are kept, oldest first. -/
  | on (records : Array α)

namespace Tape

variable {α : Type}

/-- A tape that is on and has no records yet. -/
def blank : Tape α := .on #[]

def push (t : Tape α) (x : α) : Tape α :=
  match t with
  | .off => .off
  | .on records => .on (records.push x)

def toList : Tape α → List α
  | .off => []
  | .on records => records.toList

/-- Drop all records and stay on or off. -/
def clear : Tape α → Tape α
  | .off => .off
  | .on _ => blank

theorem foldl_push_on (records xs : List α) :
    xs.foldl push (on records.toArray) = on (records ++ xs).toArray := by
  induction xs generalizing records with
  | nil => rw [List.foldl_nil, List.append_nil]
  | cons x xs ih =>
      rw [List.foldl_cons, push, List.push_toArray, ih, List.append_assoc, List.singleton_append]

end Tape

end TwelveBit
