import TwelveBit.Proofs.Correspondence

/-!
# An assembler that is used again

An assembler can be asked again and again, and keeps what the last source has left: the names, the
image, the place and the radix of a line in the middle of either pass, if that line failed. None of
this is ever seen. `Assembler.serve` answers one call, and `serveAll_fresh` says that every call of
every history is answered as a new assembler answers it.

A source corresponds to itself, line by line, so this is a case of `SourceLine.Pairing.assemble`.
-/

namespace TwelveBit.Assembly

/-- Every line corresponds to itself. -/
def SourceLine.Pairing.same : SourceLine.Pairing where
  number := id
  Pairs l l' := l' = l
  parse_eq h := congrArg SourceLine.parse h
  number_eq h := congrArg SourceLine.number h

theorem SourceLine.Pairing.Entries.eq {e e' : Entry} (h : Pairing.same.Entries e e') : e = e' := by
  obtain ⟨address, word, line⟩ := e
  obtain ⟨address', word', line'⟩ := e'
  obtain ⟨rfl, rfl, hline⟩ := h
  obtain rfl : line' = line := hline
  rfl

/-- Programs from the same lines are the same. -/
theorem SourceLine.Pairing.Programs.eq {p p' : Program} (h : Pairing.same.Programs p p') :
    p' = p := by
  have hlisting : List.Forall₂ (· = ·) p.listing p'.listing := h.listing.imp fun _ _ => Entries.eq
  rw [List.forall₂_eq_eq_eq] at hlisting
  have hsymbols : p'.symbols = p.symbols := h.symbols.trans p.symbols.renumber_id
  rw [Program.mk.injEq]
  exact ⟨h.image, hsymbols, hlisting.symm⟩

namespace Assembler

/-! ## Calls -/

/-- Something asked of an assembler. -/
inductive Call where
  | assemble (source : Text)
  | instruction (text : Text)
  deriving DecidableEq, Repr

/-- The answer to a call. -/
inductive Answer where
  | program (result : Except SourceError Program)
  | word (result : Except SourceError Word)

/-- What a pass answers, and the assembler that it leaves. -/
def outcome {α : Type} : EStateM.Result SourceError Assembler α → Except SourceError α × Assembler
  | .ok x a => (.ok x, a)
  | .error e a => (.error e, a)

/-- Answer a call. The assembler is left as the call has left it, also if it has failed. -/
def serve (a : Assembler) : Call → Answer × Assembler
  | .assemble source =>
    let (result, a) := outcome (assemble source a)
    (.program result, a)
  | .instruction text =>
    let (result, a) := outcome (instruction text a)
    (.word result, a)

def serveAll (a : Assembler) : List Call → List Answer × Assembler
  | [] => ([], a)
  | call :: rest =>
    let (answer, a) := a.serve call
    let (answers, a) := a.serveAll rest
    (answer :: answers, a)

/-! ## Every call is the first -/

/-- Assemblies of lines that correspond to themselves are answered alike. -/
theorem outcome_eq_of_same {first second : EStateM.Result SourceError Assembler Program}
    (h : SourceLine.Pairing.same.Results SourceLine.Pairing.same.Programs first second) :
    (outcome second).1 = (outcome first).1 := by
  cases h with
  | ok hprograms _ => exact congrArg Except.ok hprograms.eq
  | error e hline a b => exact congrArg (fun l => Except.error (l.locate e)) hline

theorem forall₂_same (lines : List SourceLine) :
    List.Forall₂ SourceLine.Pairing.same.Pairs lines lines := List.forall₂_same.mpr fun _ _ => rfl

theorem assemble_fresh (source : Text) (a b : Assembler) :
    (outcome (assemble source b)).1 = (outcome (assemble source a)).1 :=
  outcome_eq_of_same (SourceLine.Pairing.assemble (forall₂_same _) a b)

/-- The word of an instruction is one of its program. -/
theorem outcome_instruction (text : Text) (a : Assembler) :
    (outcome (instruction text a)).1 = (outcome (assemble text a)).1.map (·.word 0) := by
  show (outcome (EStateM.bind (assemble text) _ a)).1 = _
  rw [EStateM.bind]
  cases assemble text a <;> rfl

/-- **An assembler answers a call as any other does.** -/
theorem serve_fresh (call : Call) (a b : Assembler) : (b.serve call).1 = (a.serve call).1 := by
  cases call with
  | assemble source => exact congrArg Answer.program (assemble_fresh source a b)
  | instruction text =>
      show Answer.word (outcome (instruction text b)).1 = .word (outcome (instruction text a)).1
      rw [outcome_instruction, outcome_instruction, assemble_fresh text a b]

/-- **An assembler that is used again behaves as a new one.** Take any assembler and any history of
calls, whether they succeed or fail, and wherever. Every call is answered as a new assembler answers
it: with the same program, symbols, lines and listing included, with the same word, or with the same
error. The same goes for every call that comes next. -/
theorem serveAll_fresh (a : Assembler) (history : List Call) :
    (a.serveAll history).1 = history.map (fun call => (serve {} call).1) ∧
      ∀ call, ((a.serveAll history).2.serve call).1 = (serve {} call).1 := by
  constructor
  · induction history generalizing a with
    | nil => rfl
    | cons call rest ih => exact congrArg₂ List.cons (serve_fresh call {} a) (ih _)
  · intro call
    exact serve_fresh call {} _

end Assembler

end TwelveBit.Assembly
