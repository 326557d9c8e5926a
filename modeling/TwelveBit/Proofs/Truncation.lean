import TwelveBit.Proofs.Reuse
import TwelveBit.Proofs.Spacing

/-!
# The end of the program

A line that ends the program is the last that plays a part. `BeforeLine.lines_append` cuts the lines
of a source where a line begins, so what stands behind the end of the program is lines of its own. A
walk that comes to the end answers as if the lines had stopped in front of it
(`Pass.walk_append_of_finish`), and this holds of either pass, on success and on every error. So
`assemble_truncated`: a source is assembled as if it were cut there.
-/

namespace TwelveBit

/-! ## Lines in front of a line -/

namespace Text

/-- Pieces in front of others were ended by line feeds. -/
theorem linesOfPieces_append (pieces : List Text) {rest : List Text} (h : rest ≠ []) :
    linesOfPieces (pieces ++ rest) = pieces.map dropReturn ++ linesOfPieces rest := by
  induction pieces with
  | nil => rfl
  | cons piece pieces ih =>
      obtain ⟨next, others, hnext⟩ :=
        List.exists_cons_of_ne_nil (List.append_ne_nil_of_right_ne_nil pieces h)
      rw [List.cons_append, hnext, linesOfPieces, ← hnext, ih]
      rfl

theorem lines_append_feed (front back : Text) :
    lines (front ++ '\n' :: back) = (front.splitOn '\n').map dropReturn ++ lines back := by
  rw [lines, List.splitOn_append_cons_self, linesOfPieces_append _ (List.splitOn_ne_nil '\n' back)]
  rfl

end Text

namespace Assembly

/-- The lines in front of a line are lines for themselves. -/
theorem BeforeLine.lines_append {front : Text} (h : BeforeLine front) (back : Text) :
    (front ++ back).lines = front.lines ++ back.lines := by
  cases h with
  | nothing => rfl
  | feed front =>
      rw [List.append_assoc, List.singleton_append, Text.lines_append_feed,
        Text.lines_append_feed]
      exact congrArg (· ++ back.lines) (List.append_nil _).symm

/-- The source in front of an end of the program has its lines for itself, and then comes the
end. -/
theorem SourceLine.exists_ofSource_finish {front : Text} (h : BeforeLine front) (back : Text) :
    ∃ number rest, ofSource (front ++ '$' :: '\n' :: back) =
      ofSource front ++ { number, text := ['$'] } :: rest := by
  have hlines : Text.lines ('$' :: '\n' :: back) = ['$'] :: back.lines :=
    Text.lines_append_feed ['$'] back
  unfold ofSource
  rw [h.lines_append, hlines, List.zipIdx_append, List.filterMap_append, List.zipIdx_cons]
  exact ⟨_, _, rfl⟩

namespace Pass

variable {l : SourceLine} {visit : SourceLine → Pass Finding}

/-- The first pass ends at the end of the program, also where memory is full. -/
theorem layOut_of_finish (h : l.parse = .ok ⟨none, .finish⟩) (a : Assembler) :
    layOut l a = .ok .finish a := by
  rw [layOut_of_parse h]
  rfl

/-- So does the second. -/
theorem fill_of_finish (h : l.parse = .ok ⟨none, .finish⟩) (a : Assembler) :
    fill l a = .ok .finish a := by
  rw [fill_of_parse h]
  rfl

/-- **No walk goes on behind a line at which every visit finishes.** -/
theorem walk_append_of_finish (hfinish : ∀ a, visit l a = .ok .finish a)
    (front back : List SourceLine) (a : Assembler) :
    walk visit (front ++ l :: back) a = walk visit front a := by
  -- on the lines in front, each of which may also be the last one visited
  induction front generalizing a with
  | nil =>
      rw [List.nil_append, walk_cons, hfinish]
      rfl
  | cons first rest ih =>
      rw [List.cons_append, walk_cons, walk_cons]
      rcases visit first a with ⟨_ | _ | entry, a₁⟩ | ⟨e, a₁⟩
      · rfl
      · exact ih a₁
      · dsimp only
        rw [ih]
      · rfl

end Pass

namespace Assembler

/-- **The end of the program truncates a source.** Let a line that is nothing but `$` stand in a
source, behind nothing or behind a line feed. Whatever stands behind it has no part in what is
answered: it is the program of the source in front, with its words, its symbols, and its listing
with the numbers of the lines, or the error of the source in front. -/
theorem assemble_truncated {front : Text} (h : BeforeLine front) (back : Text) (a b : Assembler) :
    (outcome (assemble (front ++ '$' :: '\n' :: back) b)).1 = (outcome (assemble front a)).1 := by
  obtain ⟨number, rest, hlines⟩ := SourceLine.exists_ofSource_finish h back
  have hparse : SourceLine.parse { number, text := ['$'] } = .ok ⟨none, .finish⟩ := rfl
  refine outcome_eq_of_same (SourceLine.Pairing.assemble_of_walks ?_ ?_ a b)
  · intro a b hrelates
    rw [hlines, Pass.walk_append_of_finish (Pass.layOut_of_finish hparse)]
    exact SourceLine.Pairing.walk SourceLine.Pairing.layOut (forall₂_same _) hrelates
  · intro a b hrelates
    rw [hlines, Pass.walk_append_of_finish (Pass.fill_of_finish hparse)]
    exact SourceLine.Pairing.walk SourceLine.Pairing.fill (forall₂_same _) hrelates

/-- The last word of memory is used up in front of the end of the program. Behind it stand a line
that has no place any more, one that defines a name again, and one that cannot be read. -/
theorem assemble_truncated_where_memory_is_full :
    let front : Text := "A, *7777\nA, 5252\n".toList
    let back : Text := "7\nA, *0\n) (".toList
    BeforeLine front ∧
      (outcome (assemble (front ++ '$' :: '\n' :: back) {})).1 = (outcome (assemble front {})).1 ∧
      ∃ p a', assemble (front ++ '$' :: '\n' :: back) {} = .ok p a' ∧
        p.listing.map (fun e => (e.address, e.word, e.line.number)) = [(0o7777, 0o5252, 2)] ∧
        p.symbols.get? "A" = some ⟨0o7777, 2⟩ := by
  intro front back
  have hfront : BeforeLine front := by
    have hfeed : front = "A, *7777\nA, 5252".toList ++ ['\n'] := by decide +kernel
    rw [hfeed]
    exact .feed _
  have hresult : ((assemble (front ++ '$' :: '\n' :: back)).run' {}).map (fun p =>
      (p.listing.map fun e => (e.address, e.word, e.line.number), p.symbols.get? "A")) =
        some ([(0o7777, 0o5252, 2)], some ⟨0o7777, 2⟩) := by decide +kernel
  obtain ⟨p, a', h, hp⟩ := Pass.eq_ok_of_run' hresult
  obtain ⟨hlisting, hsymbol⟩ := Prod.mk.inj hp
  exact ⟨hfront, assemble_truncated hfront back {} {}, p, a', h, hlisting, hsymbol⟩

end Assembler

end Assembly

end TwelveBit
