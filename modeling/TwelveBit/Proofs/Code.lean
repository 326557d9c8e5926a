import Mathlib.Data.List.TakeWhile
import TwelveBit.Assembly.Line
import TwelveBit.Proofs.Text

/-!
# The code of a line

What of a line is code, and what is not: a comment begins at the first slash, and blanks at the ends
are dropped. So nothing is changed by blanks in front of a line (`code_blank_append`), by blanks or
a comment behind it (`code_append_blank`, `code_append_comment`), or by a carriage return at its
end.
-/

namespace TwelveBit

/-! ## Blanks at the ends of a text -/

namespace Text

variable {blanks : Text} (h : ∀ c ∈ blanks, isBlank c = true)

include h

theorem trim_blank_append (t : Text) : trim (blanks ++ t) = trim t := by
  unfold trim trimStart
  rw [List.dropWhile_append_of_pos h]

theorem trimEnd_append_blank (t : Text) : trimEnd (t ++ blanks) = trimEnd t := by
  have hreverse : ∀ c ∈ blanks.reverse, isBlank c = true := by
    intro c hc
    exact h c (List.mem_reverse.mp hc)
  unfold trimEnd
  rw [List.reverse_append, List.dropWhile_append_of_pos hreverse]

theorem trim_append_blank (t : Text) : trim (t ++ blanks) = trim t := by
  unfold trim trimStart
  rw [List.dropWhile_append]
  split
  · next hnone =>
      rw [List.dropWhile_eq_nil_iff.mpr h, List.isEmpty_iff.mp hnone]
  · exact trimEnd_append_blank h _

end Text

namespace Assembly

/-! ## Comments -/

section Comment

variable {front : Text}

/-- A line has no slash in it, or a comment from its first slash on. -/
theorem comment_cases (t : Text) :
    '/' ∉ t ∨ ∃ front comment, t = front ++ '/' :: comment ∧ '/' ∉ front := by
  by_cases h : '/' ∈ t
  · exact .inr (List.eq_append_cons_of_mem h)
  · exact .inl h

theorem takeWhile_slash (h : '/' ∉ front) : front.takeWhile (· != '/') = front :=
  List.takeWhile_eq_self_iff.mpr (Text.bne_of_not_mem h)

theorem takeWhile_slash_append (h : '/' ∉ front) (comment : Text) :
    (front ++ '/' :: comment).takeWhile (· != '/') = front := by
  rw [List.takeWhile_append_of_pos (Text.bne_of_not_mem h),
    List.takeWhile_cons_of_neg (by decide), List.append_nil]

theorem code_append_comment (t comment : Text) : code (t ++ '/' :: comment) = code t := by
  unfold code
  rcases comment_cases t with h | ⟨front, before, rfl, h⟩
  · rw [takeWhile_slash_append h, takeWhile_slash h]
  · rw [List.append_assoc, List.cons_append, takeWhile_slash_append h, takeWhile_slash_append h]

end Comment

/-! ## Blanks -/

section Blanks

variable {blanks : Text} (h : ∀ c ∈ blanks, isBlank c = true)

include h

theorem slash_not_mem_blanks : '/' ∉ blanks := fun hmem => absurd (h _ hmem) (by decide)

theorem code_blank_append (t : Text) : code (blanks ++ t) = code t := by
  unfold code
  rw [List.takeWhile_append_of_pos (Text.bne_of_not_mem (slash_not_mem_blanks h)),
    Text.trim_blank_append h]

theorem code_append_blank (t : Text) : code (t ++ blanks) = code t := by
  unfold code
  rcases comment_cases t with hslash | ⟨front, comment, rfl, hslash⟩
  · have hboth : '/' ∉ t ++ blanks := List.not_mem_append hslash (slash_not_mem_blanks h)
    rw [takeWhile_slash hboth, takeWhile_slash hslash, Text.trim_append_blank h]
  · rw [List.append_assoc, List.cons_append, takeWhile_slash_append hslash,
      takeWhile_slash_append hslash]

/-- Nothing but blanks is no code. -/
theorem code_of_blanks : code blanks = [] := code_append_blank h []

end Blanks

/-- The carriage return before a line feed is a blank. -/
theorem code_dropReturn (t : Text) : code (Text.dropReturn t) = code t := by
  by_cases h : ∃ front, t = front ++ ['\r']
  · obtain ⟨front, rfl⟩ := h
    rw [Text.dropReturn_concat, code_append_blank (List.forall_mem_singleton.mpr rfl)]
  · rw [Text.dropReturn_of_ne fun front heq => h ⟨front, heq⟩]

end Assembly

end TwelveBit
