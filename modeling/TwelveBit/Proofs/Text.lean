import TwelveBit.Text.Basic

/-!
# Cutting text and joining it again

Text is put together from lines, and a line from words. Here cutting is the inverse of joining:

* `Text.lines_unlines` for lines without line ends in them,
* `Text.words_unwords` for words without blanks in them (`Text.IsWord`).

The words of an assembler line are made of ASCII letters and digits, which are not blank
(`isBlank_of_isAlphanum`).
-/

namespace TwelveBit

/-- The code points of the ASCII letters. -/
theorem toNat_of_isAlpha {c : Char} (h : c.isAlpha = true) :
    65 ≤ c.toNat ∧ c.toNat ≤ 90 ∨ 97 ≤ c.toNat ∧ c.toNat ≤ 122 := by
  change (decide (c.val ≥ 65 ∧ c.val ≤ 90) || (c.val ≥ 97 && c.val ≤ 122)) = true at h
  simpa [UInt32.le_iff_toNat_le] using h

/-- A digit is no letter. -/
theorem isAlpha_of_isDigit {c : Char} (h : c.isDigit = true) : c.isAlpha = false := by
  have hdigit : 48 ≤ c.toNat ∧ c.toNat ≤ 57 := Char.isDigit_iff_toNat.mp h
  rw [Bool.eq_false_iff]
  intro halpha
  have hletter := toNat_of_isAlpha halpha
  omega

theorem isAlphanum_of_isDigit {c : Char} (h : c.isDigit = true) : c.isAlphanum = true := by
  rw [Char.isAlphanum, h, Bool.or_true]

/-- ASCII letters and digits are not blank. -/
theorem isBlank_of_isAlphanum {c : Char} (h : c.isAlphanum = true) : isBlank c = false := by
  have hcode : (65 ≤ c.toNat ∧ c.toNat ≤ 90 ∨ 97 ≤ c.toNat ∧ c.toNat ≤ 122) ∨
      48 ≤ c.toNat ∧ c.toNat ≤ 57 := by
    rcases Bool.or_eq_true_iff.mp h with halpha | hdigit
    · exact Or.inl (toNat_of_isAlpha halpha)
    · exact Or.inr (Char.isDigit_iff_toNat.mp hdigit)
  rw [isBlank, List.any_eq_false]
  intro range hrange hin
  simp only [Bool.and_eq_true, decide_eq_true_eq] at hin
  simp only [blankRanges, List.mem_cons, List.not_mem_nil, or_false] at hrange
  rcases hrange with rfl | rfl | rfl | rfl | rfl | rfl | rfl | rfl | rfl | rfl
  all_goals
    simp only at hin
    omega

namespace Text

/-! ## Words -/

/-- A word is not empty and has no blank in it. -/
structure IsWord (w : Text) : Prop where
  ne_nil : w ≠ []
  not_blank : ∀ c ∈ w, isBlank c = false

/-- A text of ASCII letters and digits is a word. -/
theorem isWord_of_isAlphanum {w : Text} (hne : w ≠ []) (h : ∀ c ∈ w, c.isAlphanum = true) :
    IsWord w where
  ne_nil := hne
  not_blank c hc := isBlank_of_isAlphanum (h c hc)

@[simp] theorem unwords_singleton (w : Text) : unwords [w] = w := List.intercalate_singleton

theorem unwords_cons_cons (w v : Text) (rest : List Text) :
    unwords (w :: v :: rest) = w ++ ' ' :: unwords (v :: rest) := by
  rw [unwords, List.intercalate_cons_cons, unwords, List.append_assoc]
  rfl

/-- A character of joined words is a space or stands in one of the words. -/
theorem mem_unwords {ws : List Text} {c : Char} (hc : c ∈ unwords ws) :
    c = ' ' ∨ ∃ w ∈ ws, c ∈ w := by
  induction ws with
  | nil => cases hc
  | cons w rest ih =>
      cases rest with
      | nil =>
          rw [unwords_singleton] at hc
          exact Or.inr ⟨w, List.mem_cons_self, hc⟩
      | cons v rest =>
          rw [unwords_cons_cons] at hc
          rcases List.mem_append.mp hc with hw | hrest
          · exact Or.inr ⟨w, List.mem_cons_self, hw⟩
          · rcases List.mem_cons.mp hrest with hspace | hmem
            · exact Or.inl hspace
            · rcases ih hmem with hspace | ⟨u, hu, hcu⟩
              · exact Or.inl hspace
              · exact Or.inr ⟨u, List.mem_cons_of_mem w hu, hcu⟩

/-- A word is the only word of itself. -/
theorem words_of_isWord {w : Text} (h : IsWord w) : words w = [w] := by
  rw [words, List.splitOnP_eq_singleton h.not_blank, List.filter_cons_of_pos, List.filter_nil]
  rw [Bool.not_eq_true', List.isEmpty_eq_false_iff]
  exact h.ne_nil

/-- **Cutting joined words gives the words.** -/
theorem words_unwords {ws : List Text} (h : ∀ w ∈ ws, IsWord w) : words (unwords ws) = ws := by
  induction ws with
  | nil => rfl
  | cons w rest ih =>
      obtain ⟨hw, hrest⟩ := List.forall_mem_cons.mp h
      cases rest with
      | nil => rw [unwords_singleton, words_of_isWord hw]
      | cons v rest =>
          have hcut : words (w ++ ' ' :: unwords (v :: rest)) =
              w :: words (unwords (v :: rest)) := by
            rw [words, List.splitOnP_append_cons_of_forall_mem hw.not_blank ' ' (by decide),
              List.filter_cons_of_pos, ← words]
            rw [Bool.not_eq_true', List.isEmpty_eq_false_iff]
            exact hw.ne_nil
          rw [unwords_cons_cons, hcut, ih hrest]

/-! ## Blanks at the ends -/

theorem trimStart_of_not_blank {c : Char} (t : Text) (h : isBlank c = false) :
    trimStart (c :: t) = c :: t := by
  rw [trimStart, List.dropWhile_cons_of_neg]
  rw [h]
  exact Bool.false_ne_true

theorem trimEnd_of_not_blank {c : Char} (t : Text) (h : isBlank c = false) :
    trimEnd (t ++ [c]) = t ++ [c] := by
  rw [trimEnd, List.reverse_append, List.reverse_singleton, List.singleton_append,
    List.dropWhile_cons_of_neg, List.reverse_cons, List.reverse_reverse]
  rw [h]
  exact Bool.false_ne_true

/-- A word begins with a character that is not blank. -/
theorem IsWord.exists_cons {w : Text} (h : IsWord w) :
    ∃ c rest, w = c :: rest ∧ isBlank c = false := by
  obtain ⟨c, rest, rfl⟩ := List.exists_cons_of_ne_nil h.ne_nil
  exact ⟨c, rest, rfl, h.not_blank c List.mem_cons_self⟩

/-- A word ends with a character that is not blank. -/
theorem IsWord.exists_concat {w : Text} (h : IsWord w) :
    ∃ front c, w = front ++ [c] ∧ isBlank c = false := by
  refine ⟨w.dropLast, w.getLast h.ne_nil, ?_, h.not_blank _ (List.getLast_mem h.ne_nil)⟩
  exact (List.dropLast_concat_getLast h.ne_nil).symm

/-- A word has no blanks at its ends. -/
theorem IsWord.trim_eq {w : Text} (h : IsWord w) : trim w = w := by
  obtain ⟨c, rest, rfl, hc⟩ := h.exists_cons
  obtain ⟨front, d, hend, hd⟩ := h.exists_concat
  rw [trim, trimStart_of_not_blank rest hc, hend, trimEnd_of_not_blank front hd]

theorem trimStart_of_isWord {w : Text} (h : IsWord w) (t : Text) :
    trimStart (w ++ t) = w ++ t := by
  obtain ⟨c, rest, rfl, hc⟩ := h.exists_cons
  exact trimStart_of_not_blank (rest ++ t) hc

/-- The last character of joined words is the last of the last word. -/
theorem exists_concat_unwords {ws : List Text} (hne : ws ≠ []) (h : ∀ w ∈ ws, IsWord w) :
    ∃ front c, unwords ws = front ++ [c] ∧ isBlank c = false := by
  induction ws with
  | nil => exact absurd rfl hne
  | cons w rest ih =>
      obtain ⟨hw, hrest⟩ := List.forall_mem_cons.mp h
      cases rest with
      | nil =>
          rw [unwords_singleton]
          exact hw.exists_concat
      | cons v rest =>
          obtain ⟨front, c, heq, hc⟩ := ih (List.cons_ne_nil v rest) hrest
          refine ⟨w ++ ' ' :: front, c, ?_, hc⟩
          rw [unwords_cons_cons, heq, List.append_assoc, List.cons_append]

/-- Joined words have no blanks at their ends. -/
theorem trim_unwords {ws : List Text} (h : ∀ w ∈ ws, IsWord w) :
    trim (unwords ws) = unwords ws := by
  cases ws with
  | nil => rfl
  | cons w rest =>
      have hw := h w List.mem_cons_self
      have hstart : trimStart (unwords (w :: rest)) = unwords (w :: rest) := by
        cases rest with
        | nil =>
            rw [unwords_singleton, ← List.append_nil w]
            exact trimStart_of_isWord hw []
        | cons v rest =>
            rw [unwords_cons_cons]
            exact trimStart_of_isWord hw _
      obtain ⟨front, c, heq, hc⟩ := exists_concat_unwords (List.cons_ne_nil w rest) h
      rw [trim, hstart, heq]
      exact trimEnd_of_not_blank front hc

/-! ## Lines -/

theorem dropReturn_of_not_mem {l : Text} (h : '\r' ∉ l) : dropReturn l = l := by
  rw [dropReturn, if_neg]
  intro hlast
  exact h (List.mem_of_getLast? hlast)

theorem dropReturn_of_ne {l : Text} (h : ∀ front, l ≠ front ++ ['\r']) : dropReturn l = l := by
  rw [dropReturn, if_neg]
  intro hlast
  obtain ⟨front, heq⟩ := List.getLast?_eq_some_iff.mp hlast
  exact h front heq

theorem dropReturn_concat (l : Text) : dropReturn (l ++ ['\r']) = l := by
  rw [dropReturn, List.getLast?_concat, if_pos rfl, List.dropLast_concat]

/-- A carriage return is dropped from behind another character. -/
theorem dropReturn_append_cons {c : Char} (hc : c ≠ '\r') (front l : Text) :
    dropReturn (front ++ c :: l) = front ++ c :: dropReturn l := by
  unfold dropReturn
  cases l with
  | nil => simp [hc]
  | cons d l =>
      have hlast : (front ++ c :: d :: l).getLast? = (d :: l).getLast? := by
        rw [List.getLast?_append, List.getLast?_cons_cons, List.getLast?_cons]
        rfl
      rw [hlast]
      split
      · rw [List.dropLast_append_cons, List.dropLast_cons_cons]
      · rfl

theorem bne_of_not_mem {t : Text} {c : Char} (h : c ∉ t) : ∀ d ∈ t, (d != c) = true := by
  intro d hd
  rw [bne_iff_ne]
  rintro rfl
  exact h hd

/-- Nothing at which a text is cut is left in a piece. -/
theorem not_of_mem_splitOnP {p : Char → Bool} {t piece : Text} (h : piece ∈ t.splitOnP p) :
    ∀ c ∈ piece, p c = false := by
  induction t generalizing piece with
  | nil =>
      rw [List.splitOnP_nil, List.mem_singleton] at h
      rw [h]
      exact List.forall_mem_nil _
  | cons d t ih =>
      obtain ⟨first, pieces, hpieces⟩ := List.exists_cons_of_ne_nil (List.splitOnP_ne_nil p t)
      rw [List.splitOnP_cons_eq_if_modifyHead, hpieces] at h
      rw [hpieces] at ih
      split at h
      · rcases List.mem_cons.mp h with rfl | hmem
        · exact List.forall_mem_nil _
        · exact ih hmem
      · next hne =>
          rcases List.mem_cons.mp h with rfl | hmem
          · exact List.forall_mem_cons.mpr ⟨Bool.eq_false_iff.mpr hne, ih List.mem_cons_self⟩
          · exact ih (List.mem_cons_of_mem _ hmem)

theorem not_mem_of_mem_splitOn {t piece : Text} {c : Char} (h : piece ∈ t.splitOn c) :
    c ∉ piece :=
  fun hc => beq_eq_false_iff_ne.mp (not_of_mem_splitOnP h c hc) rfl

/-- The words of a text are words. -/
theorem isWord_of_mem_words {t w : Text} (h : w ∈ words t) : IsWord w := by
  obtain ⟨hpiece, hne⟩ := List.mem_filter.mp h
  exact ⟨by simpa using hne, not_of_mem_splitOnP hpiece⟩

/-- A character of another kind does not occur. -/
theorem bne_of_kind {kind : Char → Bool} {t : Text} {d : Char} (h : ∀ c ∈ t, kind c = true)
    (hd : kind d = false) : ∀ c ∈ t, (c != d) = true := by
  intro c hc
  rw [bne_iff_ne]
  rintro rfl
  rw [h c hc] at hd
  cases hd

/-- Digits at the end of a line do not end it. -/
theorem not_mem_append_of_isDigit {t digits : Text} (h : '\n' ∉ t ∧ '\r' ∉ t)
    (hdigits : ∀ c ∈ digits, c.isDigit = true) : '\n' ∉ t ++ digits ∧ '\r' ∉ t ++ digits := by
  have hother {d : Char} (hd : d.isDigit = false) : d ∉ digits :=
    fun hmem => bne_iff_ne.mp (bne_of_kind hdigits hd d hmem) rfl
  simp only [List.mem_append, not_or]
  exact ⟨⟨h.1, hother (by decide)⟩, ⟨h.2, hother (by decide)⟩⟩

/-- **Cutting joined lines gives the lines.** -/
theorem lines_unlines {ls : List Text} (h : ∀ l ∈ ls, '\n' ∉ l ∧ '\r' ∉ l) :
    lines (unlines ls) = ls := by
  induction ls with
  | nil => rfl
  | cons l rest ih =>
      obtain ⟨⟨hfeed, hreturn⟩, hrest⟩ := List.forall_mem_cons.mp h
      have hjoin : unlines (l :: rest) = l ++ '\n' :: unlines rest := by
        rw [unlines, List.flatMap_cons, List.append_assoc]
        rfl
      obtain ⟨piece, pieces, hpieces⟩ :=
        List.exists_cons_of_ne_nil (List.splitOn_ne_nil '\n' (unlines rest))
      rw [hjoin, lines, List.splitOn_append_cons_self_of_not_mem hfeed, hpieces, linesOfPieces,
        dropReturn_of_not_mem hreturn, ← hpieces]
      exact congrArg (l :: ·) (ih hrest)

end Text

end TwelveBit
