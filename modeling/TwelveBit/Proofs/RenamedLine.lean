import TwelveBit.Proofs.Code
import TwelveBit.Proofs.Renaming

/-!
# Reading renamed lines

A line is trimmed, cut at its comma and into words, and tried as one kind of statement after another.
All of that commutes with a renaming: a renamed text is taken for the same kind of statement
(`Statement.parse?_text`), and a renamed line reads as the line with its label and its symbols
renamed, or cannot be read either (`Line.parse_text`).

The comment of a line is no part of its code and is kept (`Renaming.line`). A renamed source has the
renamed lines, with the same numbers (`Renaming.ofSource_source`).
-/

namespace TwelveBit.Assembly

variable (ρ : Renaming)

/-! ## Expressions -/

theorem Term.ofToken?_token (t : Text) :
    ofToken? (ρ.token t) = (ofToken? t).map (mapNames ρ.token) := by
  unfold ofToken?
  rw [ρ.isDigits_token, ρ.isName_token]
  cases hdigits : isDigits t with
  | true =>
      rw [ρ.token_of_not_isName (isName_of_isDigits hdigits)]
      rfl
  | false => cases isName t <;> rfl

theorem Term.read?_text (t : Text) :
    read? (ρ.text t) = (read? t).map fun (term, rest) =>
      (term.mapNames ρ.token, ρ.text rest) := by
  unfold read?
  rw [Text.trimStart_mapTokens ρ.tokenMap]
  generalize t.trimStart = t
  -- a dot stands in front of both texts or of neither; without one, a token is read
  split
  · next rest h =>
      obtain ⟨rest, rfl, rfl⟩ := (Text.mapTokens_eq_cons_iff ρ.tokenMap (by decide)).mp h
      rfl
  · next hnot =>
      have hnot' (rest : Text) : t ≠ '.' :: rest := by
        rintro rfl
        exact hnot _ (Text.mapTokens_cons ρ.tokenMap (by decide) rest)
      rw [Text.takeWhile_mapTokens ρ.tokenMap Text.uniform_isAlphanum,
        Text.mapTokens_takeWhile ρ.tokenMap, Term.ofToken?_token,
        Text.dropWhile_mapTokens ρ.tokenMap Text.uniform_isAlphanum]
      split
      · next rest => exact absurd rfl (hnot' rest)
      · rw [Option.map_map, Option.map_map]
        rfl

theorem Operator.read?_text (t : Text) :
    read? (ρ.text t) = (read? t).map fun (operator, rest) => (operator, ρ.text rest) := by
  unfold read?
  rw [Text.trimStart_mapTokens ρ.tokenMap]
  generalize t.trimStart = t
  split
  · next rest h =>
      obtain ⟨rest, rfl, rfl⟩ := (Text.mapTokens_eq_cons_iff ρ.tokenMap (by decide)).mp h
      rfl
  · next rest h =>
      obtain ⟨rest, rfl, rfl⟩ := (Text.mapTokens_eq_cons_iff ρ.tokenMap (by decide)).mp h
      rfl
  · next hplus hminus =>
      split
      · next rest => exact absurd (Text.mapTokens_cons ρ.tokenMap (by decide) rest) (hplus _)
      · next rest => exact absurd (Text.mapTokens_cons ρ.tokenMap (by decide) rest) (hminus _)
      · rfl

namespace Expression

theorem readSign_text (t : Text) :
    readSign (ρ.text t) = ((readSign t).1, ρ.text (readSign t).2) := by
  unfold readSign
  rw [Text.trimStart_mapTokens ρ.tokenMap]
  generalize t.trimStart = t
  split
  · next rest h =>
      obtain ⟨rest, rfl, rfl⟩ := (Text.mapTokens_eq_cons_iff ρ.tokenMap (by decide)).mp h
      rfl
  · next hminus =>
      split
      · next rest => exact absurd (Text.mapTokens_cons ρ.tokenMap (by decide) rest) (hminus _)
      · rfl

theorem readSecond?_text (t : Text) :
    readSecond? (ρ.text t) = (readSecond? t).map (Option.map fun (operator, term) =>
      (operator, term.mapNames ρ.token)) := by
  unfold readSecond?
  rw [Operator.read?_text]
  rcases Operator.read? t with _ | ⟨operator, t⟩
  · simp only [Option.map_none, Text.all_mapTokens ρ.tokenMap Text.uniform_isBlank]
    split <;> rfl
  · simp only [Option.map_some, Term.read?_text]
    rcases Term.read? t with _ | ⟨term, t⟩
    · rfl
    · simp only [Option.map_some, Text.all_mapTokens ρ.tokenMap Text.uniform_isBlank]
      split <;> rfl

theorem parse?_text (t : Text) : parse? (ρ.text t) = (parse? t).map (mapNames ρ.token) := by
  unfold parse?
  rw [readSign_text]
  rcases readSign t with ⟨negated, t⟩
  simp only [Term.read?_text]
  rcases Term.read? t with _ | ⟨term, t⟩
  · rfl
  · simp only [Option.map_some, readSecond?_text, Option.map_map]
    rfl

end Expression

/-! ## Mnemonics -/

namespace Renaming

theorem word?_text {table : Mnemonic.Table} (h : ∀ entry ∈ table, entry.1 ∈ reservedNames)
    (t : Text) : table.word? (ρ.text t) = table.word? t := by
  unfold Mnemonic.Table.word?
  induction table with
  | nil => rfl
  | cons entry rest ih =>
      obtain ⟨name, word⟩ := entry
      obtain ⟨hname, hrest⟩ := List.forall_mem_cons.mp h
      have hsame : (ρ.text t == name) = (t == name) := by
        rw [Bool.eq_iff_iff, beq_iff_eq, beq_iff_eq, ρ.text_eq_reserved_iff hname]
      rw [List.lookup_cons, List.lookup_cons, hsame, ih hrest]

theorem memoryReference?_text (t : Text) :
    Mnemonic.memoryReference? (ρ.text t) = Mnemonic.memoryReference? t := by
  unfold Mnemonic.memoryReference?
  rw [ρ.word?_text (by decide)]

theorem inputOutput?_text (t : Text) :
    Mnemonic.inputOutput? (ρ.text t) = Mnemonic.inputOutput? t :=
  ρ.word?_text (by decide) t

theorem operateWord?_text (names : List Text) :
    Mnemonic.operateWord? (names.map ρ.text) = Mnemonic.operateWord? names := by
  have hunion {table : Mnemonic.Table} (h : ∀ entry ∈ table, entry.1 ∈ reservedNames) :
      table.union? (names.map ρ.text) = table.union? names := by
    unfold Mnemonic.Table.union?
    rw [List.mapM_map]
    congr 2
    funext name
    exact ρ.word?_text h name
  unfold Mnemonic.operateWord?
  rw [hunion (by decide), hunion (by decide), List.isEmpty_map]

end Renaming

/-! ## Statements -/

namespace Item

theorem takeFlag_text {flag : Text} (h : flag ∈ reservedNames) (names : List Text) :
    takeFlag flag (names.map ρ.text) =
      ((takeFlag flag names).1, (takeFlag flag names).2.map ρ.text) := by
  cases names with
  | nil => rfl
  | cons name rest =>
      simp only [List.map_cons, takeFlag, ρ.text_eq_reserved_iff h]
      split <;> rfl

theorem reference?_text (t : Text) :
    reference? (ρ.text t) = (reference? t).map (mapNames ρ.token) := by
  unfold reference?
  rw [Text.words_mapTokens ρ.tokenMap]
  cases t.words with
  | nil => rfl
  | cons name rest =>
      simp only [List.map_cons, ρ.memoryReference?_text]
      cases Mnemonic.memoryReference? name with
      | none => rfl
      | some opcode =>
          have hindirect := takeFlag_text ρ (show "I".toList ∈ reservedNames by decide)
          have hpageZero := takeFlag_text ρ (show "Z".toList ∈ reservedNames by decide)
          simp only [hindirect, hpageZero, Text.unwords_mapTokens ρ.tokenMap,
            Expression.parse?_text, Option.map_map]
          rfl

theorem instruction?_text (t : Text) :
    instruction? (ρ.text t) = (instruction? t).map (mapNames ρ.token) := by
  have hoperate : operate? (ρ.text t) = (operate? t).map (mapNames ρ.token) := by
    unfold operate?
    rw [Text.words_mapTokens ρ.tokenMap, ρ.operateWord?_text, Option.map_map]
    rfl
  have hinputOutput : inputOutput? (ρ.text t) = (inputOutput? t).map (mapNames ρ.token) := by
    unfold inputOutput?
    rw [ρ.inputOutput?_text, Option.map_map]
    rfl
  unfold instruction?
  simp only [reference?_text, hoperate, hinputOutput, Option.orElse_eq_orElse, Option.orElse_eq_or,
    Option.map_or]

theorem data?_text (t : Text) : data? (ρ.text t) = (data? t).map (mapNames ρ.token) := by
  have hconstant : constant? (ρ.text t) = (constant? t).map (mapNames ρ.token) := by
    unfold constant?
    rw [Expression.parse?_text, Option.map_map, Option.map_map]
    rfl
  have hreserve : reserve? (ρ.text t) = (reserve? t).map (mapNames ρ.token) := by
    unfold reserve?
    rw [Text.isEmpty_mapTokens ρ.tokenMap]
    split <;> rfl
  unfold data?
  simp only [hconstant, hreserve, Option.orElse_eq_orElse, Option.orElse_eq_or, Option.map_or]

end Item

namespace Statement

theorem origin?_text (t : Text) :
    origin? (ρ.text t) = (origin? t).map (mapNames ρ.token) := by
  unfold origin?
  split
  · next rest h =>
      obtain ⟨rest, rfl, rfl⟩ := (Text.mapTokens_eq_cons_iff ρ.tokenMap (by decide)).mp h
      simp only [Text.trim_mapTokens ρ.tokenMap, ρ.isDigits_text]
      split
      · next hdigits =>
          exact congrArg (some ∘ origin) (ρ.text_of_isDigits hdigits)
      · rfl
  · next hstar =>
      split
      · next rest => exact absurd (Text.mapTokens_cons ρ.tokenMap (by decide) rest) (hstar _)
      · rfl

theorem directive?_text (t : Text) :
    directive? (ρ.text t) = (directive? t).map (mapNames ρ.token) := by
  have hoctal : ρ.text t = "OCTAL".toList ↔ t = "OCTAL".toList :=
    ρ.text_eq_reserved_iff (by decide)
  have hdecimal : ρ.text t = "DECIMAL".toList ↔ t = "DECIMAL".toList :=
    ρ.text_eq_reserved_iff (by decide)
  have hfinish : ρ.text t = "$".toList ↔ t = "$".toList := by
    show ρ.text t = ['$'] ↔ t = ['$']
    rw [Text.mapTokens_eq_cons_iff ρ.tokenMap (by decide)]
    simp [Text.mapTokens_eq_nil_iff ρ.tokenMap]
  unfold directive?
  simp only [hoctal, hdecimal, hfinish, apply_ite (Option.map (mapNames ρ.token))]
  rfl

/-- **The kind of a statement does not depend on names.** Whatever the text is, the renamed text is
taken for the same kind of statement, or for none if the text is none. -/
theorem parse?_text (t : Text) : parse? (ρ.text t) = (parse? t).map (mapNames ρ.token) := by
  unfold parse?
  simp only [Item.instruction?_text, origin?_text, directive?_text, Item.data?_text,
    Option.orElse_eq_orElse, Option.orElse_eq_or, Option.map_or, Option.map_map]
  rfl

end Statement

/-! ## Lines -/

namespace Line

theorem splitLabel_text (t : Text) :
    splitLabel (ρ.text t) = ((splitLabel t).1.map ρ.token, ρ.text (splitLabel t).2) := by
  unfold splitLabel
  have hcomma := Text.uniform_bne (c := ',') (by decide)
  rw [Text.takeWhile_mapTokens ρ.tokenMap hcomma, Text.dropWhile_mapTokens ρ.tokenMap hcomma,
    Text.trim_mapTokens ρ.tokenMap, Text.trim_mapTokens ρ.tokenMap]
  -- the text before the comma is a name before and after, or it is no label before and after
  cases hbehind : t.dropWhile (· != ',') with
  | nil => rfl
  | cons c body =>
      obtain rfl := Text.eq_of_dropWhile_bne hbehind
      rw [Text.mapTokens_cons ρ.tokenMap (by decide)]
      dsimp only
      rw [ρ.isName_text]
      split
      · next hname =>
          exact Prod.ext (congrArg some (ρ.text_of_isName hname))
            (Text.trim_mapTokens ρ.tokenMap body)
      · rfl

/-- **A renamed line is the line with its names renamed**, and cannot be read if the line cannot. -/
theorem parse_text (t : Text) : parse (ρ.text t) = (parse t).map (mapNames ρ.token) := by
  unfold parse
  rw [splitLabel_text]
  rcases splitLabel t with ⟨label, body⟩
  simp only [Statement.parse?_text]
  cases Statement.parse? body <;> rfl

end Line

/-! ## Comments -/

namespace Renaming

variable {front : Text}

/-- A line with its free names renamed. Its comment is kept. -/
def line (t : Text) : Text := ρ.text (t.takeWhile (· != '/')) ++ t.dropWhile (· != '/')

theorem line_of_not_mem (h : '/' ∉ front) : ρ.line front = ρ.text front := by
  rw [line, takeWhile_slash h, List.dropWhile_eq_nil_iff.mpr (Text.bne_of_not_mem h),
    List.append_nil]

theorem line_append (h : '/' ∉ front) (comment : Text) :
    ρ.line (front ++ '/' :: comment) = ρ.text front ++ '/' :: comment := by
  rw [line, takeWhile_slash_append h, List.dropWhile_append_of_pos (Text.bne_of_not_mem h),
    List.dropWhile_cons_of_neg (by decide)]

/-- Characters other than letters and digits do not come up in a text. -/
theorem not_mem_text {c : Char} (hc : c.isAlphanum = false) (h : c ∉ front) :
    c ∉ ρ.text front := by
  have hall := List.all_eq_true.mpr (Text.bne_of_not_mem h)
  rw [← Text.all_mapTokens ρ.tokenMap (Text.uniform_bne hc), List.all_eq_true] at hall
  intro hmem
  exact bne_iff_ne.mp (hall c hmem) rfl

/-- The code of a renamed line is the renamed code. -/
theorem code_line (t : Text) : code (ρ.line t) = ρ.text (code t) := by
  unfold code
  rcases comment_cases t with h | ⟨front, comment, rfl, h⟩
  · rw [ρ.line_of_not_mem h, takeWhile_slash h, takeWhile_slash (ρ.not_mem_text (by decide) h)]
    exact Text.trim_mapTokens ρ.tokenMap t
  · rw [ρ.line_append h, takeWhile_slash_append h,
      takeWhile_slash_append (ρ.not_mem_text (by decide) h)]
    exact Text.trim_mapTokens ρ.tokenMap front

theorem isEmpty_line (t : Text) : (ρ.line t).isEmpty = t.isEmpty := by
  rcases comment_cases t with h | ⟨front, comment, rfl, h⟩
  · rw [ρ.line_of_not_mem h, Text.isEmpty_mapTokens ρ.tokenMap]
  · have hne (front : Text) : (front ++ '/' :: comment).isEmpty = false := by
      rw [List.isEmpty_eq_false_iff]
      exact List.append_ne_nil_of_right_ne_nil _ (List.cons_ne_nil _ _)
    rw [ρ.line_append h, hne, hne]

theorem not_mem_line {c : Char} (hc : c.isAlphanum = false) {t : Text} (hmem : c ∉ t) :
    c ∉ ρ.line t := by
  rcases comment_cases t with h | ⟨front, comment, rfl, h⟩
  · rw [ρ.line_of_not_mem h]
    exact ρ.not_mem_text hc hmem
  · rw [ρ.line_append h]
    simp only [List.mem_append, not_or] at hmem ⊢
    exact ⟨ρ.not_mem_text hc hmem.1, hmem.2⟩

/-- The carriage return before a line feed is no part of any name. -/
theorem dropReturn_line (t : Text) :
    Text.dropReturn (ρ.line t) = ρ.line (Text.dropReturn t) := by
  rcases comment_cases t with h | ⟨front, comment, rfl, h⟩
  · rw [ρ.line_of_not_mem h]
    -- what ends in a carriage return after renaming has ended in it before
    by_cases hreturn : ∃ front, t = front ++ ['\r']
    · obtain ⟨front, rfl⟩ := hreturn
      have hfront : '/' ∉ front := fun hmem => h (List.mem_append_left _ hmem)
      have htext : ρ.text (front ++ ['\r']) = ρ.text front ++ ['\r'] := by
        rw [text, Text.mapTokens_append_cons ρ.tokenMap (by decide), Text.mapTokens_nil ρ.tokenMap]
      rw [htext, Text.dropReturn_concat, Text.dropReturn_concat, ρ.line_of_not_mem hfront]
    · have hkept : Text.dropReturn t = t := Text.dropReturn_of_ne fun front heq =>
        hreturn ⟨front, heq⟩
      have hkept' : Text.dropReturn (ρ.text t) = ρ.text t := Text.dropReturn_of_ne fun front heq =>
        hreturn (((Text.mapTokens_eq_concat_iff ρ.tokenMap (by decide)).mp heq).imp fun _ h => h.1)
      rw [hkept, hkept', ρ.line_of_not_mem h]
  · rw [ρ.line_append h, Text.dropReturn_append_cons (by decide),
      Text.dropReturn_append_cons (by decide), ρ.line_append h]

/-! ## Sources -/

/-- A source with its free names renamed. All that stands between them, and every comment, is
kept. -/
def source (s : Text) : Text := ['\n'].intercalate ((s.splitOn '\n').map ρ.line)

theorem lines_source (s : Text) : (ρ.source s).lines = s.lines.map ρ.line := by
  have hpieces : (ρ.source s).splitOn '\n' = (s.splitOn '\n').map ρ.line := by
    apply List.splitOn_intercalate
    · intro piece hpiece
      obtain ⟨piece, hmem, rfl⟩ := List.mem_map.mp hpiece
      exact ρ.not_mem_line (by decide) (Text.not_mem_of_mem_splitOn hmem)
    · simp
  unfold Text.lines
  rw [hpieces]
  -- the last piece is a line only if something stands in it, and renaming does not change that
  generalize s.splitOn '\n' = pieces
  induction pieces with
  | nil => rfl
  | cons piece rest ih =>
      cases rest with
      | nil =>
          simp only [List.map_cons, List.map_nil, Text.linesOfPieces, ρ.isEmpty_line]
          split <;> rfl
      | cons next rest =>
          rw [List.map_cons, List.map_cons, Text.linesOfPieces, ← List.map_cons, ih,
            ρ.dropReturn_line, Text.linesOfPieces, List.map_cons]

/-- A numbered line with its free names renamed. -/
def sourceLine (l : SourceLine) : SourceLine := { l with text := ρ.line l.text }

theorem ofSource_source (s : Text) :
    SourceLine.ofSource (ρ.source s) = (SourceLine.ofSource s).map ρ.sourceLine := by
  unfold SourceLine.ofSource
  rw [lines_source, List.zipIdx_map, List.filterMap_map, List.map_filterMap]
  congr 1
  funext l
  simp only [Function.comp_apply, Prod.map, ρ.code_line, Text.isEmpty_mapTokens ρ.tokenMap]
  split <;> rfl

theorem parse_sourceLine (l : SourceLine) :
    (ρ.sourceLine l).parse = l.parse.map (Line.mapNames ρ.token) := by
  unfold SourceLine.parse
  rw [← Line.parse_text, ← ρ.code_line]
  rfl

theorem parse_sourceLine_of_ok {l : SourceLine} {line : Line} (h : l.parse = .ok line) :
    (ρ.sourceLine l).parse = .ok (line.mapNames ρ.token) := by
  rw [parse_sourceLine, h]
  rfl

end Renaming

end TwelveBit.Assembly
