import TwelveBit.Proofs.Failure
import TwelveBit.Proofs.Listing

/-!
# Which error an assembly reports

An assembly reports one error at most, and which one it is depends on the source alone. Everything
the first pass can see comes before anything that only the second can, whatever the order of their
lines; within a pass the first line comes first. `Diagnosis` says this without a pass: by the course
of the source, the reasons for which a line is rejected and the reasons for which its item fails,
with the names that stand on the course for symbols.

`Pass.walk_eq_error_iff` is about one walk: if each visit fails for a reason that depends on the
line and its place, the walk ends in the first failure on the course.
-/

namespace TwelveBit.Assembly

/-! ## The first failure -/

/-- The first line of a course that fails, with its error. -/
inductive FirstFailure (fails : SourceLine × Position → Error → Prop) :
    List (SourceLine × Position) → SourceError → Prop where
  | here {v : SourceLine × Position} {rest : List (SourceLine × Position)} {error : Error}
      (h : fails v error) : FirstFailure fails (v :: rest) (v.1.locate error)
  | later {v : SourceLine × Position} {rest : List (SourceLine × Position)} {e : SourceError}
      (pass : ∀ error, ¬ fails v error) (next : FirstFailure fails rest e) :
      FirstFailure fails (v :: rest) e

namespace FirstFailure

variable {fails : SourceLine × Position → Error → Prop} {course : List (SourceLine × Position)}
  {v : SourceLine × Position} {e : SourceError}

theorem not_nil : ¬ FirstFailure fails [] e := by rintro ⟨⟩

theorem cons_iff : FirstFailure fails (v :: course) e ↔
    (∃ error, fails v error ∧ e = v.1.locate error) ∨
    (∀ error, ¬ fails v error) ∧ FirstFailure fails course e := by
  constructor
  · rintro (h | ⟨pass, next⟩)
    · exact .inl ⟨_, h, rfl⟩
    · exact .inr ⟨pass, next⟩
  · rintro (⟨error, h, rfl⟩ | ⟨pass, next⟩)
    · exact .here h
    · exact .later pass next

/-- The line that fails first is one that fails. -/
theorem exists_mem (h : FirstFailure fails course e) :
    ∃ v ∈ course, ∃ error, fails v error ∧ e = v.1.locate error := by
  induction h with
  | here h => exact ⟨_, List.mem_cons_self, _, h, rfl⟩
  | later pass next ih =>
      obtain ⟨v, hv, hfails⟩ := ih
      exact ⟨v, List.mem_cons_of_mem _ hv, hfails⟩

/-- There is no first failure only if nothing fails. -/
theorem forall_not_iff :
    (∀ e, ¬ FirstFailure fails course e) ↔ ∀ v ∈ course, ∀ error, ¬ fails v error := by
  constructor
  · intro hnone
    induction course with
    | nil => exact fun v hv => by cases hv
    | cons v rest ih =>
        have hv : ∀ error, ¬ fails v error := fun error h => hnone _ (.here h)
        refine List.forall_mem_cons.mpr ⟨hv, ih fun e h => ?_⟩
        exact hnone e (.later hv h)
  · intro hpass e h
    obtain ⟨v, hv, error, hfails, -⟩ := h.exists_mem
    exact hpass v hv error hfails

end FirstFailure

/-! ## One walk -/

namespace Pass

variable {visit : SourceLine → Pass Finding} {lines : List SourceLine} {a a' : Assembler}
  {e : SourceError}

/-- A walk ends in an error at its first line, or after that line. -/
theorem walk_cons_eq_error_iff {l : SourceLine} {rest : List SourceLine} :
    walk visit (l :: rest) a = .error e a' ↔
      visit l a = .error e a' ∨
      ∃ finding a₁, visit l a = .ok finding a₁ ∧ finding ≠ .finish ∧
        walk visit rest a₁ = .error e a' := by
  rw [walk_cons]
  constructor
  · intro h
    split at h
    · next here =>
        cases h
        exact .inl here
    · cases h
    · next a₁ here => exact .inr ⟨_, a₁, here, Finding.noConfusion, h⟩
    · next entry a₁ here =>
        split at h
        · next next =>
            cases h
            exact .inr ⟨_, a₁, here, Finding.noConfusion, next⟩
        · cases h
  · rintro (here | ⟨finding, a₁, here, hfinding, next⟩)
    · rw [here]
    · rw [here]
      cases finding with
      | finish => exact absurd rfl hfinding
      | nothing => exact next
      | entry entry =>
          dsimp only
          rw [next]

/-- **A walk ends in the first failure on its course**, if a visit fails for reasons that depend on
its line and place. This needs to be so only for lines that have something in common (`plain`) and
while something is true of the assembler (`kept`) that visits keep. -/
theorem walk_eq_error_iff {fails : SourceLine × Position → Error → Prop}
    (plain : SourceLine × Position → Prop) (kept : Assembler → Prop) (hf : Follows visit)
    (hkept : ∀ {l a finding a'}, kept a → visit l a = .ok finding a' → kept a')
    (hvisit : ∀ {l a e}, kept a → plain (l, a.builder.position) →
      ((∃ a', visit l a = .error e a') ↔
        ∃ error, fails (l, a.builder.position) error ∧ e = l.locate error))
    (ha : kept a) (hplain : ∀ v ∈ a.builder.position.course lines, plain v) :
    (∃ a', walk visit lines a = .error e a') ↔
      FirstFailure fails (a.builder.position.course lines) e := by
  induction lines generalizing a with
  | nil => exact iff_of_false (fun ⟨_, h⟩ => by cases h) FirstFailure.not_nil
  | cons l rest ih =>
      obtain ⟨tail, hcourse⟩ : ∃ tail, a.builder.position.course (l :: rest) =
        (l, a.builder.position) :: tail := ⟨_, rfl⟩
      rw [hcourse] at hplain
      obtain ⟨hl, htail⟩ := List.forall_mem_cons.mp hplain
      rw [hcourse, FirstFailure.cons_iff, ← hvisit ha hl]
      simp only [walk_cons_eq_error_iff, exists_or]
      refine or_congr_right ?_
      cases here : visit l a with
      | error e₁ a₁ =>
          obtain ⟨error, hfails, -⟩ := (hvisit ha hl).mp ⟨a₁, here⟩
          exact iff_of_false (fun ⟨_, _, _, h, _⟩ => by cases h) fun h => h.1 error hfails
      | ok finding a₁ =>
          have hpass (error : Error) : ¬ fails (l, a.builder.position) error := fun hfails => by
            obtain ⟨a', h⟩ := (hvisit ha hl).mpr ⟨error, hfails, rfl⟩
            rw [here] at h
            cases h
          by_cases hfinding : finding = .finish
          · -- nothing comes after the end of the program
            obtain ⟨line, hline, -, hend⟩ := hf here
            have hnil := Position.course_of_finish a.builder.position rest hline (hend.mp hfinding)
            obtain rfl : tail = [] := List.tail_eq_of_cons_eq (hcourse.symm.trans hnil)
            refine iff_of_false ?_ fun h => FirstFailure.not_nil h.2
            rintro ⟨_, _, _, ⟨⟩, hgoes, -⟩
            exact hgoes hfinding
          · obtain rfl : tail = a₁.builder.position.course rest :=
              List.tail_eq_of_cons_eq (hcourse.symm.trans (hf.next here hfinding rest).2)
            rw [← ih (hkept ha here) htail]
            constructor
            · rintro ⟨a', _, _, ⟨⟩, -, next⟩
              exact ⟨hpass, a', next⟩
            · rintro ⟨-, a', next⟩
              exact ⟨a', finding, a₁, rfl, hfinding, next⟩

/-- Whatever walk it is, it ends well or in an error. -/
theorem exists_walk_iff : (∃ entries a', walk visit lines a = .ok entries a') ↔
    ∀ e, ¬ ∃ a', walk visit lines a = .error e a' := by
  cases walk visit lines a with
  | ok entries a' => exact iff_of_true ⟨entries, a', rfl⟩ fun e ⟨_, h⟩ => by cases h
  | error e a' => exact iff_of_false (fun ⟨_, _, h⟩ => by cases h) fun h => h e ⟨a', rfl⟩

end Pass

/-! ## The names of a course -/

/-- The symbols after a line at a place. -/
def SymbolTable.label (symbols : SymbolTable) (v : SourceLine × Position) : SymbolTable :=
  match v.1.label? with
  | none => symbols
  | some name => symbols.insert name { address := v.2.counter, line := v.1.number }

/-- The symbols after all lines of a course. -/
def labels (course : List (SourceLine × Position)) : SymbolTable := course.foldl .label {}

theorem SymbolTable.address?_label_eq_none_iff {symbols : SymbolTable}
    {v : SourceLine × Position} {name : Text} :
    (symbols.label v).address? name = none ↔
      symbols.address? name = none ∧ v.1.label? ≠ some name := by
  rw [label]
  cases v.1.label? with
  | none => exact (and_iff_left (fun h => by cases h)).symm
  | some name' =>
      rw [address?, get?_insert]
      by_cases hname : name = name'
      · rw [if_pos hname]
        exact iff_of_false (fun h => by cases h) fun h => h.2 (congrArg some hname.symm)
      · rw [if_neg hname]
        exact (and_iff_left fun h => hname (Option.some.inj h).symm).symm

/-- A name stands for nothing if it labels no line. -/
theorem address?_labels_eq_none_iff {course : List (SourceLine × Position)} {name : Text} :
    (labels course).address? name = none ↔ ∀ v ∈ course, v.1.label? ≠ some name := by
  have hfold (symbols : SymbolTable) : (course.foldl .label symbols).address? name = none ↔
      symbols.address? name = none ∧ ∀ v ∈ course, v.1.label? ≠ some name := by
    induction course generalizing symbols with
    | nil => exact (and_iff_left fun v hv => by cases hv).symm
    | cons v rest ih =>
        rw [List.foldl_cons, ih, SymbolTable.address?_label_eq_none_iff, List.forall_mem_cons,
          and_assoc]
  exact (hfold {}).trans (and_iff_right rfl)

theorem Builder.symbols_of_label {b b' : Builder} {l : SourceLine} {line : Line}
    {r : Option Redefinition} (hline : l.parse = .ok line)
    (h : Builder.label line.label l.number b = .ok r b') :
    b'.symbols = b.symbols.label (l, b.position) := by
  rw [SymbolTable.label]
  dsimp only
  rw [SourceLine.label?_of_parse hline]
  cases hlabel : line.label with
  | none =>
      rw [hlabel] at h
      cases h
      rfl
  | some name =>
      rw [hlabel] at h
      have hlt := counter_lt_of_label h
      rw [Builder.label, define_of_lt hlt] at h
      cases h
      rfl

namespace Pass

/-- The first pass leaves the names of its course for symbols. -/
theorem Walk.symbols_layOut {lines : List SourceLine} {a a' : Assembler} {vs : List Visit}
    {entries : List Entry} (h : Walk layOut lines a vs entries a') :
    a'.builder.symbols = (vs.map Visit.place).foldl .label a.builder.symbols := by
  rw [List.foldl_map]
  refine Walk.foldl_eq (f := fun a => a.builder.symbols) ?_ h
  intro l a finding a' h
  cases hline : l.parse with
  | error e => rw [layOut_of_error hline] at h; cases h
  | ok line =>
      rw [layOut_of_parse hline] at h
      split at h
      · cases h
      · next r b hlabel =>
          split at h
          · cases h
          · next b' hroom =>
              cases h
              rw [Assembler.builder_noteRedefinition]
              exact (Builder.symbols_of_makeRoom hroom).trans
                (Builder.symbols_of_label hline hlabel)

end Pass

/-! ## A whole source -/

/-- A course goes along the lines up to the end of the program, and may stop before. -/
theorem Position.course_lines_prefix (p : Position) (lines : List SourceLine) :
    (p.course lines).map Prod.fst <+: SourceLine.upToEnd lines := by
  induction lines generalizing p with
  | nil => exact List.prefix_rfl
  | cons l rest ih =>
      rw [course, SourceLine.upToEnd]
      cases hline : l.parse with
      | error error =>
          dsimp only [List.map_cons, List.map_nil]
          split <;> exact List.cons_prefix_cons.mpr ⟨rfl, List.nil_prefix⟩
      | ok line =>
          dsimp only
          rw [SourceLine.ends_of_parse hline, List.map_cons]
          by_cases hs : line.statement = .finish
          · rw [if_pos hs, if_pos (decide_eq_true hs)]
            exact List.prefix_rfl
          · rw [if_neg hs, if_neg (by rwa [decide_eq_true_iff]), List.cons_prefix_cons]
            refine ⟨rfl, ?_⟩
            cases p.after line.statement with
            | error error => exact List.nil_prefix
            | ok p' => exact ih p'

/-- A line of a source is one of the lines of its text, and is numbered from 1. -/
theorem SourceLine.text_of_mem {source : Text} {l : SourceLine} (h : l ∈ ofSource source) :
    ∃ i, source.lines[i]? = some l.text ∧ l.number = i + 1 := by
  obtain ⟨⟨text, number⟩, hmem, hl⟩ := List.mem_filterMap.mp h
  obtain ⟨hle, htext⟩ := List.mem_zipIdx_iff_le_and_getElem?_sub.mp hmem
  dsimp only at hl
  split at hl
  · cases hl
  · cases hl
    exact ⟨number - 1, htext, (Nat.sub_add_cancel hle).symm⟩

namespace Assembler

/-- The lines of a source that have code, up to the end of the program or a line that is rejected,
each with the place before it. -/
def course (source : Text) : List (SourceLine × Position) :=
  Position.course {} (SourceLine.ofSource source)

/-- What is wrong with a source: a line that is rejected, or else an item that fails. -/
inductive Diagnosis (source : Text) (e : SourceError) : Prop where
  | rejected (first : FirstFailure (fun v => v.2.Rejects v.1) (course source) e)
  | failed (accepted : ∀ v ∈ course source, ∀ error, ¬ v.2.Rejects v.1 error)
      (first : FirstFailure (fun v => v.1.Fails (labels (course source)) v.2) (course source) e)

variable {source : Text} {a a₁ a₂ : Assembler} {entries : List Entry} {e : SourceError}

/-- The first pass ends in the first line that is rejected. -/
theorem first_eq_error_iff :
    (∃ a₁, Pass.walk Pass.layOut (SourceLine.ofSource source)
      (a.begin (SourceLine.ofSource source)) = .error e a₁) ↔
      FirstFailure (fun v => v.2.Rejects v.1) (course source) e :=
  -- its visits fail for these reasons whatever there is in the assembler
  Pass.walk_eq_error_iff (fun _ => True) (fun _ => True) Pass.follows_layOut
    (fun _ _ => trivial) (fun _ _ => Pass.layOut_eq_error_iff) trivial fun _ _ => trivial

/-- The first pass ends well if no line is rejected. -/
theorem first_eq_ok_iff :
    (∃ entries a₁, Pass.walk Pass.layOut (SourceLine.ofSource source)
      (a.begin (SourceLine.ofSource source)) = .ok entries a₁) ↔
      ∀ v ∈ course source, ∀ error, ¬ v.2.Rejects v.1 error := by
  rw [Pass.exists_walk_iff, ← FirstFailure.forall_not_iff]
  exact forall_congr' fun e => not_congr first_eq_error_iff

/-- The second pass ends in the first line whose item fails. -/
theorem second_eq_error_iff
    (h : Pass.walk Pass.layOut (SourceLine.ofSource source)
      (a.begin (SourceLine.ofSource source)) = .ok entries a₁) :
    (∃ a₂, Pass.walk Pass.fill (SourceLine.ofSource source) a₁.turn = .error e a₂) ↔
      FirstFailure (fun v => v.1.Fails (labels (course source)) v.2) (course source) e := by
  have hwalk := Pass.walk_of_eq_ok h
  have hsymbols : a₁.turn.builder.symbols = labels (course source) := by
    show a₁.builder.symbols = _
    rw [hwalk.symbols_layOut, (hwalk.course Pass.follows_layOut).2]
    rfl
  refine Pass.walk_eq_error_iff (fun v => ∀ error, ¬ v.2.Rejects v.1 error)
    (fun a => a.builder.symbols = labels (course source)) Pass.follows_fill ?_ ?_ hsymbols
    (first_eq_ok_iff.mp ⟨entries, a₁, h⟩)
  · intro l a finding a' hkept hfill
    obtain ⟨-, -, -, hsame, -⟩ := Pass.of_fill hfill
    exact hsame.trans hkept
  · intro l a e hkept hplain
    rw [← hkept]
    exact Pass.fill_eq_error_iff hplain

theorem exists_eq_error_iff :
    (∃ a', assemble source a = .error e a') ↔ Diagnosis source e := by
  simp only [assemble_eq_error_iff, exists_or]
  constructor
  · rintro (hfirst | ⟨a', entries, a₁, h₁, hsecond⟩)
    · exact .rejected (first_eq_error_iff.mp hfirst)
    · exact .failed (first_eq_ok_iff.mp ⟨entries, a₁, h₁⟩)
        ((second_eq_error_iff h₁).mp ⟨a', hsecond⟩)
  · rintro (hfirst | ⟨haccepted, hsecond⟩)
    · exact .inl (first_eq_error_iff.mpr hfirst)
    · obtain ⟨entries, a₁, h₁⟩ := (first_eq_ok_iff (a := a)).mpr haccepted
      obtain ⟨a', hfill⟩ := (second_eq_error_iff h₁).mpr hsecond
      exact .inr ⟨a', entries, a₁, h₁, hfill⟩

/-- An assembly ends well if nothing is wrong with any line of its course. -/
theorem exists_eq_ok_iff :
    (∃ p a', assemble source a = .ok p a') ↔ ∀ v ∈ course source, ∀ error,
      ¬ v.2.Rejects v.1 error ∧ ¬ v.1.Fails (labels (course source)) v.2 error := by
  have hok : (∃ p a', assemble source a = .ok p a') ↔ ∀ e, ¬ Diagnosis source e := by
    simp only [← exists_eq_error_iff (a := a)]
    cases assemble source a with
    | ok p a' => exact iff_of_true ⟨p, a', rfl⟩ fun e ⟨_, h⟩ => by cases h
    | error e a' => exact iff_of_false (fun ⟨_, _, h⟩ => by cases h) fun h => h e ⟨a', rfl⟩
  rw [hok]
  constructor
  · intro hnone
    have haccepted := FirstFailure.forall_not_iff.mp fun e first => hnone e (.rejected first)
    have hencoded := FirstFailure.forall_not_iff.mp fun e first =>
      hnone e (.failed haccepted first)
    exact fun v hv error => ⟨haccepted v hv error, hencoded v hv error⟩
  · rintro hright e (first | ⟨-, first⟩)
    · obtain ⟨v, hv, error, h, -⟩ := first.exists_mem
      exact (hright v hv error).1 h
    · obtain ⟨v, hv, error, h, -⟩ := first.exists_mem
      exact (hright v hv error).2 h

theorem mem_upToEnd_of_mem_course {v : SourceLine × Position} (hv : v ∈ course source) :
    v.1 ∈ SourceLine.upToEnd (SourceLine.ofSource source) :=
  (Position.course_lines_prefix {} _).subset (List.mem_map_of_mem hv)

/-- If no line is rejected, the course goes on to the end of the program. -/
theorem course_lines_of_accepted (h : ∀ v ∈ course source, ∀ error, ¬ v.2.Rejects v.1 error) :
    (course source).map Prod.fst = SourceLine.upToEnd (SourceLine.ofSource source) := by
  obtain ⟨entries, a₁, h₁⟩ := (first_eq_ok_iff (a := {})).mpr h
  obtain ⟨hlines, hcourse⟩ := (Pass.walk_of_eq_ok h₁).course Pass.follows_layOut
  rw [← hlines]
  exact (congrArg (List.map Prod.fst) hcourse.symm).trans List.map_map

/-- The error that an assembly reports, if it does. -/
def report? (source : Text) (a : Assembler) : Option SourceError :=
  match assemble source a with
  | .ok _ _ => none
  | .error e _ => some e

theorem report?_eq_some_iff :
    report? source a = some e ↔ ∃ a', assemble source a = .error e a' := by
  rw [report?]
  cases assemble source a with
  | ok p a' => exact iff_of_false (fun h => by cases h) fun ⟨_, h⟩ => by cases h
  | error e' a' =>
      constructor
      · rintro ⟨⟩
        exact ⟨a', rfl⟩
      · rintro ⟨_, ⟨⟩⟩
        rfl

/-- **Which error an assembly reports.** An assembly ends in the error of its first rejected line,
whatever is wrong with the items of other lines. If no line is rejected it ends in the error of the
first line whose item fails, and if there is none it ends well.

The lines in question are those up to the end of the program, and all of them unless a line is
rejected; then the names that stand for something are the labels of these lines. Each is looked at
in the place and with the radix that the lines before it leave, and an error there has its number,
from 1, and all of its text without the blanks at the ends. What the second pass reports is never
that memory is full, and never on a line that emits no word. -/
theorem assemble_diagnoses (source : Text) (a : Assembler) :
    (∀ e, report? source a = some e ↔ Diagnosis source e) ∧
    ((∃ p a', assemble source a = .ok p a') ↔ ∀ v ∈ course source, ∀ error,
      ¬ v.2.Rejects v.1 error ∧ ¬ v.1.Fails (labels (course source)) v.2 error) ∧
    (course source).map Prod.fst <+: SourceLine.upToEnd (SourceLine.ofSource source) ∧
    (∀ earlier v later, course source = earlier ++ v :: later →
      SourceLine.PlacedAfter (earlier.map Prod.fst) v.2.counter ∧
      v.2.radix = SourceLine.radixAfter (earlier.map Prod.fst) ∧
      ∃ i, source.lines[i]? = some v.1.text ∧
        ∀ error, v.1.locate error = { error, line := i + 1, text := v.1.text.trim }) ∧
    ((∀ v ∈ course source, ∀ error, ¬ v.2.Rejects v.1 error) →
      (course source).map Prod.fst = SourceLine.upToEnd (SourceLine.ofSource source) ∧
      ∀ name, (labels (course source)).address? name = none ↔
        ∀ l ∈ SourceLine.upToEnd (SourceLine.ofSource source), l.label? ≠ some name) ∧
    ∀ entries a₁ e a₂,
      Pass.walk Pass.layOut (SourceLine.ofSource source) (a.begin (SourceLine.ofSource source)) =
        .ok entries a₁ →
      Pass.walk Pass.fill (SourceLine.ofSource source) a₁.turn = .error e a₂ →
      e.error ≠ .overflow ∧
        ∃ l ∈ SourceLine.upToEnd (SourceLine.ofSource source), l.emits ∧ e = l.locate e.error := by
  refine ⟨fun e => report?_eq_some_iff.trans exists_eq_error_iff, exists_eq_ok_iff,
    Position.course_lines_prefix {} _, ?_, ?_, ?_⟩
  · intro earlier v later hcourse
    have hv : v ∈ course source := hcourse ▸ List.mem_append_right earlier List.mem_cons_self
    have hmem := (SourceLine.upToEnd_sublist _).subset (mem_upToEnd_of_mem_course hv)
    obtain ⟨i, htext, hnumber⟩ := SourceLine.text_of_mem hmem
    refine ⟨Position.placedAfter_of_course hcourse, Position.radix_of_course hcourse, i, htext,
      fun error => ?_⟩
    rw [SourceLine.locate, hnumber]
  · intro haccepted
    have hlines := course_lines_of_accepted haccepted
    refine ⟨hlines, fun name => ?_⟩
    rw [address?_labels_eq_none_iff, ← hlines, List.forall_mem_map]
  · intro entries a₁ e a₂ h₁ h₂
    obtain ⟨v, hv, error, hfails, rfl⟩ := ((second_eq_error_iff h₁).mp ⟨a₂, h₂⟩).exists_mem
    exact ⟨hfails.ne_overflow, v.1, mem_upToEnd_of_mem_course hv, hfails.emits, rfl⟩

/-- A name that labels a line after the end of the program only. The comment stays in the error. -/
theorem assemble_diagnoses_of_unknown_name :
    ∃ (source : Text) (entries : List Entry) (a₁ a₂ : Assembler) (e : SourceError),
      Pass.walk Pass.layOut (SourceLine.ofSource source)
        (Assembler.begin {} (SourceLine.ofSource source)) = .ok entries a₁ ∧
      Pass.walk Pass.fill (SourceLine.ofSource source) a₁.turn = .error e a₂ ∧
      e = { error := .undefinedSymbol "B", line := 2, text := "TAD B / later".toList } ∧
      Diagnosis source e ∧ e.error ≠ .overflow ∧
      ∀ l ∈ SourceLine.upToEnd (SourceLine.ofSource source), l.label? ≠ some "B".toList := by
  let source : Text := "DECIMAL\n TAD B / later\nA, *128\n$\nB, 9\n".toList
  have hreport : report? source {} =
      some { error := .undefinedSymbol "B", line := 2, text := "TAD B / later".toList } := by
    decide +kernel
  obtain ⟨hdiagnosis, -, -, -, hnames, hsecond⟩ := assemble_diagnoses source {}
  have h := (hdiagnosis _).mp hreport
  obtain ⟨a', hassemble⟩ := report?_eq_some_iff.mp hreport
  rcases assemble_eq_error_iff.mp hassemble with h₁ | ⟨entries, a₁, h₁, h₂⟩
  · -- a line is never rejected for an unknown name
    obtain ⟨v, -, error, hrejects, he⟩ := (first_eq_error_iff.mp ⟨a', h₁⟩).exists_mem
    cases hrejects <;> cases congrArg SourceError.error he
  · refine ⟨source, entries, a₁, a', _, h₁, h₂, rfl, h, (hsecond entries a₁ _ a' h₁ h₂).1, ?_⟩
    refine ((hnames (first_eq_ok_iff.mp ⟨entries, a₁, h₁⟩)).2 "B").mp ?_
    decide +kernel

/-- The unknown name on the first line is not what is reported. -/
example : (match assemble "TAD B\n*9 / no octal digit\n".toList {} with
    | .ok _ _ => none
    | .error e _ => some e) =
    some { error := .invalidLiteral "9", line := 2, text := "*9 / no octal digit".toList } := by
  decide +kernel

end Assembler

end TwelveBit.Assembly
