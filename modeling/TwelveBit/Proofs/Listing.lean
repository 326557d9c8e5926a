import TwelveBit.Proofs.PassAgreement

/-!
# The listing and the image

The second pass writes the same words twice: into the listing, one entry after another, and into the
image. Here the two are compared, and both with the lines.

The address of an entry is the value of the latest origin before its line and as many words further
as lines have emitted since (`SourceLine.PlacedAfter`). The image is what the entries say when they
are stored in order (`Pass.Walk.image_fill`), so an address holds the word of the last entry that
names it.
-/

namespace TwelveBit.Assembly

/-! ## Lines that move the place of the next word -/

namespace SourceLine

/-- The digits of the origin on a line, if there is one. -/
def origin? (l : SourceLine) : Option Text :=
  match l.parse with
  | .ok { statement := .origin digits, .. } => some digits
  | _ => none

/-- The radix that a line sets, if it sets one. -/
def radix? (l : SourceLine) : Option Radix :=
  match l.parse with
  | .ok { statement := .radix radix, .. } => some radix
  | _ => none

/-- The radix in force after these lines: the one set last, and octal before any is set. -/
def radixAfter (lines : List SourceLine) : Radix := (lines.filterMap radix?).getLast?.getD .octal

/-- Where a word goes that comes after these lines: to the value of the latest origin and as many
words further as were emitted since, and without an origin as many words from the beginning. -/
def PlacedAfter (earlier : List SourceLine) (address : Nat) : Prop :=
  ((∀ l ∈ earlier, l.origin? = none) → address = earlier.countP emits) ∧
  ∀ before o since digits, earlier = before ++ o :: since → o.origin? = some digits →
    (∀ l ∈ since, l.origin? = none) →
    ∃ value, (radixAfter before).word? digits = some value ∧
      address = value.toNat + since.countP emits

end SourceLine

namespace Position

variable {p q : Position} {l : SourceLine} {line : Line} {lines : List SourceLine}
  {x : SourceLine × Position} {before after : List (SourceLine × Position)}

/-- A line other than an origin moves the place of the next word by the word that it emits. -/
theorem counter_of_after (hline : l.parse = .ok line) (h : p.after line.statement = .ok q)
    (horigin : l.origin? = none) : q.counter = p.counter + [l].countP SourceLine.emits := by
  obtain ⟨label, statement⟩ := line
  rw [List.countP_singleton, SourceLine.emits_of_parse hline]
  cases statement with
  | emit item =>
      rw [Position.after] at h
      split at h
      · cases h; rfl
      · cases h
  | origin digits => rw [SourceLine.origin?, hline] at horigin; cases horigin
  | radix radix => cases h; rfl
  | finish => cases h; rfl

/-- An origin moves the place of the next word to its value, in the radix in force. -/
theorem counter_of_origin {digits : Text} (hline : l.parse = .ok line)
    (h : p.after line.statement = .ok q) (horigin : l.origin? = some digits) :
    ∃ value, p.radix.word? digits = some value ∧ q.counter = value.toNat := by
  obtain ⟨label, statement⟩ := line
  rw [SourceLine.origin?, hline] at horigin
  cases statement with
  | origin digits' =>
      cases horigin
      rw [Position.after, Radix.literal] at h
      cases hvalue : p.radix.word? digits with
      | none => rw [hvalue] at h; cases h
      | some value =>
          rw [hvalue] at h
          cases h
          exact ⟨value, rfl, rfl⟩
  | emit item => cases horigin
  | radix radix => cases horigin
  | finish => cases horigin

/-- A line sets the radix or leaves it. -/
theorem radix_of_after (hline : l.parse = .ok line) (h : p.after line.statement = .ok q) :
    q.radix = l.radix?.getD p.radix := by
  obtain ⟨label, statement⟩ := line
  rw [SourceLine.radix?, hline]
  cases statement with
  | emit item =>
      rw [Position.after] at h
      split at h <;> cases h
      rfl
  | origin digits =>
      rw [Position.after] at h
      split at h <;> cases h
      rfl
  | radix radix => cases h; rfl
  | finish => cases h; rfl

/-! ## Along a course -/

theorem eq_of_course (h : p.course lines = x :: after) : x.2 = p := by
  cases lines with
  | nil => cases h
  | cons l rest => rw [← List.head_eq_of_cons_eq h]

/-- A course that does not end with its first line goes on from where that line moves it. -/
theorem after_of_course (h : p.course lines = x :: after) (hafter : after ≠ []) :
    ∃ rest line q, x.1.parse = .ok line ∧ p.after line.statement = .ok q ∧
      q.course rest = after := by
  cases lines with
  | nil => cases h
  | cons l rest =>
      rw [course] at h
      obtain ⟨rfl, rfl⟩ := List.cons.inj h
      split at hafter
      · exact absurd rfl hafter
      · next line hline =>
          split at hafter
          · exact absurd rfl hafter
          · next hs =>
              split at hafter
              · exact absurd rfl hafter
              · next q hq => exact ⟨rest, line, q, hline, hq, (if_neg hs).symm⟩

/-- What is left of a course at one of its lines is a course from there. -/
theorem course_of_append (h : p.course lines = before ++ x :: after) :
    ∃ rest, x.2.course rest = x :: after := by
  induction before generalizing p lines with
  | nil =>
      rw [List.nil_append] at h
      exact ⟨lines, eq_of_course h ▸ h⟩
  | cons y before ih =>
      obtain ⟨rest, line, q, -, -, hrest⟩ := after_of_course h (List.append_ne_nil_of_right_ne_nil _
        (List.cons_ne_nil _ _))
      exact ih hrest

/-- Without an origin the place of the next word goes on by the words that are emitted. -/
theorem counter_of_course (h : p.course lines = before ++ x :: after)
    (horigin : ∀ l ∈ before.map Prod.fst, l.origin? = none) :
    x.2.counter = p.counter + (before.map Prod.fst).countP SourceLine.emits := by
  -- on the lines before, from any position, because each line moves it
  induction before generalizing p lines with
  | nil => rw [eq_of_course h]; rfl
  | cons y before ih =>
      obtain ⟨rest, line, q, hline, hq, hrest⟩ := after_of_course h
        (List.append_ne_nil_of_right_ne_nil _ (List.cons_ne_nil _ _))
      rw [List.map_cons, List.forall_mem_cons] at horigin
      rw [ih hrest horigin.2, counter_of_after hline hq horigin.1, List.map_cons, Nat.add_assoc,
        ← List.countP_append, List.singleton_append]

/-- The radix in force is the one that was set last. -/
theorem radix_of_course (h : p.course lines = before ++ x :: after) :
    x.2.radix = ((before.map Prod.fst).filterMap SourceLine.radix?).getLast?.getD p.radix := by
  induction before generalizing p lines with
  | nil => rw [eq_of_course h]; rfl
  | cons y before ih =>
      obtain ⟨rest, line, q, hline, hq, hrest⟩ := after_of_course h
        (List.append_ne_nil_of_right_ne_nil _ (List.cons_ne_nil _ _))
      rw [ih hrest, radix_of_after hline hq, List.map_cons, List.filterMap_cons]
      cases y.1.radix? with
      | none => rfl
      | some radix =>
          rw [List.getLast?_cons, Option.getD_some, Option.getD_some]

/-- The place of the next word before a line of the course is where a word goes after the lines
before it. -/
theorem placedAfter_of_course (h : course {} lines = before ++ x :: after) :
    SourceLine.PlacedAfter (before.map Prod.fst) x.2.counter := by
  constructor
  · intro horigin
    rw [counter_of_course h horigin]
    exact Nat.zero_add _
  · intro lines₁ o lines₂ digits hsplit ho horigin
    obtain ⟨before₁, rest, rfl, hbefore₁, hrest⟩ := List.map_eq_append_iff.mp hsplit
    obtain ⟨y, before₂, rfl, rfl, rfl⟩ := List.map_eq_cons_iff.mp hrest
    rw [List.append_assoc, List.cons_append] at h
    -- the origin by itself, and then the lines after it
    have hradix := radix_of_course h
    obtain ⟨lines', hy⟩ := course_of_append h
    obtain ⟨lines'', line, q, hline, hq, hafter⟩ := after_of_course hy
      (List.append_ne_nil_of_right_ne_nil _ (List.cons_ne_nil _ _))
    obtain ⟨value, hvalue, hcounter⟩ := counter_of_origin hline hq ho
    refine ⟨value, ?_, ?_⟩
    · rw [SourceLine.radixAfter, ← hbefore₁]
      rwa [hradix] at hvalue
    · rw [counter_of_course hafter horigin, hcounter]

end Position

/-! ## The image -/

/-- Of several words for one address the last one stays. -/
theorem get_foldl_set (words : List (Word × Word)) (m : Memory) (b : Word) :
    (words.foldl (fun m placed => m.set placed.1 placed.2) m).get b =
      (words.reverse.lookup b).getD (m.get b) := by
  induction words generalizing m with
  | nil => rfl
  | cons placed rest ih =>
      obtain ⟨address, word⟩ := placed
      rw [List.foldl_cons, ih, List.reverse_cons, List.lookup_append, Memory.get_set]
      cases rest.reverse.lookup b with
      | some w => rfl
      | none =>
          rw [Option.none_or, List.lookup_singleton, Option.getD_none]
          by_cases hb : b = address
          · rw [if_pos hb, if_pos (beq_iff_eq.mpr hb)]
            rfl
          · rw [if_neg hb, if_neg (by rwa [beq_iff_eq])]
            rfl

theorem Program.getElem?_words (p : Program) (b : Word) :
    p.words[b.toNat]? = some (p.image.get b) := by
  rw [words, Memory.toList, Memory.get, Vector.getElem?_toList]
  exact Vector.getElem?_eq_getElem b.isLt

theorem Builder.image_of_place {b b' : Builder} {s : Statement} (h : place s b = .ok () b') :
    b'.image = b.image := by
  cases s with
  | origin digits =>
      rw [place_origin_eq] at h
      split at h
      · cases h
      · cases h
        rfl
  | emit item => cases h; rfl
  | radix radix => cases h; rfl
  | finish => cases h; rfl

namespace Pass

variable {l : SourceLine} {lines : List SourceLine} {a a' : Assembler} {finding : Finding}
  {vs : List Visit} {entries : List Entry}

/-- The entry that a pass finds on a line, if it finds one. -/
def Finding.entry? : Finding → Option Entry
  | .entry e => some e
  | _ => none

/-- A visit of the second pass stores its entry, and nothing else. -/
theorem image_of_fill (h : fill l a = .ok finding a') :
    a'.builder.image = finding.entry?.elim a.builder.image
      fun e => a.builder.image.set e.address e.word := by
  cases hline : l.parse with
  | error e => rw [fill_of_error hline] at h; cases h
  | ok line =>
      rw [fill_of_parse hline] at h
      cases hfill : Builder.fill line.statement a.builder with
      | error e b' => rw [hfill] at h; cases h
      | ok emitted b' =>
          rw [hfill] at h
          by_cases hs : line.statement.emits = true
          · obtain ⟨item, hitem⟩ := Statement.eq_emit_of_emits hs
            rw [hitem] at hfill
            obtain ⟨-, word, -, rfl, rfl⟩ := Builder.fill_emit_eq_ok_iff.mp hfill
            cases h
            rfl
          · obtain ⟨rfl, hplace⟩ := Builder.place_of_fill (Bool.eq_false_iff.mpr hs) hfill
            cases h
            rw [Builder.image_of_place hplace]
            cases line.statement <;> rfl

/-- The second pass leaves the image that the entries make. -/
theorem Walk.image_fill (h : Walk fill lines a vs entries a') :
    a'.builder.image = (entries.map fun e => (e.address, e.word)).foldl
      (fun m placed => m.set placed.1 placed.2) a.builder.image := by
  induction h with
  | nil a => rfl
  | finish here => exact image_of_fill here
  | nothing here next ih =>
      rw [ih, image_of_fill here]
      rfl
  | entry here next ih =>
      rw [ih, image_of_fill here]
      rfl

/-! ## The listing -/

/-- The second pass lists the lines that emit a word, in order. -/
theorem Walk.lines_fill (h : Walk fill lines a vs entries a') :
    entries.map Entry.line = (SourceLine.upToEnd lines).filter SourceLine.emits := by
  have hlisting := congrArg (List.map Prod.fst) h.listing_fill
  rw [List.map_map, List.map_map] at hlisting
  rw [← (h.course follows_fill).1, List.filter_map]
  exact hlisting

/-- If the second pass begins at the beginning, it places every entry as an origin says. -/
theorem Walk.placedAfter_fill (h : Walk fill lines a vs entries a')
    (ha : a.builder.position = {}) {e : Entry} (he : e ∈ entries) :
    ∃ earlier later, SourceLine.upToEnd lines = earlier ++ e.line :: later ∧
      SourceLine.PlacedAfter earlier e.address.toNat := by
  obtain ⟨hlines, hcourse⟩ := h.course follows_fill
  rw [ha] at hcourse
  -- the visit of its line, with the visits before it
  have hplace : (e.line, e.address.toNat) ∈ (vs.filter Visit.emits).map
      fun v => (v.line, v.counter) := by
    rw [← h.listing_fill]
    exact List.mem_map_of_mem he
  obtain ⟨v, hv, hve⟩ := List.mem_map.mp hplace
  obtain ⟨hline, haddress⟩ := Prod.mk.inj hve
  obtain ⟨before, after, rfl⟩ := List.append_of_mem (List.mem_filter.mp hv).1
  rw [List.map_append, List.map_cons] at hlines hcourse
  refine ⟨before.map Visit.line, after.map Visit.line, hline ▸ hlines.symm, ?_⟩
  rw [← haddress]
  have hplaced := Position.placedAfter_of_course hcourse.symm
  rw [List.map_map] at hplaced
  exact hplaced

end Pass

/-! ## Both together -/

namespace Assembler

/-- **The listing and the image describe the same program.** The listing of an assembly that ends
well has one entry for every line that emits a word, up to the end of the program and in the order
of the lines. Each entry is placed after the latest origin before it, without coming past the end of
memory. The image holds at every address the word of the last entry with that address, and zero if
there is none. Installed in any machine, it is all of memory. -/
theorem listing_describes_image {source : Text} {a a' : Assembler} {p : Program}
    (h : assemble source a = .ok p a') :
    p.listing.map Entry.line =
      (SourceLine.upToEnd (SourceLine.ofSource source)).filter SourceLine.emits ∧
    p.listing.Pairwise (fun e f => e.line.number < f.line.number) ∧
    (∀ e ∈ p.listing, e.address.toNat ≤ 0o7777 ∧ e.word.toNat ≤ 0o7777 ∧
      ∃ earlier later,
        SourceLine.upToEnd (SourceLine.ofSource source) = earlier ++ e.line :: later ∧
        SourceLine.PlacedAfter earlier e.address.toNat) ∧
    p.words.length = 4096 ∧
    (∀ b : Word, p.words[b.toNat]? =
      some (((p.listing.map fun e => (e.address, e.word)).reverse.lookup b).getD 0)) ∧
    ∀ (m : Machine) (address : Nat), address ≤ 0o7777 →
      (p.install m).memory.read address = p.word address := by
  obtain ⟨-, a₁, listing, a₂, -, hsecond, rfl, -⟩ := assemble_eq_ok_iff.mp h
  have hwalk := Pass.walk_of_eq_ok hsecond
  have hlines := hwalk.lines_fill
  have hwords (b : Word) : (a₂.program listing).words[b.toNat]? =
      some (((listing.map fun e => (e.address, e.word)).reverse.lookup b).getD 0) := by
    rw [Program.getElem?_words]
    show some (a₂.builder.image.get b) = _
    rw [hwalk.image_fill, get_foldl_set]
    show some (Option.getD _ (Memory.cleared.get b)) = _
    rw [Memory.get_cleared]
  refine ⟨hlines, ?_, ?_, Vector.length_toList, hwords, ?_⟩
  · rw [← List.pairwise_map (f := Entry.line) (R := fun l m => l.number < m.number)]
    show (listing.map Entry.line).Pairwise _
    rw [hlines]
    exact (SourceLine.pairwise_ofSource source).sublist
      (List.filter_sublist.trans (SourceLine.upToEnd_sublist _))
  · intro e he
    exact ⟨Nat.le_of_lt_succ e.address.isLt, Nat.le_of_lt_succ e.word.isLt,
      hwalk.placedAfter_fill rfl he⟩
  · intro m address haddress
    rw [Memory.read, Program.install, Memory.get_ofList, Program.word, Word.toNat_ofNat,
      Nat.mod_eq_of_lt (Nat.lt_succ_of_le haddress)]

/-- Two origins, one octal and one decimal, with the same value: the second word that goes there
replaces the first. A machine that was full of other words holds zero where no word goes. -/
theorem listing_describes_image_of_overlap :
    ∃ (source : Text) (p : Program) (a' : Assembler), assemble source {} = .ok p a' ∧
      p.listing.map Entry.line =
        [⟨2, "1".toList⟩, ⟨3, "2".toList⟩, ⟨6, "3".toList⟩] ∧
      p.words[(16 : Word).toNat]? = some 3 ∧
      (p.install { memory := .ofList (List.replicate 4096 0o7777) }).memory.read 0 = 0 := by
  let source : Text := "*20\n1\n2\nDECIMAL\n*16\n3\n$\n4\n".toList
  have hresult : (match assemble source {} with
      | .ok p _ => some (p.listing.map fun e => (e.address, e.word), p.word 0)
      | .error _ _ => none) = some ([(16, 1), (17, 2), (16, 3)], 0) := by decide +kernel
  split at hresult
  · next p a' h =>
      obtain ⟨hentries, hzero⟩ := Prod.mk.inj (Option.some.inj hresult)
      obtain ⟨hlines, -, -, -, hwords, hinstall⟩ := listing_describes_image h
      refine ⟨source, p, a', h, ?_, ?_, ?_⟩
      · rw [hlines]
        decide +kernel
      · rw [hwords, hentries]
        rfl
      · rw [hinstall _ _ (by decide), hzero]
  · cases hresult

end Assembler

end TwelveBit.Assembly
