import TwelveBit.Proofs.Layout

/-!
# The agreement of the passes

A walk of a pass that follows the statements goes over the lines up to the end of the program and
stands before each where `Position.course` has it (`Pass.Walk.course`). The course is made from the
lines alone, so it is the same for both passes.

What is left is what each pass makes of its visits. The first gives every name the place of its last
definition (`Pass.Walk.address?_layOut`), the second answers one entry for every visit of a line
that emits a word (`Pass.Walk.listing_fill`). With the course in common, `assemble_passes_agree`
puts the two together.
-/

namespace TwelveBit.Assembly

/-! ## The course of a walk -/

/-- The lines from a position up to the end of the program, each with the position before it. -/
def Position.course : Position → List SourceLine → List (SourceLine × Position)
  | _, [] => []
  | p, l :: rest =>
    (l, p) ::
      match l.parse with
      | .error _ => []
      | .ok line =>
        if line.statement = .finish then []
        else match p.after line.statement with
          | .error _ => []
          | .ok p => p.course rest

theorem Position.course_of_finish (p : Position) {l : SourceLine} {line : Line}
    (rest : List SourceLine) (hline : l.parse = .ok line) (hs : line.statement = .finish) :
    p.course (l :: rest) = [(l, p)] := by
  rw [course, hline]
  exact congrArg ((l, p) :: ·) (if_pos hs)

theorem Position.course_of_after {p p' : Position} {l : SourceLine} {line : Line}
    (rest : List SourceLine) (hline : l.parse = .ok line) (hs : line.statement ≠ .finish)
    (hafter : p.after line.statement = .ok p') :
    p.course (l :: rest) = (l, p) :: p'.course rest := by
  rw [course, hline]
  dsimp only
  rw [if_neg hs, hafter]

namespace Pass

variable {visit : SourceLine → Pass Finding} {lines : List SourceLine} {a a' : Assembler}
  {vs : List Visit} {entries : List Entry}

/-- What goes on after a visit, if a pass that follows the statements does not end there. -/
theorem Follows.next (hf : Follows visit) {l : SourceLine} {a a' : Assembler}
    {finding : Finding} (h : visit l a = .ok finding a') (hfinding : finding ≠ .finish)
    (rest : List SourceLine) :
    SourceLine.upToEnd (l :: rest) = l :: SourceLine.upToEnd rest ∧
      a.builder.position.course (l :: rest) =
        (l, a.builder.position) :: a'.builder.position.course rest := by
  obtain ⟨line, hline, hafter, hend⟩ := hf h
  have hs : line.statement ≠ .finish := fun hs => hfinding (hend.mpr hs)
  refine ⟨if_neg ?_, Position.course_of_after rest hline hs hafter⟩
  rw [SourceLine.ends_of_parse hline, decide_eq_true_iff]
  exact hs

/-- **A pass that follows the statements keeps to the course**: it visits the lines up to the end of
the program, and stands before each of them where the course has it. -/
theorem Walk.course (hf : Follows visit) (h : Walk visit lines a vs entries a') :
    vs.map Visit.line = SourceLine.upToEnd lines ∧
      vs.map Visit.place = a.builder.position.course lines := by
  -- what is left of the course after a line begins where the visit has left the pass
  induction h with
  | nil a => exact ⟨rfl, rfl⟩
  | @finish l rest a a' here =>
      obtain ⟨line, hline, -, hend⟩ := hf here
      have hs := hend.mp rfl
      refine ⟨(if_pos ?_).symm, (Position.course_of_finish _ rest hline hs).symm⟩
      rw [SourceLine.ends_of_parse hline, hs]
      rfl
  | @nothing l rest a a₁ a' vs entries here next ih =>
      obtain ⟨hlines, hcourse⟩ := hf.next here (fun h => by cases h) rest
      rw [hlines, hcourse, List.map_cons, List.map_cons, ih.1, ih.2]
      exact ⟨rfl, rfl⟩
  | @entry l rest a a₁ a' vs entries e here next ih =>
      obtain ⟨hlines, hcourse⟩ := hf.next here (fun h => by cases h) rest
      rw [hlines, hcourse, List.map_cons, List.map_cons, ih.1, ih.2]
      exact ⟨rfl, rfl⟩

/-! ## Symbols -/

/-- What a name stands for after these visits of the first pass, if it stood for this before. -/
def lastDefinition (name : Text) (address : Option Nat) (vs : List Visit) : Option Nat :=
  vs.foldl (fun address v => if v.defines name then some v.counter else address) address

/-- A name that no visit defines keeps what it stands for. -/
theorem lastDefinition_of_not_defines {name : Text} (address : Option Nat) {vs : List Visit}
    (h : ∀ v ∈ vs, ¬ v.defines name) : lastDefinition name address vs = address := by
  induction vs with
  | nil => rfl
  | cons v vs ih =>
      obtain ⟨hv, hvs⟩ := List.forall_mem_cons.mp h
      rw [lastDefinition, List.foldl_cons, if_neg hv]
      exact ih hvs

/-- The last definition of a name is the one that holds. -/
theorem lastDefinition_append_cons {name : Text} (address : Option Nat) (earlier : List Visit)
    {v : Visit} {later : List Visit} (hv : v.defines name) (h : ∀ u ∈ later, ¬ u.defines name) :
    lastDefinition name address (earlier ++ v :: later) = some v.counter := by
  rw [lastDefinition, List.foldl_append, List.foldl_cons, if_pos hv]
  exact lastDefinition_of_not_defines _ h

/-- The first pass leaves every name with its last definition. -/
theorem Walk.address?_layOut (h : Walk layOut lines a vs entries a') (name : Text) :
    a'.builder.symbols.address? name =
      lastDefinition name (a.builder.symbols.address? name) vs := by
  refine Walk.foldl_eq (f := fun a => a.builder.symbols.address? name) ?_ h
  intro l a finding a' h
  obtain ⟨line, hline, -, -, hsymbols⟩ := of_layOut h
  have hdefines : line.label = some name ↔ Visit.defines ⟨l, a⟩ name := by
    rw [← SourceLine.label?_of_parse hline]
    rfl
  rw [hsymbols]
  exact ite_congr (propext hdefines) (fun _ => rfl) (fun _ => rfl)

/-- The first pass leaves every name with an address of memory. -/
theorem Walk.address?_lt (h : Walk layOut lines a vs entries a')
    (hbefore : ∀ name address, a.builder.symbols.address? name = some address → address < 4096) :
    ∀ name address, a'.builder.symbols.address? name = some address → address < 4096 := by
  induction h with
  | nil a => exact hbefore
  | finish here => exact address?_lt_of_layOut here hbefore
  | nothing here next ih => exact ih (address?_lt_of_layOut here hbefore)
  | entry here next ih => exact ih (address?_lt_of_layOut here hbefore)

/-- The second pass leaves the symbols alone. -/
theorem Walk.symbols_fill (h : Walk fill lines a vs entries a') :
    a'.builder.symbols = a.builder.symbols := by
  have hstep {l : SourceLine} {a a' : Assembler} {finding : Finding}
      (h : fill l a = .ok finding a') : a'.builder.symbols = a.builder.symbols := by
    obtain ⟨-, -, -, hsymbols, -⟩ := of_fill h
    exact hsymbols
  induction h with
  | nil a => rfl
  | finish here => exact hstep here
  | nothing here next ih => rw [ih, hstep here]
  | entry here next ih => rw [ih, hstep here]

/-! ## The listing -/

/-- The listing has an entry for every visit of a line that emits a word, in order, with the line
and the place of the next word before the visit. -/
theorem Walk.listing_fill (h : Walk fill lines a vs entries a') :
    entries.map (fun e => (e.line, e.address.toNat)) =
      (vs.filter Visit.emits).map fun v => (v.line, v.counter) := by
  -- a visit answers an entry if its line emits a word, and none otherwise
  have hstep {l : SourceLine} {a a' : Assembler} {finding : Finding}
      (h : fill l a = .ok finding a') :
      if l.emits then ∃ e, finding = .entry e ∧ (e.line, e.address.toNat) = (l, a.builder.counter)
      else ∀ e, finding ≠ .entry e := by
    obtain ⟨line, hline, -, -, hfinding⟩ := of_fill h
    rw [SourceLine.emits_of_parse hline]
    split at hfinding
    · next hemits =>
        obtain ⟨hlt, word, rfl⟩ := hfinding
        rw [if_pos hemits]
        refine ⟨_, rfl, ?_⟩
        rw [Word.toNat_ofNat_of_lt hlt]
    · next hemits =>
        rw [if_neg hemits, hfinding]
        exact Finding.ofStatement_ne_entry line.statement
  induction h with
  | nil a => rfl
  | @finish l rest a a' here =>
      have hl := hstep here
      split at hl
      · obtain ⟨e, he, -⟩ := hl
        cases he
      · next hemits =>
          rw [List.filter_cons_of_neg (show ¬ Visit.emits ⟨l, a⟩ = true from hemits)]
          rfl
  | @nothing l rest a a₁ a' vs entries here next ih =>
      have hl := hstep here
      split at hl
      · obtain ⟨e, he, -⟩ := hl
        cases he
      · next hemits =>
          rw [List.filter_cons_of_neg (show ¬ Visit.emits ⟨l, a⟩ = true from hemits)]
          exact ih
  | @entry l rest a a₁ a' vs entries e here next ih =>
      have hl := hstep here
      split at hl
      · next hemits =>
          obtain ⟨e', he, hplace⟩ := hl
          cases he
          rw [List.filter_cons_of_pos (show Visit.emits ⟨l, a⟩ = true from hemits), List.map_cons,
            List.map_cons, ih, hplace]
          rfl
      · exact absurd rfl (hl e)

end Pass

/-! ## Both passes -/

namespace Assembler

/-- The visits of the first pass of an assembly. -/
def firstVisits (source : Text) (a : Assembler) : List Visit :=
  Pass.visits Pass.layOut (SourceLine.ofSource source) (a.begin (SourceLine.ofSource source))

/-- The visits of the second pass of an assembly. There are none if the first ends in an error. -/
def secondVisits (source : Text) (a : Assembler) : List Visit :=
  match Pass.walk Pass.layOut (SourceLine.ofSource source)
    (a.begin (SourceLine.ofSource source)) with
  | .error _ _ => []
  | .ok _ a₁ => Pass.visits Pass.fill (SourceLine.ofSource source) a₁.turn

/-- An assembly that ends well is two walks that end well. -/
theorem walks_of_assemble {source : Text} {a a' : Assembler} {p : Program}
    (h : assemble source a = .ok p a') :
    ∃ entries a₁ a₂,
      Pass.Walk Pass.layOut (SourceLine.ofSource source) (a.begin (SourceLine.ofSource source))
        (firstVisits source a) entries a₁ ∧
      Pass.Walk Pass.fill (SourceLine.ofSource source) a₁.turn (secondVisits source a) p.listing
        a₂ ∧
      p.symbols = a₂.builder.symbols := by
  obtain ⟨entries, a₁, listing, a₂, hfirst, hsecond, rfl, -⟩ := assemble_eq_ok_iff.mp h
  refine ⟨entries, a₁, a₂, Pass.walk_of_eq_ok hfirst, ?_, rfl⟩
  rw [secondVisits, hfirst]
  exact Pass.walk_of_eq_ok hsecond

/-- The names of a program stand for addresses of memory. -/
theorem address?_lt_of_assemble {source : Text} {a a' : Assembler} {p : Program}
    (h : assemble source a = .ok p a') {name : Text} {address : Nat}
    (haddress : p.symbols.address? name = some address) : address < 4096 := by
  obtain ⟨entries, a₁, a₂, hfirst, hsecond, hsymbols⟩ := walks_of_assemble h
  rw [hsymbols, hsecond.symbols_fill] at haddress
  refine hfirst.address?_lt ?_ name address haddress
  intro name address hnone
  cases hnone

/-- In a list without two elements of one key, a key picks out the element that has it. -/
private theorem filter_key_eq {α β : Type} [DecidableEq β] (key : α → β) {xs : List α}
    (hnodup : (xs.map key).Nodup) {x : α} (hx : x ∈ xs) :
    xs.filter (fun y => key y = key x) = [x] := by
  induction xs with
  | nil => cases hx
  | cons y ys ih =>
      rw [List.map_cons, List.nodup_cons] at hnodup
      obtain ⟨hy, hys⟩ := hnodup
      rcases List.mem_cons.mp hx with rfl | hmem
      · rw [List.filter_cons_of_pos (by rw [decide_eq_true_iff]), List.filter_eq_nil_iff.mpr]
        intro z hz hkey
        exact hy (List.mem_map.mpr ⟨z, hz, of_decide_eq_true hkey⟩)
      · have hne : key y ≠ key x := fun hkey => hy (hkey ▸ List.mem_map_of_mem hmem)
        rw [List.filter_cons_of_neg (by rw [decide_eq_true_iff]; exact hne)]
        exact ih hys hmem

/-- A line that is visited and emits a word has one entry, with the place of the next word before
the visit. -/
theorem entry_of_visit {vs : List Visit} {entries : List Entry}
    (hlisting : entries.map (fun e => (e.line, e.address.toNat)) =
      (vs.filter Visit.emits).map fun v => (v.line, v.counter))
    (hnodup : (vs.map Visit.line).Nodup) {v : Visit} (hv : v ∈ vs) (hemits : v.emits = true) :
    ∃ e, entries.filter (fun e => e.line = v.line) = [e] ∧ e.address.toNat = v.counter := by
  have hlines : entries.map Entry.line = (vs.filter Visit.emits).map Visit.line := by
    have := congrArg (List.map Prod.fst) hlisting
    rw [List.map_map, List.map_map] at this
    exact this
  have hplace : (v.line, v.counter) ∈ entries.map fun e => (e.line, e.address.toNat) := by
    rw [hlisting]
    exact List.mem_map.mpr ⟨v, List.mem_filter.mpr ⟨hv, hemits⟩, rfl⟩
  obtain ⟨e, he, heq⟩ := List.mem_map.mp hplace
  obtain ⟨hline, haddress⟩ := Prod.mk.inj heq
  have hentries : (entries.map Entry.line).Nodup := by
    rw [hlines]
    exact hnodup.sublist (List.filter_sublist.map _)
  refine ⟨e, ?_, haddress⟩
  rw [← hline]
  exact filter_key_eq Entry.line hentries he

/-- **The two passes agree.** In an assembly that ends well both passes visit the lines up to the
end of the program, and stand at the same place with the same radix before each. So the symbols of
the program are the places that the second pass comes by: a name stands for the place of the next
word at the last visited line that defines it, which is the address of the one entry of that line if
the line emits a word, and a name that no visited line defines stands for nothing. -/
theorem assemble_passes_agree {source : Text} {a a' : Assembler} {p : Program}
    (h : assemble source a = .ok p a') :
    (firstVisits source a).map Visit.line = SourceLine.upToEnd (SourceLine.ofSource source) ∧
    (secondVisits source a).map Visit.place = (firstVisits source a).map Visit.place ∧
    (∀ earlier v later name, firstVisits source a = earlier ++ v :: later → v.defines name →
      (∀ u ∈ later, ¬ u.defines name) →
      p.symbols.address? name = some v.counter ∧
      (v.emits = true → ∃ e, p.listing.filter (fun e => e.line = v.line) = [e] ∧
        e.address.toNat = v.counter)) ∧
    ∀ name, (∀ v ∈ firstVisits source a, ¬ v.defines name) → p.symbols.address? name = none := by
  obtain ⟨entries, a₁, a₂, hfirst, hsecond, hsymbols⟩ := walks_of_assemble h
  obtain ⟨hlines, hcourse⟩ := hfirst.course Pass.follows_layOut
  obtain ⟨hlines', hcourse'⟩ := hsecond.course Pass.follows_fill
  -- both passes begin at address 0 with octal numerals
  have hplaces : (secondVisits source a).map Visit.place = (firstVisits source a).map Visit.place :=
    hcourse'.trans hcourse.symm
  have haddress (name : Text) :
      p.symbols.address? name = Pass.lastDefinition name none (firstVisits source a) := by
    rw [hsymbols, hsecond.symbols_fill]
    exact hfirst.address?_layOut name
  refine ⟨hlines, hplaces, ?_, ?_⟩
  · intro earlier v later name hvisits hdefines hlater
    refine ⟨?_, fun hemits => ?_⟩
    · rw [haddress, hvisits]
      exact Pass.lastDefinition_append_cons none earlier hdefines hlater
    · -- the second pass has a visit of the same line at the same place
      have hv : v.place ∈ (secondVisits source a).map Visit.place := by
        rw [hplaces, hvisits]
        exact List.mem_map_of_mem (List.mem_append_right earlier List.mem_cons_self)
      obtain ⟨w, hw, hwv⟩ := List.mem_map.mp hv
      obtain ⟨hline, hposition⟩ := Prod.mk.inj hwv
      have hcounter : w.counter = v.counter := congrArg Position.counter hposition
      have hnodup : ((secondVisits source a).map Visit.line).Nodup := by
        rw [hlines']
        exact (SourceLine.nodup_ofSource source).sublist (SourceLine.upToEnd_sublist _)
      rw [← hline, ← hcounter]
      exact entry_of_visit hsecond.listing_fill hnodup hw (by rw [Visit.emits, hline]; exact hemits)
  · intro name hname
    rw [haddress]
    exact Pass.lastDefinition_of_not_defines none hname

/-- A label on an origin, a label that is defined again, a label on the end of the program and one
after it, with decimal numerals. -/
theorem assemble_passes_agree_on_redefinition :
    ∃ (source : Text) (p : Program) (a' : Assembler), assemble source {} = .ok p a' ∧
      (secondVisits source {}).map Visit.place =
        [(⟨1, "DECIMAL".toList⟩, ⟨0, .octal⟩), (⟨2, "A, *100".toList⟩, ⟨0, .decimal⟩),
          (⟨3, "A, JMP A".toList⟩, ⟨100, .decimal⟩), (⟨5, "B, $ ".toList⟩, ⟨101, .decimal⟩)] ∧
      p.symbols.address? "A" = some 100 ∧
      (∃ e, p.listing.filter (fun e => e.line = ⟨3, "A, JMP A".toList⟩) = [e] ∧
        e.address.toNat = 100) ∧
      p.symbols.address? "C" = none := by
  let source : Text := "DECIMAL\nA, *100\nA, JMP A\n/ nothing\nB, $ \nC, CLA\n".toList
  have hassembles : ((assemble source).run' {}).map (fun _ => ()) = some () := by decide +kernel
  obtain ⟨p, a', h, -⟩ := Pass.eq_ok_of_run' hassembles
  have hthird : (firstVisits source {})[2]?.map (fun v => (v.line, v.counter)) =
      some (⟨3, "A, JMP A".toList⟩, 100) := by decide +kernel
  obtain ⟨-, hplaces, hdefined, hundefined⟩ := assemble_passes_agree h
  obtain ⟨v, hv, hfields⟩ := Option.map_eq_some_iff.mp hthird
  obtain ⟨hline, hcounter⟩ := Prod.mk.inj hfields
  have hcut : firstVisits source {} =
      (firstVisits source {}).take 2 ++ v :: (firstVisits source {}).drop 3 := by
    obtain ⟨hlt, rfl⟩ := List.getElem?_eq_some_iff.mp hv
    rw [← List.drop_eq_getElem_cons, List.take_append_drop]
  have hdefines : v.defines "A" := by
    rw [Visit.defines, hline]
    decide +kernel
  have hlast := hdefined _ v _ "A" hcut hdefines (by decide +kernel)
  rw [hline, hcounter] at hlast
  refine ⟨source, p, a', h, ?_, hlast.1, hlast.2 ?_, hundefined "C" (by decide +kernel)⟩
  · rw [hplaces]
    decide +kernel
  · rw [Visit.emits, hline]
    decide +kernel

end Assembler

end TwelveBit.Assembly
