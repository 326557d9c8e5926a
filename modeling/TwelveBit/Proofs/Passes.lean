import TwelveBit.Assembly.Assembler

/-!
# What a pass does

The two passes of the assembler in equations: what a visit of one line answers, as a function of the
builder (`layOut_of_parse`, `fill_of_parse`), and what a whole assembly is in terms of its two walks
(`assemble_eq`). Nothing after this module looks into the monad of a pass again.

`Pass.visits` is the course of a walk: the lines that are visited, each with the assembler as the
visit finds it. A statement about what is true *before each line* of a pass is a statement about
this list. `Pass.Walk` is the relation between a walk that ends well, its visits and its entries,
and what is true of a whole walk is proved by induction on it.
-/

namespace TwelveBit.Assembly

/-! ## One line -/

namespace Assembler

/-- Put a redefinition into the journal, if there was one. -/
def noteRedefinition (a : Assembler) : Option Redefinition → Assembler
  | none => a
  | some r => { a with journal := a.journal.push (.redefined r) }

@[simp] theorem builder_noteRedefinition (a : Assembler) (r : Option Redefinition) :
    (a.noteRedefinition r).builder = a.builder := by
  cases r <;> rfl

end Assembler

namespace Pass

/-- What a pass answers when it is carried out and its assembler thrown away. -/
theorem eq_ok_of_run' {α β : Type} {x : Pass α} {a : Assembler} {f : α → β} {value : β}
    (h : (x.run' a).map f = some value) : ∃ result a', x a = .ok result a' ∧ f result = value := by
  delta EStateM.run' EStateM.run at h
  cases hx : x a with
  | ok result a' =>
      rw [hx] at h
      exact ⟨result, a', rfl, Option.some.inj h⟩
  | error e a' =>
      rw [hx] at h
      cases h

variable {l : SourceLine} {line : Line} {e : Error}

theorem layOut_of_error (h : l.parse = .error e) (a : Assembler) :
    layOut l a = .error (l.locate e) a := by
  rw [layOut, h]
  rfl

/-- The first pass over a line that can be read. -/
theorem layOut_of_parse (h : l.parse = .ok line) (a : Assembler) :
    layOut l a =
      match Builder.label line.label l.number a.builder with
      | .error e b => .error (l.locate e) { a with builder := b }
      | .ok r b =>
        match Builder.makeRoom line.statement b with
        | .error e b' => .error (l.locate e) ({ a with builder := b' }.noteRedefinition r)
        | .ok _ b' =>
          .ok (.ofStatement line.statement) ({ a with builder := b' }.noteRedefinition r) := by
  rw [layOut, h]
  show EStateM.bind (define l line.label) _ a = _
  -- the label by itself: an error stops here, and a redefinition is noted before the statement
  have hdefine : define l line.label a =
      match Builder.label line.label l.number a.builder with
      | .error e b => .error (l.locate e) { a with builder := b }
      | .ok r b => .ok () ({ a with builder := b }.noteRedefinition r) := by
    show EStateM.bind (build l (Builder.label line.label l.number)) _ a = _
    rw [EStateM.bind, build]
    rcases Builder.label line.label l.number a.builder with ⟨_ | r, b⟩ | ⟨e, b⟩ <;> rfl
  rw [EStateM.bind, hdefine]
  rcases Builder.label line.label l.number a.builder with ⟨r, b⟩ | ⟨e, b⟩
  · show EStateM.bind (build l (Builder.makeRoom line.statement)) _ _ = _
    rw [EStateM.bind, build, Assembler.builder_noteRedefinition]
    dsimp only
    rcases Builder.makeRoom line.statement b with ⟨_, b'⟩ | ⟨e, b'⟩ <;> cases r <;> rfl
  · rfl

theorem fill_of_error (h : l.parse = .error e) (a : Assembler) :
    fill l a = .error (l.locate e) a := by
  rw [fill, h]
  rfl

/-- The second pass over a line that can be read. -/
theorem fill_of_parse (h : l.parse = .ok line) (a : Assembler) :
    fill l a =
      match Builder.fill line.statement a.builder with
      | .error e b => .error (l.locate e) { a with builder := b }
      | .ok (some (address, word)) b =>
        .ok (.entry { address, word, line := l }) { a with builder := b }
      | .ok none b => .ok (.ofStatement line.statement) { a with builder := b } := by
  rw [fill, h]
  show EStateM.bind (build l (Builder.fill line.statement)) _ a = _
  rw [EStateM.bind, build]
  rcases Builder.fill line.statement a.builder with ⟨_ | ⟨address, word⟩, b⟩ | ⟨e, b⟩ <;> rfl

end Pass

/-! ## A whole walk -/

/-- A visit of a line by a pass. -/
structure Visit where
  line : SourceLine
  /-- The assembler before the visit. -/
  before : Assembler

namespace Pass

/-- The visits of a walk, in order. Like the walk, they stop at an error and at the end of the
program. -/
def visits (visit : SourceLine → Pass Finding) : List SourceLine → Assembler → List Visit
  | [], _ => []
  | l :: rest, a =>
    { line := l, before := a } ::
      match visit l a with
      | .error _ _ => []
      | .ok .finish _ => []
      | .ok _ a => visits visit rest a

/-- A walk that ends well: over these lines, from this assembler, by these visits, with these
entries, to this assembler. -/
inductive Walk (visit : SourceLine → Pass Finding) :
    List SourceLine → Assembler → List Visit → List Entry → Assembler → Prop where
  | nil (a : Assembler) : Walk visit [] a [] [] a
  | finish {l : SourceLine} {rest : List SourceLine} {a a' : Assembler}
      (here : visit l a = .ok .finish a') : Walk visit (l :: rest) a [⟨l, a⟩] [] a'
  | nothing {l : SourceLine} {rest : List SourceLine} {a a₁ a' : Assembler} {vs : List Visit}
      {entries : List Entry} (here : visit l a = .ok .nothing a₁)
      (next : Walk visit rest a₁ vs entries a') : Walk visit (l :: rest) a (⟨l, a⟩ :: vs) entries a'
  | entry {l : SourceLine} {rest : List SourceLine} {a a₁ a' : Assembler} {vs : List Visit}
      {entries : List Entry} {e : Entry} (here : visit l a = .ok (.entry e) a₁)
      (next : Walk visit rest a₁ vs entries a') :
      Walk visit (l :: rest) a (⟨l, a⟩ :: vs) (e :: entries) a'

variable {visit : SourceLine → Pass Finding} {lines : List SourceLine} {a a' : Assembler}
  {vs : List Visit} {entries : List Entry}

/-- A walk that answers entries is one that ends well. -/
theorem walk_of_eq_ok (h : walk visit lines a = .ok entries a') :
    Walk visit lines a (visits visit lines a) entries a' := by
  -- on the lines, for any assembler, because each visit leaves another one behind
  induction lines generalizing a entries with
  | nil =>
      cases h
      exact .nil _
  | cons l rest ih =>
      rw [walk_cons] at h
      rw [visits]
      cases hl : visit l a with
      | error e a₁ => rw [hl] at h; cases h
      | ok finding a₁ =>
          rw [hl] at h
          cases finding with
          | finish =>
              cases h
              exact .finish hl
          | nothing => exact .nothing hl (ih h)
          | entry e =>
              dsimp only at h
              cases hrest : walk visit rest a₁ with
              | error e' a₂ => rw [hrest] at h; cases h
              | ok found a₂ =>
                  rw [hrest] at h
                  cases h
                  exact .entry hl (ih hrest)

/-- A walk that ends well is the one that is carried out. -/
theorem Walk.eq_ok (h : Walk visit lines a vs entries a') :
    walk visit lines a = .ok entries a' := by
  induction h with
  | nil a => rfl
  | finish here => rw [walk_cons, here]
  | nothing here next ih =>
      rw [walk_cons, here]
      exact ih
  | @entry l rest a a₁ a' vs entries e here next ih =>
      rw [walk_cons, here]
      dsimp only
      rw [ih]

/-- What each visit does to some part of the assembler, the walk does by its visits in order. -/
theorem Walk.foldl_eq {β : Type} {f : Assembler → β} {g : β → Visit → β}
    (hstep : ∀ {l a finding a'}, visit l a = .ok finding a' → f a' = g (f a) ⟨l, a⟩)
    (h : Walk visit lines a vs entries a') : f a' = vs.foldl g (f a) := by
  induction h with
  | nil a => rfl
  | finish here => exact hstep here
  | nothing here next ih => rw [ih, hstep here, List.foldl_cons]
  | entry here next ih => rw [ih, hstep here, List.foldl_cons]

end Pass

/-! ## A whole assembly -/

namespace Assembler

/-- The assembler before the first pass over these lines. -/
def begin (a : Assembler) (lines : List SourceLine) : Assembler where
  builder := {}
  journal := a.journal.push (.laying lines.length)

/-- The assembler between the passes. -/
def turn (a : Assembler) : Assembler where
  builder := a.builder.restart
  journal := a.journal.push (.laidOut a.builder.symbols.size)

/-- The assembler at the end, with this many words. -/
def finish (a : Assembler) (words : Nat) : Assembler :=
  { a with journal := a.journal.push (.emitted words) }

/-- The program that has been built, with its listing. -/
def program (a : Assembler) (listing : List Entry) : Program where
  image := a.builder.image
  symbols := a.builder.symbols
  listing := listing

/-- An assembly is a walk of the first pass and then a walk of the second over the same lines. -/
theorem assemble_eq (source : Text) (a : Assembler) :
    assemble source a =
      match Pass.walk Pass.layOut (SourceLine.ofSource source)
        (a.begin (SourceLine.ofSource source)) with
      | .error e a₁ => .error e a₁
      | .ok _ a₁ =>
        match Pass.walk Pass.fill (SourceLine.ofSource source) a₁.turn with
        | .error e a₂ => .error e a₂
        | .ok listing a₂ => .ok (a₂.program listing) (a₂.finish listing.length) := by
  show EStateM.bind (Pass.walk Pass.layOut (SourceLine.ofSource source)) _
    (a.begin (SourceLine.ofSource source)) = _
  rw [EStateM.bind]
  rcases Pass.walk Pass.layOut (SourceLine.ofSource source) (a.begin (SourceLine.ofSource source))
    with ⟨_, a₁⟩ | ⟨e, a₁⟩
  · show EStateM.bind (Pass.walk Pass.fill (SourceLine.ofSource source)) _ a₁.turn = _
    rw [EStateM.bind]
    show _ = match Pass.walk Pass.fill (SourceLine.ofSource source) a₁.turn with
      | .error e a₂ => _
      | .ok listing a₂ => _
    rcases Pass.walk Pass.fill (SourceLine.ofSource source) a₁.turn with ⟨listing, a₂⟩ | ⟨e, a₂⟩
    · rfl
    · rfl
  · rfl

/-- An assembly that ends in an error has it from one of its walks. -/
theorem assemble_eq_error_iff {source : Text} {a a' : Assembler} {e : SourceError} :
    assemble source a = .error e a' ↔
      Pass.walk Pass.layOut (SourceLine.ofSource source) (a.begin (SourceLine.ofSource source)) =
        .error e a' ∨
      ∃ entries a₁,
        Pass.walk Pass.layOut (SourceLine.ofSource source)
          (a.begin (SourceLine.ofSource source)) = .ok entries a₁ ∧
        Pass.walk Pass.fill (SourceLine.ofSource source) a₁.turn = .error e a' := by
  rw [assemble_eq]
  constructor
  · intro h
    split at h
    · next h₁ =>
        cases h
        exact .inl h₁
    · next entries a₁ h₁ =>
        split at h
        · next h₂ =>
            cases h
            exact .inr ⟨entries, a₁, h₁, h₂⟩
        · cases h
  · rintro (h₁ | ⟨entries, a₁, h₁, h₂⟩)
    · rw [h₁]
    · rw [h₁]
      dsimp only
      rw [h₂]

/-- A successful assembly, with what stands between its passes. -/
theorem assemble_eq_ok_iff {source : Text} {a a' : Assembler} {p : Program} :
    assemble source a = .ok p a' ↔
      ∃ entries a₁ listing a₂,
        Pass.walk Pass.layOut (SourceLine.ofSource source)
          (a.begin (SourceLine.ofSource source)) = .ok entries a₁ ∧
        Pass.walk Pass.fill (SourceLine.ofSource source) a₁.turn = .ok listing a₂ ∧
        p = a₂.program listing ∧ a' = a₂.finish listing.length := by
  rw [assemble_eq]
  constructor
  · intro h
    split at h
    · cases h
    · next entries a₁ h₁ =>
        split at h
        · cases h
        · next listing a₂ h₂ =>
            cases h
            exact ⟨entries, a₁, listing, a₂, h₁, h₂, rfl, rfl⟩
  · rintro ⟨entries, a₁, listing, a₂, h₁, h₂, rfl, rfl⟩
    rw [h₁]
    show (match Pass.walk Pass.fill (SourceLine.ofSource source) a₁.turn with
      | .error e a₂ => _
      | .ok listing a₂ => _) = _
    rw [h₂]

end Assembler

end TwelveBit.Assembly
