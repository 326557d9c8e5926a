import TwelveBit.Proofs.RoundTrip

/-!
# What the lines of a program say

A line says something from where it stands: which name stands for the place (`Position.label?`), and
which word goes there (`Position.word?`). `Position.collect` gathers this along the lines of a text
from one position to the next. It needs no builder and can be computed piece by piece
(`Position.collect_append`), also where pieces of the text are not known.

`assemble_of_collect` proves that an assembly yields what its lines say: the labels, collected
first, as its symbols, and the words, collected with these symbols, as its listing and its image.
-/

namespace TwelveBit.Assembly

/-! ## One item -/

/-- The table of these labels. The last one of a name counts. -/
def SymbolTable.ofLabels (labels : List (Text × Nat)) : SymbolTable where
  entries := labels.reverse.map fun (name, address) => (name, { address, line := 0 })

theorem SymbolTable.address?_ofLabels (labels : List (Text × Nat)) (name : Text) :
    (ofLabels labels).address? name = labels.reverse.lookup name := by
  let symbol (address : Nat) : Symbol := { address, line := 0 }
  have hget : (ofLabels labels).get? name = (labels.reverse.lookup name).map symbol :=
    lookup_map_snd symbol labels.reverse name
  rw [address?, hget, Option.map_map]
  exact Option.map_id'

section Congruence

variable {symbols symbols' : SymbolTable}
  (h : ∀ name, symbols.address? name = symbols'.address? name)

include h

theorem Term.evaluate_congr (t : Term) (location : Nat) (radix : Radix) :
    t.evaluate location symbols radix = t.evaluate location symbols' radix := by
  cases t with
  | symbol name => rw [evaluate, evaluate, h]
  | here => rfl
  | literal digits => rfl

theorem Expression.evaluate_congr (e : Expression) (location : Nat) (radix : Radix) :
    e.evaluate location symbols radix = e.evaluate location symbols' radix := by
  simp only [evaluate, Term.evaluate_congr h]

/-- The word of an item depends on the addresses of the symbols alone. -/
theorem Item.encode_congr (item : Item) (location : Nat) (radix : Radix) :
    item.encode location symbols radix = item.encode location symbols' radix := by
  cases item with
  | reference opcode indirect pageZero operand =>
      simp only [encode, Expression.evaluate_congr h]
  | constant value => simp only [encode, encodeConstant, Expression.evaluate_congr h]
  | operate word => rfl
  | inputOutput word => rfl
  | reserve => rfl

end Congruence

/-! ## What one line says -/

namespace Position

/-- The name that stands for the place, if there is a label; nothing if there is no such place. -/
def label? (p : Position) (line : Line) : Option (List (Text × Nat)) :=
  match line.label with
  | none => some []
  | some name => if p.counter < 4096 then some [(name, p.counter)] else none

/-- The word that goes to the place, if one is emitted; nothing if it cannot be encoded. -/
def word? (symbols : SymbolTable) (p : Position) (line : Line) : Option (List (Word × Word)) :=
  match line.statement with
  | .emit item =>
    match item.encode p.counter symbols p.radix with
    | .ok word => some [(Word.ofNat p.counter, word)]
    | .error _ => none
  | _ => some []

variable {β : Type}

/-- What a line of a text says from a position, and where it moves the pass. A line without code
says nothing. There is no answer to a line that cannot be read or that ends the program. -/
def visit (tells : Position → Line → Option (List β)) (p : Position) (t : Text) :
    Option (List β × Position) :=
  if (code t).isEmpty then some ([], p)
  else match Line.parse (code t) with
    | .error _ => none
    | .ok line =>
      if line.statement = .finish then none
      else match tells p line, p.after line.statement with
        | some here, .ok q => some (here, q)
        | _, _ => none

/-- What the lines of a text say one after another. -/
def collect (tells : Position → Line → Option (List β)) :
    Position → List Text → Option (List β × Position)
  | p, [] => some ([], p)
  | p, t :: rest =>
    (p.visit tells t).bind fun (here, q) =>
      (q.collect tells rest).map fun (others, r) => (here ++ others, r)

variable {tells : Position → Line → Option (List β)} {p q r : Position} {t : Text}
  {here others : List β}

/-! ### Collecting piece by piece -/

theorem collect_cons (hvisit : p.visit tells t = some (here, q)) {rest : List Text}
    (hrest : q.collect tells rest = some (others, r)) :
    p.collect tells (t :: rest) = some (here ++ others, r) := by
  rw [collect, hvisit, Option.bind_some]
  dsimp only
  rw [hrest]
  rfl

theorem collect_cons_eq_some_iff {rest : List Text} {found : List β} :
    p.collect tells (t :: rest) = some (found, r) ↔
      ∃ here q others, p.visit tells t = some (here, q) ∧
        q.collect tells rest = some (others, r) ∧ found = here ++ others := by
  constructor
  · intro h
    obtain ⟨⟨here, q⟩, hvisit, h⟩ := Option.bind_eq_some_iff.mp h
    obtain ⟨⟨others, s⟩, hrest, heq⟩ := Option.map_eq_some_iff.mp h
    cases heq
    exact ⟨here, q, others, hvisit, hrest, rfl⟩
  · rintro ⟨here, q, others, hvisit, hrest, rfl⟩
    exact collect_cons hvisit hrest

theorem collect_append {first second : List Text} (hfirst : p.collect tells first = some (here, q))
    (hsecond : q.collect tells second = some (others, r)) :
    p.collect tells (first ++ second) = some (here ++ others, r) := by
  induction first generalizing p here with
  | nil =>
      cases hfirst
      exact hsecond
  | cons t rest ih =>
      obtain ⟨found, s, left, hvisit, hrest, rfl⟩ := collect_cons_eq_some_iff.mp hfirst
      rw [List.append_assoc]
      exact collect_cons hvisit (ih hrest)

/-- What a line with code says. -/
theorem visit_of_parse {line : Line} (hcode : (code t).isEmpty = false)
    (hline : Line.parse (code t) = .ok line) (hs : line.statement ≠ .finish)
    (htells : tells p line = some here) (hafter : p.after line.statement = .ok q) :
    p.visit tells t = some (here, q) := by
  rw [visit, hcode, if_neg Bool.false_ne_true, hline]
  dsimp only
  rw [if_neg hs, htells, hafter]

/-- The lines that say something have no code, or they can be read and move the pass. -/
theorem visit_eq_some_iff : p.visit tells t = some (here, q) ↔
    (code t).isEmpty = true ∧ here = [] ∧ q = p ∨
    (code t).isEmpty = false ∧ ∃ line, Line.parse (code t) = .ok line ∧ line.statement ≠ .finish ∧
      tells p line = some here ∧ p.after line.statement = .ok q := by
  cases hcode : (code t).isEmpty with
  | true =>
      rw [visit, hcode, if_pos rfl]
      constructor
      · intro h
        cases h
        exact .inl ⟨rfl, rfl, rfl⟩
      · rintro (⟨-, rfl, rfl⟩ | ⟨h, -⟩)
        · rfl
        · cases h
  | false =>
      constructor
      · intro h
        rw [visit, hcode, if_neg Bool.false_ne_true] at h
        refine .inr ⟨rfl, ?_⟩
        split at h
        · cases h
        · next line hline =>
            split at h
            · cases h
            · next hs =>
                split at h
                · next htells hafter =>
                    cases h
                    exact ⟨line, hline, hs, htells, hafter⟩
                · cases h
      · rintro (⟨h, -⟩ | ⟨-, line, hline, hs, htells, hafter⟩)
        · cases h
        · exact visit_of_parse hcode hline hs htells hafter

end Position

/-! ## What the passes make of it -/

/-- The label of a line, if the name has a place to stand for. -/
theorem Position.lookup_of_label? {p : Position} {line : Line} {here : List (Text × Nat)}
    (h : p.label? line = some here) (name : Text) :
    here.reverse.lookup name = if line.label = some name then some p.counter else none := by
  rw [label?] at h
  cases hlabel : line.label with
  | none =>
      rw [hlabel] at h
      cases h
      rfl
  | some other =>
      rw [hlabel] at h
      dsimp only at h
      split at h
      · cases h
        rw [List.reverse_singleton, List.lookup_cons]
        by_cases hname : name = other
        · rw [if_pos (congrArg some hname.symm), beq_iff_eq.mpr hname]
        · rw [if_neg fun hsome => hname (Option.some.inj hsome).symm, beq_false_of_ne hname]
          rfl
      · cases h

namespace Builder

variable {b : Builder} {q : Position}

theorem exists_label {line : Line} {here : List (Text × Nat)}
    (h : b.position.label? line = some here) (number : Nat) :
    ∃ r b', label line.label number b = .ok r b' := by
  rw [Position.label?] at h
  cases hlabel : line.label with
  | none => exact ⟨none, b, rfl⟩
  | some name =>
      rw [hlabel] at h
      dsimp only at h
      split at h
      · next hlt =>
          exact ⟨_, _, define_of_lt hlt name number⟩
      · cases h

theorem exists_makeRoom {s : Statement} (h : b.position.after s = .ok q) :
    ∃ b', makeRoom s b = .ok () b' := by
  cases hroom : makeRoom s b with
  | ok _ b' => exact ⟨b', rfl⟩
  | error e b' =>
      have hfails := (b.position_makeRoom s).symm.trans (Building.view_eq_error_iff.mpr ⟨b', hroom⟩)
      rw [h] at hfails
      cases hfails

/-- The second pass over a statement that does not end the program. -/
theorem exists_fill {symbols : SymbolTable} {line : Line} {here : List (Word × Word)}
    (hsymbols : ∀ name, b.symbols.address? name = symbols.address? name)
    (h : b.position.word? symbols line = some here)
    (hafter : b.position.after line.statement = .ok q) :
    ∃ emitted b', fill line.statement b = .ok emitted b' ∧ emitted.toList = here := by
  rw [Position.word?] at h
  cases hs : line.statement with
  | emit item =>
      rw [hs] at h hafter
      dsimp only at h
      rw [← Item.encode_congr hsymbols] at h
      split at h
      · next word hword =>
          cases h
          have hlt : b.counter < 4096 := by
            rw [Position.after] at hafter
            split at hafter
            · assumption
            · cases hafter
          exact ⟨_, _, fill_emit_eq_ok_iff.mpr ⟨hlt, word, hword, rfl, rfl⟩, rfl⟩
      · cases h
  | _ =>
      -- what is not emitted is placed
      rw [hs] at h hafter
      cases h
      rw [← b.position_place _ rfl, Building.view] at hafter
      rw [fill_eq_of_not_emits rfl]
      split at hafter
      · next hplace =>
          rw [hplace]
          exact ⟨_, _, rfl, rfl⟩
      · cases hafter

end Builder

namespace Pass

variable {l : SourceLine} {a : Assembler} {q : Position}

theorem Finding.ofStatement_of_ne_finish {s : Statement} (hs : s ≠ .finish) :
    Finding.ofStatement s = .nothing := by
  cases s with
  | finish => exact absurd rfl hs
  | emit item => rfl
  | origin digits => rfl
  | radix radix => rfl

/-- The first pass over a line that says which name stands for its place. -/
theorem layOut_of_visit {here : List (Text × Nat)} (hcode : (code l.text).isEmpty = false)
    (h : a.builder.position.visit Position.label? l.text = some (here, q)) :
    ∃ a', layOut l a = .ok .nothing a' ∧ a'.builder.position = q ∧
      ∀ name, a'.builder.symbols.address? name =
        (here.reverse.lookup name).or (a.builder.symbols.address? name) := by
  obtain ⟨hblank, -⟩ | ⟨-, line, hline, hs, htells, hafter⟩ := Position.visit_eq_some_iff.mp h
  · rw [hcode] at hblank
    cases hblank
  · obtain ⟨r, b, hlabel⟩ := Builder.exists_label htells l.number
    obtain ⟨hposition, -⟩ := Builder.of_label hlabel
    obtain ⟨b', hroom⟩ := Builder.exists_makeRoom (hposition ▸ hafter)
    have hwell : layOut l a = .ok .nothing ({ a with builder := b' }.noteRedefinition r) := by
      rw [layOut_of_parse hline, hlabel]
      dsimp only
      rw [hroom]
      dsimp only
      rw [Finding.ofStatement_of_ne_finish hs]
    obtain ⟨line', hline', -, hafter', hsymbols⟩ := of_layOut hwell
    obtain rfl : line = line' := Except.ok.inj (hline.symm.trans hline')
    refine ⟨_, hwell, Except.ok.inj (hafter'.symm.trans hafter), fun name => ?_⟩
    rw [hsymbols, Position.lookup_of_label? htells]
    split <;> rfl

/-- The second pass over a line that says which word goes to its place. -/
theorem fill_of_visit {symbols : SymbolTable} {here : List (Word × Word)}
    (hsymbols : ∀ name, a.builder.symbols.address? name = symbols.address? name)
    (hcode : (code l.text).isEmpty = false)
    (h : a.builder.position.visit (Position.word? symbols) l.text = some (here, q)) :
    ∃ finding a', fill l a = .ok finding a' ∧ finding ≠ .finish ∧ a'.builder.position = q ∧
      finding.entry?.toList.map (fun e => (e.address, e.word)) = here := by
  obtain ⟨hblank, -⟩ | ⟨-, line, hline, hs, htells, hafter⟩ := Position.visit_eq_some_iff.mp h
  · rw [hcode] at hblank
    cases hblank
  · obtain ⟨emitted, b', hfill, rfl⟩ := Builder.exists_fill hsymbols htells hafter
    have hmoves := (Builder.position_of_fill hfill).1.symm.trans hafter
    rw [fill_of_parse hline, hfill]
    cases emitted with
    | none =>
        dsimp only
        rw [Finding.ofStatement_of_ne_finish hs]
        exact ⟨_, _, rfl, Finding.noConfusion, Except.ok.inj hmoves, rfl⟩
    | some placed => exact ⟨_, _, rfl, Finding.noConfusion, Except.ok.inj hmoves, rfl⟩

/-! ### Whole texts -/

/-- The lines of a text after its first one, if this one has code. -/
private theorem cons_of_coded {lines : List SourceLine} {t : Text} {rest : List Text}
    (htexts : lines.map (·.text) = (t :: rest).filter fun t => !(code t).isEmpty)
    (hcode : (code t).isEmpty = false) :
    ∃ l others, lines = l :: others ∧ l.text = t ∧
      others.map (·.text) = rest.filter fun t => !(code t).isEmpty := by
  rw [List.filter_cons_of_pos (by rw [hcode]; rfl)] at htexts
  obtain ⟨l, others, rfl, hl, hothers⟩ := List.map_eq_cons_iff.mp htexts
  exact ⟨l, others, rfl, hl, hothers⟩

/-- The first pass defines the labels that the lines say. -/
theorem walk_layOut_of_collect {texts : List Text} {lines : List SourceLine}
    {labels : List (Text × Nat)}
    (htexts : lines.map (·.text) = texts.filter fun t => !(code t).isEmpty)
    (h : a.builder.position.collect Position.label? texts = some (labels, q)) :
    ∃ vs a', Walk layOut lines a vs [] a' ∧ ∀ name, a'.builder.symbols.address? name =
      (labels.reverse.lookup name).or (a.builder.symbols.address? name) := by
  -- on the texts, from any place, because each line moves the pass
  induction texts generalizing lines a labels with
  | nil =>
      obtain rfl := List.map_eq_nil_iff.mp htexts
      cases h
      exact ⟨[], a, .nil a, fun _ => rfl⟩
  | cons t rest ih =>
      obtain ⟨here, s, others, hvisit, hrest, rfl⟩ := Position.collect_cons_eq_some_iff.mp h
      cases hcode : (code t).isEmpty with
      | true =>
          rw [List.filter_cons_of_neg (by rw [hcode]; decide)] at htexts
          obtain ⟨-, rfl, rfl⟩ | ⟨hcoded, -⟩ := Position.visit_eq_some_iff.mp hvisit
          · exact ih htexts hrest
          · rw [hcode] at hcoded
            cases hcoded
      | false =>
          obtain ⟨l, left, rfl, rfl, hleft⟩ := cons_of_coded htexts hcode
          obtain ⟨a₁, hfirst, hposition, hsymbols⟩ := layOut_of_visit hcode hvisit
          obtain ⟨vs, a', hwalk, hall⟩ := ih (a := a₁) hleft (hposition ▸ hrest)
          refine ⟨_, a', .nothing hfirst hwalk, fun name => ?_⟩
          rw [hall, hsymbols, List.reverse_append, List.lookup_append, Option.or_assoc]

/-- The second pass lists the words that the lines say. -/
theorem walk_fill_of_collect {texts : List Text} {lines : List SourceLine} {symbols : SymbolTable}
    {words : List (Word × Word)}
    (htexts : lines.map (·.text) = texts.filter fun t => !(code t).isEmpty)
    (hsymbols : ∀ name, a.builder.symbols.address? name = symbols.address? name)
    (h : a.builder.position.collect (Position.word? symbols) texts = some (words, q)) :
    ∃ vs entries a', Walk fill lines a vs entries a' ∧
      entries.map (fun e => (e.address, e.word)) = words := by
  induction texts generalizing lines a words with
  | nil =>
      obtain rfl := List.map_eq_nil_iff.mp htexts
      cases h
      exact ⟨[], [], a, .nil a, rfl⟩
  | cons t rest ih =>
      obtain ⟨here, s, others, hvisit, hrest, rfl⟩ := Position.collect_cons_eq_some_iff.mp h
      cases hcode : (code t).isEmpty with
      | true =>
          rw [List.filter_cons_of_neg (by rw [hcode]; decide)] at htexts
          obtain ⟨-, rfl, rfl⟩ | ⟨hcoded, -⟩ := Position.visit_eq_some_iff.mp hvisit
          · exact ih htexts hsymbols hrest
          · rw [hcode] at hcoded
            cases hcoded
      | false =>
          obtain ⟨l, left, rfl, rfl, hleft⟩ := cons_of_coded htexts hcode
          obtain ⟨finding, a₁, hfirst, hfinding, hposition, rfl⟩ :=
            fill_of_visit hsymbols hcode hvisit
          obtain ⟨-, -, -, hkept, -⟩ := of_fill hfirst
          obtain ⟨vs, entries, a', hwalk, rfl⟩ :=
            ih (a := a₁) hleft (hkept ▸ hsymbols) (hposition ▸ hrest)
          cases finding with
          | finish => exact absurd rfl hfinding
          | nothing => exact ⟨_, entries, a', .nothing hfirst hwalk, rfl⟩
          | entry e => exact ⟨_, e :: entries, a', .entry hfirst hwalk, rfl⟩

end Pass

/-! ## A whole assembly -/

/-- **An assembly yields what the lines say.** If the lines of a source say labels, and say words if
these labels are the symbols, then every assembler makes a program of the source. Its symbols are
the labels, its listing is the words, and its image is what the words make of a cleared memory. -/
theorem assemble_of_collect {source : Text} {labels : List (Text × Nat)}
    {words : List (Word × Word)} {p q : Position}
    (hlabels : Position.collect Position.label? {} source.lines = some (labels, p))
    (hwords :
      Position.collect (Position.word? (.ofLabels labels)) {} source.lines = some (words, q))
    (a : Assembler) :
    ∃ program a', Assembler.assemble source a = .ok program a' ∧
      (∀ name, program.symbols.address? name = labels.reverse.lookup name) ∧
      program.listing.map (fun e => (e.address, e.word)) = words ∧
      program.image = words.foldl (fun m placed => m.set placed.1 placed.2) .cleared := by
  have htexts := SourceLine.texts_ofSource source
  obtain ⟨vs, a₁, hfirst, hsymbols⟩ := Pass.walk_layOut_of_collect htexts
    (a := a.begin (SourceLine.ofSource source)) hlabels
  have hturn (name : Text) : a₁.turn.builder.symbols.address? name =
      (SymbolTable.ofLabels labels).address? name := by
    rw [SymbolTable.address?_ofLabels]
    exact (hsymbols name).trans Option.or_none
  obtain ⟨vs', listing, a₂, hsecond, hlisting⟩ :=
    Pass.walk_fill_of_collect htexts (a := a₁.turn) hturn hwords
  refine ⟨_, _, Assembler.assemble_eq_ok_iff.mpr
    ⟨[], a₁, listing, a₂, hfirst.eq_ok, hsecond.eq_ok, rfl, rfl⟩, fun name => ?_, hlisting,
    ?_⟩
  · show a₂.builder.symbols.address? name = _
    rw [hsecond.symbols_fill, hturn, SymbolTable.address?_ofLabels]
  · show a₂.builder.image = _
    rw [hsecond.image_fill, hlisting]
    rfl

/-- A machine with a program in it has the image of the program for its memory, and is the machine
that it was otherwise. -/
theorem Program.install_eq (program : Program) (m : Machine) :
    program.install m = { m with memory := program.image } := by
  have hmemory : Memory.ofList program.words = program.image := by
    apply Memory.ext_get
    intro b
    rw [Memory.get_ofList, getElem?_words, Option.getD_some]
  rw [install, hmemory]

theorem Program.word_eq_read (program : Program) {address : Nat} (h : address ≤ 0o7777) :
    program.word address = program.image.read address := by
  have hword := program.getElem?_words (Word.ofNat address)
  rw [Word.toNat_ofNat_of_lt (Nat.lt_succ_of_le h)] at hword
  rw [word, hword]
  rfl

end TwelveBit.Assembly
