import TwelveBit.Proofs.Diagnosis
import TwelveBit.Proofs.RenamedLine

/-!
# Assembling renamed sources

A renaming that takes no two names to the same commutes with looking up a name, with defining it
again, and with encoding an item (`Item.encode_mapNames`), so a builder does with renamed statements
what it did with the statements (`Builder.mapNames`). `Renaming.Respects` says so of a visit by a
pass, whose assembler then differs in the names of its symbols only, and `Renaming.Respects.walk` of
a whole walk. Both passes respect every renaming, hence a renamed source gives the renamed program
(`Renaming.assemble_source`). `assemble_renamed` is what this says about labels and symbols.
-/

namespace TwelveBit.Assembly

variable {f : Text → Text}

/-! ## Symbols -/

def Redefinition.mapNames (f : Text → Text) (r : Redefinition) : Redefinition :=
  { r with name := f r.name }

namespace SymbolTable

/-- The same symbols under other names. -/
def mapNames (f : Text → Text) (t : SymbolTable) : SymbolTable where
  entries := t.entries.map fun (name, s) => (f name, s)

theorem mapNames_congr {g : Text → Text} {t : SymbolTable}
    (h : ∀ entry ∈ t.entries, f entry.1 = g entry.1) : t.mapNames f = t.mapNames g := by
  unfold mapNames
  congr 1
  exact List.map_congr_left fun entry hentry => Prod.ext (h entry hentry) rfl

/-- A name that is renamed stands for what it stood for, if no other name becomes the same. -/
theorem get?_mapNames {t : SymbolTable} {name : Text}
    (h : ∀ entry ∈ t.entries, f entry.1 = f name → entry.1 = name) :
    (t.mapNames f).get? (f name) = t.get? name := by
  obtain ⟨entries⟩ := t
  unfold get? mapNames
  induction entries with
  | nil => rfl
  | cons entry rest ih =>
      obtain ⟨key, s⟩ := entry
      obtain ⟨hkey, hrest⟩ := List.forall_mem_cons.mp h
      have hsame : (f name == f key) = (name == key) := by
        rw [Bool.eq_iff_iff, beq_iff_eq, beq_iff_eq]
        exact ⟨fun heq => (hkey heq.symm).symm, congrArg f⟩
      rw [List.map_cons, List.lookup_cons, List.lookup_cons, hsame]
      cases name == key with
      | true => rfl
      | false => exact ih hrest

variable (hf : Function.Injective f)

include hf

theorem address?_mapNames (t : SymbolTable) (name : Text) :
    (t.mapNames f).address? (f name) = t.address? name := by
  unfold address?
  rw [get?_mapNames fun entry _ h => hf h]

theorem insert_mapNames (t : SymbolTable) (name : Text) (s : Symbol) :
    (t.mapNames f).insert (f name) s = (t.insert name s).mapNames f := by
  have hkeep (entry : Text × Symbol) : (f entry.1 != f name) = (entry.1 != name) := by
    rw [Bool.eq_iff_iff, bne_iff_ne, bne_iff_ne, hf.ne_iff]
  unfold insert mapNames
  simp only [List.map_cons, List.filter_map]
  congr 3
  exact List.filter_congr fun entry _ => hkeep entry

theorem redefinition?_mapNames (t : SymbolTable) (name : Text) (s : Symbol) :
    (t.mapNames f).redefinition? (f name) s =
      (t.redefinition? name s).map (Redefinition.mapNames f) := by
  unfold redefinition?
  rw [get?_mapNames fun entry _ h => hf h, Option.map_map]
  rfl

end SymbolTable

/-! ## Words -/

section Words

variable {location : Nat} {symbols : SymbolTable} {radix : Radix} {w : Word}
  (hf : Function.Injective f)

include hf

theorem Term.evaluate_mapNames {t : Term} {value : Wide}
    (h : t.evaluate location symbols radix = .ok value) :
    (t.mapNames f).evaluate location (symbols.mapNames f) radix = .ok value := by
  cases t with
  | symbol name =>
      simp only [evaluate] at h
      simp only [mapNames, evaluate, SymbolTable.address?_mapNames hf]
      cases haddress : symbols.address? name with
      | none =>
          rw [haddress] at h
          cases h
      | some address =>
          rw [haddress] at h
          exact h
  | here => exact h
  | literal digits => exact h

theorem Expression.evaluate_mapNames {e : Expression}
    (h : e.evaluate location symbols radix = .ok w) :
    (e.mapNames f).evaluate location (symbols.mapNames f) radix = .ok w := by
  obtain ⟨negated, first, second⟩ := e
  rw [evaluate_eq] at h ⊢
  cases hfirst : first.evaluate location symbols radix with
  | error error =>
      simp only [hfirst] at h
      cases h
  | ok value =>
      simp only [hfirst] at h
      simp only [mapNames, Term.evaluate_mapNames hf hfirst]
      rcases second with _ | ⟨operator, term⟩
      · exact h
      · cases hsecond : term.evaluate location symbols radix with
        | error error =>
            simp only [hsecond] at h
            cases h
        | ok value' =>
            simp only [hsecond] at h
            simp only [Option.map_some, Term.evaluate_mapNames hf hsecond]
            exact h

/-- An item with its names renamed is the same word, where the names of the symbols are. -/
theorem Item.encode_mapNames {item : Item} (h : item.encode location symbols radix = .ok w) :
    (item.mapNames f).encode location (symbols.mapNames f) radix = .ok w := by
  cases item with
  | reference opcode indirect pageZero operand =>
      simp only [encode, bind, Except.bind] at h ⊢
      cases hoperand : operand.evaluate location symbols radix with
      | error error =>
          rw [hoperand] at h
          cases h
      | ok address =>
          rw [hoperand] at h
          simp only [mapNames, Expression.evaluate_mapNames hf hoperand]
          exact h
  | constant value =>
      simp only [encode, encodeConstant] at h
      cases hvalue : value.evaluate location symbols radix with
      | error error =>
          rw [hvalue] at h
          cases error <;> cases h
      | ok w' =>
          rw [hvalue] at h
          simp only [mapNames, encode, encodeConstant, Expression.evaluate_mapNames hf hvalue]
          exact h
  | operate word => exact h
  | inputOutput word => exact h
  | reserve => exact h

end Words

/-! ## Builders -/

namespace Builder

open Building (mapResult)

def mapNames (f : Text → Text) (b : Builder) : Builder :=
  { b with symbols := b.symbols.mapNames f }

variable {b b' : Builder} {s : Statement}

theorem place_mapNames (b : Builder) (s : Statement) :
    place (s.mapNames f) (b.mapNames f) = mapResult id (mapNames f) (place s b) := by
  cases s with
  | origin digits => exact b.place_mapSymbols (.origin digits)
  | _ => rfl

theorem makeRoom_mapNames (b : Builder) (s : Statement) :
    makeRoom (s.mapNames f) (b.mapNames f) = mapResult id (mapNames f) (makeRoom s b) := by
  cases s with
  | emit item => exact b.makeRoom_mapSymbols (.emit item)
  | origin digits => exact b.makeRoom_mapSymbols (.origin digits)
  | _ => rfl

variable (hf : Function.Injective f)

include hf

theorem label_mapNames (b : Builder) (name : Option Text) (line : Nat) :
    label (name.map f) line (b.mapNames f) =
      mapResult (Option.map (Redefinition.mapNames f)) (mapNames f) (label name line b) := by
  cases name with
  | none => rfl
  | some name =>
      have hlocation : (b.mapNames f).location = b.location := rfl
      simp only [Option.map_some, label, define_eq, hlocation]
      cases b.location with
      | error e => rfl
      | ok address =>
          simp only [mapNames, SymbolTable.insert_mapNames hf,
            SymbolTable.redefinition?_mapNames hf]
          rfl

theorem fill_mapNames {emitted : Option (Word × Word)} (h : fill s b = .ok emitted b') :
    fill (s.mapNames f) (b.mapNames f) = .ok emitted (b'.mapNames f) := by
  cases s with
  | emit item =>
      obtain ⟨hroom, word, hword, rfl, rfl⟩ := fill_emit_eq_ok_iff.mp h
      exact fill_emit_eq_ok_iff.mpr ⟨hroom, word, Item.encode_mapNames hf hword, rfl, rfl⟩
  | origin digits =>
      obtain ⟨rfl, hplace⟩ := place_of_fill rfl h
      have hplace' : place (.origin digits) (b.mapNames f) = .ok () (b'.mapNames f) := by
        refine (b.place_mapNames (f := f) (.origin digits)).trans ?_
        rw [hplace]
        rfl
      show fill (.origin digits) (b.mapNames f) = _
      rw [fill_eq_of_not_emits rfl, hplace']
      rfl
  | radix radix =>
      cases h
      rfl
  | finish =>
      cases h
      rfl

end Builder

/-! ## Passes -/

namespace Renaming

variable (ρ : Renaming)

/-- An entry of a listing with its line renamed. -/
def entry (e : Entry) : Entry := { e with line := ρ.sourceLine e.line }

def finding : Pass.Finding → Pass.Finding
  | .entry e => .entry (ρ.entry e)
  | found => found

/-- A program with its free names renamed, in its symbols and in the lines of its listing. -/
def program (p : Program) : Program where
  image := p.image
  symbols := p.symbols.mapNames ρ.token
  listing := p.listing.map ρ.entry

/-- An assembler that has built what another has built, from renamed lines. -/
def Relates (a b : Assembler) : Prop := b.builder = a.builder.mapNames ρ.token

/-- A pass finds on a renamed line what it finds on the line. -/
def Respects (visit : SourceLine → Pass Pass.Finding) : Prop :=
  ∀ {l a found a'}, visit l a = .ok found a' → ∀ {b}, ρ.Relates a b →
    ∃ b', visit (ρ.sourceLine l) b = .ok (ρ.finding found) b' ∧ ρ.Relates a' b'

variable {ρ} {visit : SourceLine → Pass Pass.Finding} {lines : List SourceLine}
  {a a' b : Assembler} {vs : List Visit} {entries : List Entry}

theorem finding_ofStatement (s : Statement) :
    ρ.finding (.ofStatement s) = .ofStatement (s.mapNames ρ.token) := by
  cases s <;> rfl

theorem respects_layOut : ρ.Respects Pass.layOut := by
  intro l a found a' h b hb
  cases hline : l.parse with
  | error e =>
      rw [Pass.layOut_of_error hline] at h
      cases h
  | ok line =>
      have hline' := ρ.parse_sourceLine_of_ok hline
      rw [Pass.layOut_of_parse hline] at h
      rw [Pass.layOut_of_parse hline', hb]
      have hlabel := a.builder.label_mapNames ρ.token_injective line.label l.number
      cases hdefined : Builder.label line.label l.number a.builder with
      | error e b₁ =>
          rw [hdefined] at h
          cases h
      | ok r b₁ =>
          rw [hdefined] at h hlabel
          have hroom := b₁.makeRoom_mapNames (f := ρ.token) line.statement
          cases hfilled : Builder.makeRoom line.statement b₁ with
          | error e b₂ =>
              simp only [hfilled] at h
              cases h
          | ok _ b₂ =>
              rw [hfilled] at hroom
              simp only [hfilled] at h
              simp only [Line.mapNames, sourceLine, hlabel, Building.mapResult, hroom]
              cases h
              refine ⟨_, congrArg (EStateM.Result.ok · _) (finding_ofStatement _).symm, ?_⟩
              rw [Relates, Assembler.builder_noteRedefinition, Assembler.builder_noteRedefinition]

theorem respects_fill : ρ.Respects Pass.fill := by
  intro l a found a' h b hb
  cases hline : l.parse with
  | error e =>
      rw [Pass.fill_of_error hline] at h
      cases h
  | ok line =>
      have hline' := ρ.parse_sourceLine_of_ok hline
      rw [Pass.fill_of_parse hline] at h
      cases hfill : Builder.fill line.statement a.builder with
      | error e b₁ =>
          rw [hfill] at h
          cases h
      | ok emitted b₁ =>
          have hfill' := Builder.fill_mapNames ρ.token_injective hfill
          rw [← hb] at hfill'
          rw [Pass.fill_of_parse hline']
          simp only [Line.mapNames, hfill']
          rw [hfill] at h
          rcases emitted with _ | ⟨address, word⟩
          · cases h
            exact ⟨_, congrArg (EStateM.Result.ok · _) (finding_ofStatement _).symm, rfl⟩
          · cases h
            exact ⟨_, rfl, rfl⟩

/-- A pass that respects a renaming on every line does so on a whole walk. -/
theorem Respects.walk (hvisit : ρ.Respects visit) (h : Pass.Walk visit lines a vs entries a')
    (hb : ρ.Relates a b) :
    ∃ b', Pass.walk visit (lines.map ρ.sourceLine) b = .ok (entries.map ρ.entry) b' ∧
      ρ.Relates a' b' := by
  -- on the visits, for any assembler that relates to the one before them
  induction h generalizing b with
  | nil a => exact ⟨b, rfl, hb⟩
  | finish here =>
      obtain ⟨b', here', hb'⟩ := hvisit here hb
      refine ⟨b', ?_, hb'⟩
      rw [List.map_cons, Pass.walk_cons, here']
      rfl
  | nothing here next ih =>
      obtain ⟨b₁, here', hb₁⟩ := hvisit here hb
      obtain ⟨b', next', hb'⟩ := ih hb₁
      refine ⟨b', ?_, hb'⟩
      rw [List.map_cons, Pass.walk_cons, here']
      exact next'
  | entry here next ih =>
      obtain ⟨b₁, here', hb₁⟩ := hvisit here hb
      obtain ⟨b', next', hb'⟩ := ih hb₁
      refine ⟨b', ?_, hb'⟩
      rw [List.map_cons, Pass.walk_cons, here']
      dsimp only [finding]
      rw [next']
      rfl

/-! ## A whole source -/

/-- **A renamed source is the renamed program.** -/
theorem assemble_source {source : Text} {p : Program} (ρ : Renaming)
    (h : Assembler.assemble source a = .ok p a') (b : Assembler) :
    ∃ b', Assembler.assemble (ρ.source source) b = .ok (ρ.program p) b' := by
  obtain ⟨entries, a₁, listing, a₂, hfirst, hsecond, rfl, rfl⟩ :=
    Assembler.assemble_eq_ok_iff.mp h
  have hlines := ρ.ofSource_source source
  have hbegin : ρ.Relates (a.begin (SourceLine.ofSource source))
      (b.begin (SourceLine.ofSource (ρ.source source))) := rfl
  obtain ⟨b₁, hfirst', hmiddle⟩ := respects_layOut.walk (Pass.walk_of_eq_ok hfirst) hbegin
  have hturn : ρ.Relates a₁.turn b₁.turn := congrArg Builder.restart hmiddle
  obtain ⟨b₂, hsecond', hend⟩ := respects_fill.walk (Pass.walk_of_eq_ok hsecond) hturn
  rw [← hlines] at hfirst' hsecond'
  refine ⟨_, Assembler.assemble_eq_ok_iff.mpr ⟨_, b₁, _, b₂, hfirst', hsecond', ?_, rfl⟩⟩
  unfold Relates at hend
  unfold Assembler.program
  rw [hend]
  rfl

end Renaming

/-- The symbols after a course are the ones before it and the labels of its lines. -/
theorem SymbolTable.mem_foldl_label {course : List (SourceLine × Position)}
    {symbols : SymbolTable} {entry : Text × Symbol}
    (h : entry ∈ (course.foldl .label symbols).entries) :
    entry ∈ symbols.entries ∨ ∃ v ∈ course, v.1.label? = some entry.1 := by
  induction course generalizing symbols with
  | nil => exact .inl h
  | cons v rest ih =>
      rcases ih h with hfirst | ⟨u, hu, hlabel⟩
      · unfold label at hfirst
        split at hfirst
        · exact .inl hfirst
        · next name hname =>
            rcases List.mem_cons.mp hfirst with rfl | hkept
            · exact .inr ⟨v, List.mem_cons_self, hname⟩
            · exact .inl (List.mem_filter.mp hkept).1
      · exact .inr ⟨u, List.mem_cons_of_mem _ hu, hlabel⟩

namespace Assembler

variable {source : Text} {p : Program} {a a' : Assembler}

/-- Every symbol of a program is the label of a line. -/
theorem exists_label_of_mem (h : assemble source a = .ok p a') {entry : Text × Symbol}
    (hentry : entry ∈ p.symbols.entries) :
    ∃ l ∈ SourceLine.upToEnd (SourceLine.ofSource source), l.label? = some entry.1 := by
  obtain ⟨entries, a₁, a₂, hfirst, hsecond, hsymbols⟩ := walks_of_assemble h
  have hturn : a₁.turn.builder.symbols = a₁.builder.symbols := rfl
  rw [hsymbols, hsecond.symbols_fill, hturn, hfirst.symbols_layOut] at hentry
  rcases SymbolTable.mem_foldl_label hentry with hnone | ⟨v, hv, hlabel⟩
  · cases hnone
  · obtain ⟨u, hu, rfl⟩ := List.mem_map.mp hv
    refine ⟨u.line, ?_, hlabel⟩
    rw [← (hfirst.course Pass.follows_layOut).1]
    exact List.mem_map_of_mem hu

/-- The symbols of a program are free if all names in its source are. -/
theorem isFree_of_mem (h : assemble source a = .ok p a')
    (hfree : ∀ l ∈ SourceLine.upToEnd (SourceLine.ofSource source), ∀ name ∈ l.names,
      isFree name = true) {entry : Text × Symbol} (hentry : entry ∈ p.symbols.entries) :
    isFree entry.1 = true := by
  obtain ⟨l, hl, hlabel⟩ := exists_label_of_mem h hentry
  apply hfree l hl
  unfold SourceLine.label? at hlabel
  unfold SourceLine.names
  cases hline : l.parse with
  | error e =>
      rw [hline] at hlabel
      cases hlabel
  | ok line =>
      rw [hline] at hlabel
      dsimp only at hlabel ⊢
      rw [Line.names, hlabel]
      exact List.mem_cons_self

/-- **Names carry no meaning.** Take any source that assembles, all of whose labels and symbols in
use are free names, and any renaming. The renamed source has the same lines, each of which reads as
the line did with its label and its symbols renamed. It assembles as well, by any assembler, to the
same words and with the same addresses, words and line numbers listed. Its symbols are the old ones
renamed, so every name stands under its new name for what it stood for. -/
theorem assemble_renamed (ρ : Renaming) (h : assemble source a = .ok p a')
    (hfree : ∀ l ∈ SourceLine.upToEnd (SourceLine.ofSource source), ∀ name ∈ l.names,
      isFree name = true) :
    SourceLine.ofSource (ρ.source source) = (SourceLine.ofSource source).map ρ.sourceLine ∧
      (∀ l ∈ SourceLine.upToEnd (SourceLine.ofSource source),
        (ρ.sourceLine l).parse = l.parse.map (Line.mapNames ρ.rename)) ∧
      ∀ b, ∃ p' b', assemble (ρ.source source) b = .ok p' b' ∧
        p'.words = p.words ∧
        p'.listing.map (fun e => (e.address, e.word, e.line.number)) =
          p.listing.map (fun e => (e.address, e.word, e.line.number)) ∧
        p'.symbols = p.symbols.mapNames ρ.rename ∧
        ∀ name, isName name = true →
          p'.symbols.get? (ρ.rename name) = p.symbols.get? name := by
  refine ⟨ρ.ofSource_source source, ?_, ?_⟩
  · intro l hl
    have hnames := hfree l hl
    unfold SourceLine.names at hnames
    rw [ρ.parse_sourceLine]
    cases hline : l.parse with
    | error e => rfl
    | ok line =>
        rw [hline] at hnames
        exact congrArg Except.ok
          (Line.mapNames_congr fun name hname => ρ.token_of_isFree (hnames name hname))
  · intro b
    obtain ⟨b', h'⟩ := ρ.assemble_source h b
    have hsymbols : (ρ.program p).symbols = p.symbols.mapNames ρ.rename :=
      SymbolTable.mapNames_congr fun entry hentry =>
        ρ.token_of_isFree (isFree_of_mem h hfree hentry)
    refine ⟨ρ.program p, b', h', rfl, ?_, hsymbols, ?_⟩
    · simp only [Renaming.program, List.map_map]
      rfl
    · intro name hname
      -- also if the name is reserved: it is no symbol, and no symbol takes its new name
      rw [hsymbols]
      apply SymbolTable.get?_mapNames
      intro entry hentry heq
      exact ρ.injective (isName_of_isFree (isFree_of_mem h hfree hentry)) hname heq

/-- Two names change places that are defined behind their uses, one of them twice, and that stand in
a comment too. -/
theorem assemble_renamed_of_swap :
    ∃ (ρ : Renaming) (source : Text) (p : Program) (a' : Assembler), assemble source {} = .ok p a' ∧
      ρ.source source = "TAD I B / A\nA, A-B\nB,\nB, A\n$\n".toList ∧
      ∃ p' b', assemble "TAD I B / A\nA, A-B\nB,\nB, A\n$\n".toList {} = .ok p' b' ∧
        p'.words = p.words ∧ p'.symbols.get? "B" = some ⟨3, 4⟩ := by
  let ρ := Renaming.swap "A" "B" (by decide) (by decide)
  let source : Text := "TAD I A / A\nB, B-A\nA,\nA, B\n$\n".toList
  have hsource : ρ.source source = "TAD I B / A\nA, A-B\nB,\nB, A\n$\n".toList := by decide +kernel
  have hfree : ∀ l ∈ SourceLine.upToEnd (SourceLine.ofSource source), ∀ name ∈ l.names,
      isFree name = true := by decide +kernel
  have hresult : ((assemble source).run' {}).map (·.symbols.get? "A") = some (some ⟨3, 4⟩) := by
    decide +kernel
  obtain ⟨p, a', h, hsymbol⟩ := Pass.eq_ok_of_run' hresult
  obtain ⟨-, -, hrenamed⟩ := assemble_renamed ρ h hfree
  obtain ⟨p', b', h', hwords, -, -, hsymbols⟩ := hrenamed {}
  refine ⟨ρ, source, p, a', h, hsource, p', b', hsource ▸ h', hwords, ?_⟩
  have hname : ρ.rename "A" = "B".toList := by decide
  rw [← hname, hsymbols _ (by decide)]
  exact hsymbol

end Assembler

end TwelveBit.Assembly
