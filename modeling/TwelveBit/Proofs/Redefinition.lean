import TwelveBit.Proofs.PassAgreement
import TwelveBit.Proofs.Reuse
import TwelveBit.Proofs.SymbolList

/-!
# Names that are defined again

The first pass defines names one after another (`Assembler.definitions`), and a name stands for its
latest definition. `redefinitions` says which definitions are of a name that one before them
defines, each with the latest such. The journal has a warning for each of these and no other.

`Assembler.Records` is what the first pass keeps, whether a line fails or not: the table has the
latest definition of every name, and the journal the redefinitions up to here. A line may define a
name and fail afterwards, so what a line leaves behind is asked of its `outcome`.
-/

namespace TwelveBit.Assembly

/-! ## Definitions in order -/

/-- What a name stands for after these definitions. -/
def latest? (definitions : List (Text × Symbol)) (name : Text) : Option Symbol :=
  definitions.reverse.lookup name

/-- The definitions of names that are defined before, in order, each with the latest before it. -/
def redefinitions (definitions : List (Text × Symbol)) : List Redefinition :=
  definitions.zipIdx.filterMap fun ((name, now), i) =>
    (latest? (definitions.take i) name).map fun before => { name, now, before }

section

variable {definitions : List (Text × Symbol)}

theorem latest?_concat (definitions : List (Text × Symbol)) (name other : Text) (s : Symbol) :
    latest? (definitions ++ [(name, s)]) other =
      if other = name then some s else latest? definitions other := by
  rw [latest?, List.reverse_append, List.reverse_singleton, List.singleton_append,
    List.lookup_cons]
  by_cases h : other = name
  · rw [if_pos h, beq_iff_eq.mpr h]
  · rw [if_neg h, beq_false_of_ne h]
    rfl

/-- One definition more is one redefinition more if its name has been defined. -/
theorem redefinitions_concat (definitions : List (Text × Symbol)) (name : Text) (now : Symbol) :
    redefinitions (definitions ++ [(name, now)]) =
      redefinitions definitions ++
        ((latest? definitions name).map (Redefinition.mk name now)).toList := by
  rw [redefinitions, List.zipIdx_append, List.filterMap_append]
  refine congrArg₂ List.append (List.filterMap_congr ?_) ?_
  · -- the definitions before one of them are as before
    rintro ⟨⟨other, s⟩, i⟩ hmem
    have hlt : i < definitions.length := List.snd_lt_of_mem_zipIdx hmem
    dsimp only
    rw [List.take_append_of_le_length (Nat.le_of_lt hlt)]
  · rw [List.zipIdx_singleton, Nat.zero_add, List.filterMap_cons]
    dsimp only
    rw [List.take_left' rfl]
    cases latest? definitions name <;> rfl

/-- A name stands for something if it is defined. -/
theorem isSome_latest?_iff {name : Text} :
    (latest? definitions name).isSome = true ↔ name ∈ definitions.map Prod.fst := by
  rw [latest?, isSome_lookup_iff, List.map_reverse, List.mem_reverse]

/-! ## What a line defines -/

namespace Builder

variable {b : Builder} (name : Text) (line : Nat)

theorem label_of_lt (h : b.counter < 4096) :
    label (some name) line b =
      .ok (b.symbols.redefinition? name ⟨b.counter, line⟩)
        { b with symbols := b.symbols.insert name ⟨b.counter, line⟩ } := define_of_lt h name line

theorem label_of_le (h : 4096 ≤ b.counter) : label (some name) line b = .error .overflow b :=
  define_of_le h name line

end Builder

/-- What a visit of the first pass defines: the label of the line, if it has one, unless there is no
place for it. -/
def Visit.definition? (v : Visit) : Option (Text × Symbol) :=
  v.line.label?.bind fun name =>
    if v.counter < 4096 then some (name, { address := v.counter, line := v.line.number })
    else none

namespace Assembler

/-! ## What the first pass keeps -/

/-- The assembler has been through these definitions, and its journal was this before them. -/
structure Records (a : Assembler) (journal : Tape Record) (definitions : List (Text × Symbol)) :
    Prop where
  symbols : ∀ name, a.builder.symbols.get? name = latest? definitions name
  /-- No name occurs twice in the table. -/
  nodup : (a.builder.symbols.entries.map (·.1)).Nodup
  noted : a.journal = ((redefinitions definitions).map Record.redefined).foldl .push journal

variable {a a' : Assembler} {journal : Tape Record}

namespace Records

theorem congr (h : a.Records journal definitions)
    (hsymbols : a'.builder.symbols = a.builder.symbols) (hjournal : a'.journal = a.journal) :
    a'.Records journal definitions where
  symbols := by
    rw [hsymbols]
    exact h.symbols
  nodup := by
    rw [hsymbols]
    exact h.nodup
  noted := hjournal.trans h.noted

/-- A definition is noted if it is one of a name that has been defined. -/
theorem define (h : a.Records journal definitions) {name : Text} {s : Symbol}
    (hsymbols : a'.builder.symbols = a.builder.symbols.insert name s)
    (hjournal : a'.journal =
      (a.noteRedefinition (a.builder.symbols.redefinition? name s)).journal) :
    a'.Records journal (definitions ++ [(name, s)]) where
  symbols other := by
    rw [hsymbols, SymbolTable.get?_insert, h.symbols, latest?_concat]
  nodup := by
    rw [hsymbols]
    exact SymbolTable.nodup_insert h.nodup name s
  noted := by
    rw [hjournal, SymbolTable.redefinition?, h.symbols, redefinitions_concat, List.map_append,
      List.foldl_append, ← h.noted]
    cases latest? definitions name <;> rfl

end Records

end Assembler

namespace Pass

open Assembler (outcome)

variable {l : SourceLine} {line : Line} {a : Assembler} {journal : Tape Record}

/-- After the label the symbols and the journal stay as they are, whether the statement fails or
not. -/
theorem outcome_layOut_of_label {r : Option Redefinition} {b : Builder} (hline : l.parse = .ok line)
    (hlabel : Builder.label line.label l.number a.builder = .ok r b) :
    (outcome (layOut l a)).2.builder.symbols = b.symbols ∧
      (outcome (layOut l a)).2.journal = (a.noteRedefinition r).journal := by
  have hjournal (b : Builder) :
      ({ a with builder := b }.noteRedefinition r).journal = (a.noteRedefinition r).journal := by
    cases r <;> rfl
  rw [layOut_of_parse hline, hlabel]
  dsimp only
  cases hroom : Builder.makeRoom line.statement b with
  | error e b' =>
      obtain rfl := Builder.atomic_makeRoom line.statement hroom
      refine ⟨?_, hjournal b'⟩
      exact congrArg Builder.symbols (Assembler.builder_noteRedefinition _ r)
  | ok _ b' =>
      refine ⟨?_, hjournal b'⟩
      rw [← Builder.symbols_of_makeRoom hroom]
      exact congrArg Builder.symbols (Assembler.builder_noteRedefinition _ r)

/-- A visit of the first pass, whatever it answers, adds its definition. -/
theorem records_layOut (h : a.Records journal definitions) (l : SourceLine) :
    (outcome (layOut l a)).2.Records journal
      (definitions ++ (Visit.definition? ⟨l, a⟩).toList) := by
  cases hline : l.parse with
  | error e =>
      rw [layOut_of_error hline, Visit.definition?, SourceLine.label?, hline, Option.bind_none,
        Option.toList_none, List.append_nil]
      exact h
  | ok line =>
      rw [Visit.definition?, SourceLine.label?_of_parse hline]
      cases hname : line.label with
      | none =>
          have hlabel : Builder.label line.label l.number a.builder = .ok none a.builder := by
            rw [hname]
            rfl
          obtain ⟨hsymbols, hjournal⟩ := outcome_layOut_of_label hline hlabel
          rw [Option.bind_none, Option.toList_none, List.append_nil]
          exact h.congr hsymbols hjournal
      | some name =>
          rw [Option.bind_some, Visit.counter]
          rcases Nat.lt_or_ge a.builder.counter 4096 with hlt | hge
          · have hlabel := Builder.label_of_lt name l.number hlt
            rw [← hname] at hlabel
            obtain ⟨hsymbols, hjournal⟩ := outcome_layOut_of_label hline hlabel
            rw [if_pos hlt, Option.toList_some]
            exact h.define hsymbols hjournal
          · -- there is no place for the label, and the pass ends here
            have hlabel := Builder.label_of_le name l.number hge
            rw [← hname] at hlabel
            rw [if_neg (Nat.not_lt.mpr hge), Option.toList_none, List.append_nil,
              layOut_of_parse hline, hlabel]
            exact h

/-! ## A whole walk -/

/-- **What every visit keeps, whatever it answers, a walk keeps.** This may be about the visits up
to here. -/
theorem outcome_walk {visit : SourceLine → Pass Finding} (kept : List Visit → Assembler → Prop)
    (hvisit : ∀ vs a l, kept vs a → kept (vs ++ [⟨l, a⟩]) (outcome (visit l a)).2)
    (lines : List SourceLine) (vs : List Visit) (h : kept vs a) :
    kept (vs ++ visits visit lines a) (outcome (walk visit lines a)).2 := by
  induction lines generalizing vs a with
  | nil =>
      rw [visits, List.append_nil]
      exact h
  | cons l rest ih =>
      have here := hvisit vs a l h
      rw [walk_cons, visits]
      cases hl : visit l a with
      | error e a₁ =>
          rw [hl] at here
          exact here
      | ok finding a₁ =>
          rw [hl] at here
          have next : kept (vs ++ ⟨l, a⟩ :: visits visit rest a₁)
              (outcome (walk visit rest a₁)).2 := by
            rw [List.append_cons]
            exact ih _ here
          cases finding with
          | finish => exact here
          | nothing => exact next
          | entry entry =>
              dsimp only
              cases hrest : walk visit rest a₁ <;> rw [hrest] at next <;> exact next

/-- The first pass, wherever it ends, adds the definitions of its visits. -/
theorem records_walk (h : a.Records journal []) (lines : List SourceLine) :
    (outcome (walk layOut lines a)).2.Records journal
      ((visits layOut lines a).filterMap Visit.definition?) := by
  refine outcome_walk (fun vs a => a.Records journal (vs.filterMap Visit.definition?)) ?_ lines [] h
  intro vs a l h
  rw [List.filterMap_append]
  have hdefinition : [⟨l, a⟩].filterMap Visit.definition? = (Visit.definition? ⟨l, a⟩).toList := by
    rw [List.filterMap_cons]
    cases Visit.definition? ⟨l, a⟩ <;> rfl
  rw [hdefinition]
  exact records_layOut h l

/-- **The second pass notes nothing**, wherever it ends. -/
theorem journal_walk_fill (lines : List SourceLine) (a : Assembler) :
    (outcome (walk fill lines a)).2.journal = a.journal := by
  refine outcome_walk (fun _ b => b.journal = a.journal) ?_ lines [] rfl
  intro vs b l h
  rw [← h]
  cases hline : l.parse with
  | error e =>
      rw [fill_of_error hline]
      rfl
  | ok line =>
      rw [fill_of_parse hline]
      rcases Builder.fill line.statement b.builder with ⟨_ | ⟨address, word⟩, b'⟩ | ⟨e, b'⟩ <;> rfl

end Pass

end

/-! ## A whole assembly -/

/-- Of what an assembly notes, the redefinitions are the warnings. -/
theorem Record.filter_warn (lines : Nat) (rs : List Redefinition) {stages : List Record}
    (hstages : ∀ stage ∈ stages, stage.level = .debug) :
    (.laying lines :: rs.map Record.redefined ++ stages).filter (fun r => r.level = .warn) =
      rs.map Record.redefined := by
  have hnone : stages.filter (fun r => r.level = .warn) = [] := by
    refine List.filter_eq_nil_iff.mpr fun stage hstage => ?_
    rw [hstages stage hstage]
    decide
  have hall : (rs.map Record.redefined).filter (fun r => r.level = .warn) =
      rs.map Record.redefined := by
    refine List.filter_eq_self.mpr fun record hrecord => ?_
    obtain ⟨r, -, rfl⟩ := List.mem_map.mp hrecord
    rfl
  rw [List.filter_append, hnone, List.append_nil]
  exact hall

namespace Assembler

open Pass (records_walk journal_walk_fill)

variable {source : Text} {a a' : Assembler} {p : Program}

/-- The definitions that the first pass of an assembly comes to, in order. -/
def definitions (source : Text) (a : Assembler) : List (Text × Symbol) :=
  (firstVisits source a).filterMap Visit.definition?

/-- Before its first line an assembly has been through no definition. -/
theorem records_begin (a : Assembler) (lines : List SourceLine) :
    (a.begin lines).Records (a.journal.push (.laying lines.length)) [] where
  symbols _ := rfl
  nodup := List.nodup_nil
  noted := rfl

/-- The first pass of an assembly, wherever it ends. -/
theorem records_firstPass (source : Text) (a : Assembler) :
    let lines := SourceLine.ofSource source
    (outcome (Pass.walk Pass.layOut lines (a.begin lines))).2.Records
      (a.journal.push (.laying lines.length)) (definitions source a) :=
  records_walk (a.records_begin _) _

/-- What an assembly notes, wherever it ends: that it begins, the redefinitions, and which of its
stages it has come through. -/
theorem journal_assemble (source : Text) (a : Assembler) :
    ∃ (lines : Nat) (stages : List Record), (∀ stage ∈ stages, stage.level = .debug) ∧
      (outcome (assemble source a)).2.journal =
        (.laying lines :: (redefinitions (definitions source a)).map Record.redefined ++
          stages).foldl .push a.journal := by
  let lines := SourceLine.ofSource source
  have hfirst : (outcome (Pass.walk Pass.layOut lines (a.begin lines))).2.journal =
      (.laying lines.length :: (redefinitions (definitions source a)).map Record.redefined).foldl
        .push a.journal := (records_firstPass source a).noted
  refine ⟨lines.length, ?_⟩
  rw [assemble_eq]
  cases hlayOut : Pass.walk Pass.layOut lines (a.begin lines) with
  | error e a₁ =>
      rw [hlayOut] at hfirst
      refine ⟨[], List.forall_mem_nil _, ?_⟩
      rw [List.append_nil]
      exact hfirst
  | ok entries a₁ =>
      rw [hlayOut] at hfirst
      change a₁.journal = _ at hfirst
      have hsecond := journal_walk_fill lines a₁.turn
      dsimp only
      cases hfill : Pass.walk Pass.fill lines a₁.turn with
      | error e a₂ =>
          rw [hfill] at hsecond
          refine ⟨[.laidOut a₁.builder.symbols.size], List.forall_mem_singleton.mpr rfl, ?_⟩
          rw [List.foldl_append, ← hfirst]
          exact hsecond
      | ok listing a₂ =>
          rw [hfill] at hsecond
          refine ⟨[.laidOut a₁.builder.symbols.size, .emitted listing.length],
            List.forall_mem_cons.mpr ⟨rfl, List.forall_mem_singleton.mpr rfl⟩, ?_⟩
          rw [List.foldl_append, ← hfirst]
          exact congrArg (Tape.push · (.emitted listing.length)) hsecond

/-- The table of a program has the latest definition of every name, and no name twice. -/
theorem symbols_of_assemble (h : assemble source a = .ok p a') :
    (∀ name, p.symbols.get? name = latest? (definitions source a) name) ∧
      (p.symbols.entries.map (·.1)).Nodup := by
  obtain ⟨entries, a₁, a₂, hfirst, hsecond, hsymbols⟩ := walks_of_assemble h
  have hrecords := records_firstPass source a
  dsimp only at hrecords
  rw [hfirst.eq_ok] at hrecords
  rw [hsymbols, hsecond.symbols_fill]
  exact ⟨hrecords.symbols, hrecords.nodup⟩

/-- **A name that is defined again is noted once, and listed once.** An assembly, whether it
succeeds or not, adds a warning to its journal for each definition that its first pass comes to and
whose name is defined before, in order. The warning has the new symbol of the name and the latest
one before. The second pass adds nothing. If the assembly succeeds, each name stands for its latest
definition. The list of symbols has each name that is defined exactly once, with the address that it
stands for, and goes up strictly by address and name. It is the same in whatever order the table has
its entries. -/
theorem assemble_redefinitions (source : Text) (a : Assembler) :
    (∃ added : List Record,
      (outcome (assemble source a)).2.journal = added.foldl .push a.journal ∧
      added.filter (fun record => record.level = .warn) =
        (redefinitions (definitions source a)).map Record.redefined) ∧
    (∀ lines b, (outcome (Pass.walk Pass.fill lines b)).2.journal = b.journal) ∧
    ∀ p a', assemble source a = .ok p a' →
      (p.symbolList.map Prod.fst).Nodup ∧
      (∀ name, name ∈ p.symbolList.map Prod.fst ↔
        name ∈ (definitions source a).map Prod.fst) ∧
      (∀ name address, (name, address) ∈ p.symbolList ↔
        p.symbols.address? name = some address) ∧
      (∀ name, p.symbols.address? name =
        (latest? (definitions source a) name).map Symbol.address) ∧
      p.symbolList.Pairwise (fun x y => x.2 < y.2 ∨ x.2 = y.2 ∧ x.1 < y.1) ∧
      ∀ q : Program, q.symbols.entries.Perm p.symbols.entries → q.symbolList = p.symbolList := by
  refine ⟨?_, journal_walk_fill, ?_⟩
  · obtain ⟨lines, stages, hstages, hjournal⟩ := journal_assemble source a
    exact ⟨_, hjournal, Record.filter_warn lines _ hstages⟩
  · intro p a' h
    obtain ⟨hget, hnodup⟩ := symbols_of_assemble h
    have haddress (name : Text) : p.symbols.address? name =
        (latest? (definitions source a) name).map Symbol.address :=
      congrArg (Option.map Symbol.address) (hget name)
    refine ⟨Program.nodup_symbolList hnodup, fun name => ?_, fun name address => ?_, haddress,
      Program.pairwise_symbolList hnodup, fun q => Program.symbolList_eq_of_perm⟩
    · rw [Program.mem_names_symbolList, hget, isSome_latest?_iff]
    · exact Program.mem_symbolList hnodup

/-- A name is defined three times, twice at the same address. Two names of one address are listed by
name. Another source defines a name again on a line that fails. -/
theorem assemble_redefinitions_of_a_name :
    let source : Text := "A, 1\nB, 2\n*0\nA, 3\nC,\nA, 5\n"
    let failing : Text := "A, 1\nA, *9\nA, 1\n"
    let warnings (journal : Tape Record) : List Text :=
      (journal.toList.filter fun record => record.level = .warn).map Record.message
    (∃ p a', assemble source { journal := .blank } = .ok p a' ∧
      warnings a'.journal =
        ["line 4: A redefined as 0000 (was 0000 at line 1)".toList,
          "line 6: A redefined as 0002 (was 0000 at line 4)".toList] ∧
      p.symbolList = [("B".toList, 1), ("C".toList, 1), ("A".toList, 2)] ∧
      p.symbols.address? "A" = some 2) ∧
    (outcome (assemble failing { journal := .blank })).1.isOk = false ∧
    warnings (outcome (assemble failing { journal := .blank })).2.journal =
      ["line 2: A redefined as 0001 (was 0000 at line 1)".toList] := by
  intro source failing warnings
  have hwarnings (source : Text) (rs : List Redefinition)
      (h : redefinitions (definitions source { journal := .blank }) = rs) :
      warnings (outcome (assemble source { journal := .blank })).2.journal =
        rs.map fun r => (Record.redefined r).message := by
    obtain ⟨⟨added, hjournal, hadded⟩, -⟩ := assemble_redefinitions source { journal := .blank }
    have hlist : (outcome (assemble source { journal := .blank })).2.journal.toList = added := by
      rw [hjournal]
      exact congrArg Tape.toList (Tape.foldl_push_on [] added)
    show List.map Record.message _ = _
    rw [hlist, hadded, h, List.map_map]
    rfl
  refine ⟨?_, by decide +kernel, (hwarnings failing _ rfl).trans (by decide +kernel)⟩
  have hentries : ((assemble source).run' { journal := .blank }).map (·.symbols.entries) =
      some [("A".toList, ⟨2, 6⟩), ("C".toList, ⟨1, 5⟩), ("B".toList, ⟨1, 2⟩)] := by
    decide +kernel
  obtain ⟨p, a', h, hentries⟩ := Pass.eq_ok_of_run' hentries
  have hjournal := hwarnings source _ rfl
  rw [h] at hjournal
  obtain ⟨-, -, hprogram⟩ := assemble_redefinitions source { journal := .blank }
  obtain ⟨-, -, -, haddress, -, hlist⟩ := hprogram p a' h
  refine ⟨p, a', h, hjournal.trans ?_, ?_, ?_⟩
  · decide +kernel
  · -- a table that has the symbols in order has the same list
    let sorted : Program := { p with symbols := ⟨p.symbols.entries.reverse⟩ }
    rw [← hlist sorted (List.reverse_perm _), Program.symbolList]
    show List.mergeSort (List.map _ p.symbols.entries.reverse) _ = _
    rw [hentries]
    exact List.mergeSort_of_pairwise (by decide)
  · rw [haddress]
    decide +kernel

end Assembler

end TwelveBit.Assembly
