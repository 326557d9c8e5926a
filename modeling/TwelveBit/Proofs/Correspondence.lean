import Mathlib.Data.List.Forall2
import TwelveBit.Proofs.Translation

/-!
# Sources whose lines correspond

Two sources may look different and still have lines that read the same, one by one, with other
numbers. `SourceLine.Pairing` is a way to say which lines correspond, and `Pairing.assemble` is what
follows from it: both sources are assembled to corresponding programs, or both fail with the same
error on corresponding lines.

The pass over the second source has an assembler that differs in the line numbers of its symbols
and, perhaps, in its journal (`Pairing.Relates`). Neither of them is ever read, so what one visit
answers corresponds to what the other answers (`Pairing.layOut`, `Pairing.fill`), and the same holds
for whole walks.
-/

namespace TwelveBit.Assembly

/-! ## Symbols with other line numbers -/

variable {number : Nat → Nat}

def Symbol.renumber (number : Nat → Nat) (s : Symbol) : Symbol := { s with line := number s.line }

def Redefinition.renumber (number : Nat → Nat) (r : Redefinition) : Redefinition :=
  { r with now := r.now.renumber number, before := r.before.renumber number }

namespace SymbolTable

/-- The same symbols, defined on lines with other numbers. -/
def renumber (number : Nat → Nat) (t : SymbolTable) : SymbolTable where
  entries := t.entries.map fun (name, s) => (name, s.renumber number)

theorem get?_renumber (t : SymbolTable) (name : Text) :
    (t.renumber number).get? name = (t.get? name).map (Symbol.renumber number) :=
  lookup_map_snd (Symbol.renumber number) t.entries name

theorem address?_renumber (t : SymbolTable) (name : Text) :
    (t.renumber number).address? name = t.address? name := by
  unfold address?
  rw [get?_renumber, Option.map_map]
  rfl

theorem insert_renumber (t : SymbolTable) (name : Text) (s : Symbol) :
    (t.renumber number).insert name (s.renumber number) = (t.insert name s).renumber number := by
  unfold insert renumber
  simp only [List.map_cons, List.filter_map]
  rfl

theorem redefinition?_renumber (t : SymbolTable) (name : Text) (s : Symbol) :
    (t.renumber number).redefinition? name (s.renumber number) =
      (t.redefinition? name s).map (Redefinition.renumber number) := by
  unfold redefinition?
  rw [get?_renumber, Option.map_map, Option.map_map]
  rfl

@[simp] theorem renumber_id (t : SymbolTable) : t.renumber id = t := by
  obtain ⟨entries⟩ := t
  exact congrArg SymbolTable.mk (List.map_id entries)

end SymbolTable

/-! ## Builders -/

namespace Builder

open Building (mapResult)

/-- The builder that has built the same from lines with other numbers. -/
def renumber (number : Nat → Nat) (b : Builder) : Builder :=
  b.mapSymbols (SymbolTable.renumber number)

theorem label_renumber (b : Builder) (name : Option Text) (line : Nat) :
    label name (number line) (b.renumber number) =
      mapResult (Option.map (Redefinition.renumber number)) (renumber number)
        (label name line b) := by
  cases name with
  | none => rfl
  | some name =>
      have hlocation : (b.renumber number).location = b.location := rfl
      simp only [label, define_eq, hlocation]
      cases b.location with
      | error e => rfl
      | ok address =>
          let symbol : Symbol := ⟨address.toNat, line⟩
          have hinsert : (b.symbols.renumber number).insert name ⟨address.toNat, number line⟩ =
              (b.symbols.insert name symbol).renumber number :=
            b.symbols.insert_renumber name symbol
          have hredefines :
              (b.symbols.renumber number).redefinition? name ⟨address.toNat, number line⟩ =
                (b.symbols.redefinition? name symbol).map (Redefinition.renumber number) :=
            b.symbols.redefinition?_renumber name symbol
          simp only [renumber, mapSymbols, hinsert, hredefines]
          rfl

theorem encode_renumber (b : Builder) (item : Item) :
    (b.renumber number).encode item = b.encode item := by
  have hlocation : (b.renumber number).location = b.location := rfl
  unfold encode
  rw [hlocation]
  cases b.location with
  | error e => rfl
  | ok address =>
      exact item.encode_congr b.symbols.address?_renumber address.toNat b.radix

theorem fill_renumber (b : Builder) (s : Statement) :
    fill s (b.renumber number) = mapResult id (renumber number) (fill s b) := by
  cases hs : s.emits with
  | true =>
      obtain ⟨item, rfl⟩ := Statement.eq_emit_of_emits hs
      rw [fill_emit_eq, fill_emit_eq, encode_renumber]
      cases b.encode item with
      | error e => rfl
      | ok word =>
          dsimp only
          rw [renumber, emit_mapSymbols]
          cases emit word.toNat b <;> rfl
  | false =>
      rw [fill_eq_of_not_emits hs, fill_eq_of_not_emits hs, renumber, place_mapSymbols]
      cases place s b <;> rfl

end Builder

/-! ## Lines that correspond -/

/-- A way to pair lines that read the same. The numbers of the lines go over into one another by a
function. -/
structure SourceLine.Pairing where
  number : Nat → Nat
  Pairs : SourceLine → SourceLine → Prop
  parse_eq {l l' : SourceLine} (h : Pairs l l') : l'.parse = l.parse
  number_eq {l l' : SourceLine} (h : Pairs l l') : l'.number = number l.number

namespace SourceLine.Pairing

open Pass (Finding)

variable (P : Pairing)

/-- The same word at the same address, from lines that correspond. -/
structure Entries (e e' : Entry) : Prop where
  address : e'.address = e.address
  word : e'.word = e.word
  line : P.Pairs e.line e'.line

inductive Findings : Finding → Finding → Prop where
  | finish : Findings .finish .finish
  | nothing : Findings .nothing .nothing
  | entry {e e' : Entry} (h : P.Entries e e') : Findings (.entry e) (.entry e')

/-- The same words and symbols, from lines that correspond. -/
structure Programs (p p' : Program) : Prop where
  image : p'.image = p.image
  symbols : p'.symbols = p.symbols.renumber P.number
  listing : List.Forall₂ P.Entries p.listing p'.listing

/-- Assemblers that have built the same from lines that correspond. -/
def Relates (a b : Assembler) : Prop := b.builder = a.builder.renumber P.number

/-- Passes that both end well, with answers that correspond, or that both end in the same error on
lines that correspond. -/
inductive Results {α : Type} (answers : α → α → Prop) :
    EStateM.Result SourceError Assembler α → EStateM.Result SourceError Assembler α → Prop where
  | ok {x y : α} {a b : Assembler} (hanswers : answers x y) (hafter : P.Relates a b) :
      Results answers (.ok x a) (.ok y b)
  | error {l l' : SourceLine} (e : Error) (hline : P.Pairs l l') (a b : Assembler) :
      Results answers (.error (l.locate e) a) (.error (l'.locate e) b)

variable {P} {l l' : SourceLine} {a b : Assembler} {lines lines' : List SourceLine}
  {visit : SourceLine → Pass Finding}

theorem findings_ofStatement (s : Statement) :
    P.Findings (.ofStatement s) (.ofStatement s) := by
  cases s with
  | finish => exact .finish
  | _ => exact .nothing

theorem layOut (hline : P.Pairs l l') (hbefore : P.Relates a b) :
    P.Results P.Findings (Pass.layOut l a) (Pass.layOut l' b) := by
  cases hparse : l.parse with
  | error e =>
      rw [Pass.layOut_of_error hparse, Pass.layOut_of_error ((P.parse_eq hline).trans hparse)]
      exact .error e hline a b
  | ok line =>
      have hbuilder : b.builder = a.builder.renumber P.number := hbefore
      rw [Pass.layOut_of_parse hparse, Pass.layOut_of_parse ((P.parse_eq hline).trans hparse),
        P.number_eq hline, hbuilder, Builder.label_renumber]
      rcases Builder.label line.label l.number a.builder with ⟨r, b₁⟩ | ⟨e, b₁⟩
      · have hroom : Builder.makeRoom line.statement (b₁.renumber P.number) =
            Building.mapResult id (Builder.renumber P.number)
              (Builder.makeRoom line.statement b₁) := b₁.makeRoom_mapSymbols line.statement
        simp only [Building.mapResult, hroom]
        rcases Builder.makeRoom line.statement b₁ with ⟨_, b₂⟩ | ⟨e, b₂⟩
        · refine .ok (findings_ofStatement line.statement) ?_
          rw [Relates, Assembler.builder_noteRedefinition, Assembler.builder_noteRedefinition]
        · exact .error e hline _ _
      · exact .error e hline _ _

theorem fill (hline : P.Pairs l l') (hbefore : P.Relates a b) :
    P.Results P.Findings (Pass.fill l a) (Pass.fill l' b) := by
  cases hparse : l.parse with
  | error e =>
      rw [Pass.fill_of_error hparse, Pass.fill_of_error ((P.parse_eq hline).trans hparse)]
      exact .error e hline a b
  | ok line =>
      have hbuilder : b.builder = a.builder.renumber P.number := hbefore
      rw [Pass.fill_of_parse hparse, Pass.fill_of_parse ((P.parse_eq hline).trans hparse),
        hbuilder, Builder.fill_renumber]
      rcases Builder.fill line.statement a.builder with ⟨_ | ⟨address, word⟩, b₁⟩ | ⟨e, b₁⟩
      · exact .ok (findings_ofStatement line.statement) rfl
      · exact .ok (.entry ⟨rfl, rfl, hline⟩) rfl
      · exact .error e hline _ _

/-! ## Walks -/

/-- Visits that correspond make walks that correspond. -/
theorem walk (hvisit : ∀ {l l' a b}, P.Pairs l l' → P.Relates a b →
      P.Results P.Findings (visit l a) (visit l' b))
    (hlines : List.Forall₂ P.Pairs lines lines') (hbefore : P.Relates a b) :
    P.Results (List.Forall₂ P.Entries) (Pass.walk visit lines a) (Pass.walk visit lines' b) := by
  -- on the lines, for any assemblers that have built the same before them
  induction hlines generalizing a b with
  | nil => exact .ok .nil hbefore
  | @cons l l' rest rest' hline _ ih =>
      rw [Pass.walk_cons, Pass.walk_cons]
      have hfirst := hvisit hline hbefore
      generalize visit l a = first at hfirst
      generalize visit l' b = first' at hfirst
      cases hfirst with
      | error e hline a₁ b₁ => exact .error e hline a₁ b₁
      | @ok found found' a₁ b₁ hfound hafter =>
          cases hfound with
          | finish => exact .ok .nil hafter
          | nothing => exact ih hafter
          | entry hentry =>
              dsimp only
              have hrest := ih hafter
              generalize Pass.walk visit rest a₁ = next at hrest
              generalize Pass.walk visit rest' b₁ = next' at hrest
              cases hrest with
              | ok hentries hend => exact .ok (.cons hentry hentries) hend
              | error e hline a₂ b₂ => exact .error e hline a₂ b₂

/-! ## Sources -/

/-- Sources whose walks correspond in both passes are assembled to programs that correspond, or fail
with the same error on lines that correspond. -/
theorem assemble_of_walks {source source' : Text}
    (hfirst : ∀ {a b}, P.Relates a b → P.Results (List.Forall₂ P.Entries)
      (Pass.walk Pass.layOut (ofSource source) a) (Pass.walk Pass.layOut (ofSource source') b))
    (hsecond : ∀ {a b}, P.Relates a b → P.Results (List.Forall₂ P.Entries)
      (Pass.walk Pass.fill (ofSource source) a) (Pass.walk Pass.fill (ofSource source') b))
    (a b : Assembler) :
    P.Results P.Programs (Assembler.assemble source a) (Assembler.assemble source' b) := by
  rw [Assembler.assemble_eq, Assembler.assemble_eq]
  have hbegin : P.Relates (a.begin (ofSource source)) (b.begin (ofSource source')) := rfl
  replace hfirst := hfirst hbegin
  generalize Pass.walk Pass.layOut (ofSource source) _ = first at hfirst
  generalize Pass.walk Pass.layOut (ofSource source') _ = first' at hfirst
  cases hfirst with
  | error e hline a₁ b₁ => exact .error e hline a₁ b₁
  | @ok _ _ a₁ b₁ _ hmiddle =>
      have hturn : P.Relates a₁.turn b₁.turn := congrArg Builder.restart hmiddle
      replace hsecond := hsecond hturn
      dsimp only
      generalize Pass.walk Pass.fill (ofSource source) _ = second at hsecond
      generalize Pass.walk Pass.fill (ofSource source') _ = second' at hsecond
      cases hsecond with
      | error e hline a₂ b₂ => exact .error e hline a₂ b₂
      | @ok listing listing' a₂ b₂ hlisting hend =>
          have hbuilder : b₂.builder = a₂.builder.renumber P.number := hend
          refine .ok ⟨?_, ?_, hlisting⟩ hend
          · show b₂.builder.image = a₂.builder.image
            rw [hbuilder]
            rfl
          · show b₂.builder.symbols = a₂.builder.symbols.renumber P.number
            rw [hbuilder]
            rfl

/-- **Sources whose lines correspond are assembled to programs that correspond**, or fail with the
same error on lines that correspond, whatever the assemblers have done before. -/
theorem assemble {source source' : Text}
    (h : List.Forall₂ P.Pairs (ofSource source) (ofSource source')) (a b : Assembler) :
    P.Results P.Programs (Assembler.assemble source a) (Assembler.assemble source' b) :=
  assemble_of_walks (walk layOut h) (walk fill h) a b

end SourceLine.Pairing

end TwelveBit.Assembly
