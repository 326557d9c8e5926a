import TwelveBit.Proofs.Addressing
import TwelveBit.Proofs.Passes

/-!
# The layout of a program

Where a pass stands before a line is a `Position`: the place of the next word and the radix in
force. A statement moves it in a way that depends on nothing else (`Position.after`), above all not
on the symbols and not on the words, and this is why two passes that do different things to the same
lines agree on every address.

`Pass.Follows` says of one visit that it moves as its statement asks, and that it ends the walk
exactly if the statement ends the program. Both passes do (`Pass.follows_layOut`,
`Pass.follows_fill`).
-/

namespace TwelveBit.Assembly

/-! ## Lines -/

namespace SourceLine

/-- The label of a line, if it can be read and has one. -/
def label? (l : SourceLine) : Option Text :=
  match l.parse with
  | .ok line => line.label
  | .error _ => none

/-- Whether a line emits a word. -/
def emits (l : SourceLine) : Bool :=
  match l.parse with
  | .ok line => line.statement.emits
  | .error _ => false

/-- Whether a line ends the program. -/
def ends (l : SourceLine) : Bool :=
  match l.parse with
  | .ok line => line.statement = .finish
  | .error _ => false

/-- The lines up to the one that ends the program, and that one. -/
def upToEnd : List SourceLine → List SourceLine
  | [] => []
  | l :: rest => if l.ends then [l] else l :: upToEnd rest

variable {l : SourceLine} {line : Line}

/-- The numbers of the lines of a source go up. -/
theorem pairwise_ofSource (source : Text) :
    (ofSource source).Pairwise (fun l m => l.number < m.number) := by
  have hnumbers : (source.lines.zipIdx 1).Pairwise (fun l m => l.2 < m.2) := by
    rw [← List.pairwise_map (f := Prod.snd), List.zipIdx_map_snd]
    exact List.pairwise_lt_range'
  rw [ofSource, List.pairwise_filterMap]
  refine hnumbers.imp fun {l m} hlt l' hl m' hm => ?_
  have hnumber {l : Text × Nat} {l' : SourceLine}
      (h : (if (code l.1).isEmpty then none else some ⟨l.2, l.1⟩) = some l') :
      l'.number = l.2 := by
    split at h
    · cases h
    · cases h
      rfl
  rw [hnumber hl, hnumber hm]
  exact hlt

/-- No line of a source occurs twice, for no two have the same number. -/
theorem nodup_ofSource (source : Text) : (ofSource source).Nodup :=
  (pairwise_ofSource source).imp fun hlt heq => absurd (congrArg number heq) (Nat.ne_of_lt hlt)

/-- The lines that count are those with code. -/
theorem texts_ofSource (source : Text) :
    (ofSource source).map text = source.lines.filter fun t => !(code t).isEmpty := by
  rw [ofSource]
  generalize source.lines = ls
  generalize 1 = number
  induction ls generalizing number with
  | nil => rfl
  | cons t rest ih =>
      rw [List.zipIdx_cons, List.filterMap_cons]
      dsimp only
      cases hcode : (code t).isEmpty with
      | true =>
          rw [List.filter_cons_of_neg (by rw [hcode]; decide)]
          exact ih (number + 1)
      | false =>
          rw [List.filter_cons_of_pos (by rw [hcode]; rfl)]
          exact congrArg (t :: ·) (ih (number + 1))

theorem upToEnd_sublist (lines : List SourceLine) : (upToEnd lines).Sublist lines := by
  induction lines with
  | nil => exact .slnil
  | cons l rest ih =>
      rw [upToEnd]
      split
      · exact (List.nil_sublist rest).cons_cons l
      · exact ih.cons_cons l

theorem label?_of_parse (h : l.parse = .ok line) : l.label? = line.label := by
  rw [label?, h]

theorem emits_of_parse (h : l.parse = .ok line) : l.emits = line.statement.emits := by
  rw [emits, h]

theorem ends_of_parse (h : l.parse = .ok line) : l.ends = decide (line.statement = .finish) := by
  rw [ends, h]

end SourceLine

/-- Only one kind of statement emits. -/
theorem Statement.eq_emit_of_emits {s : Statement} (h : s.emits = true) :
    ∃ item, s = .emit item := by
  cases s with
  | emit item => exact ⟨item, rfl⟩
  | origin digits => cases h
  | radix radix => cases h
  | finish => cases h

/-! ## Positions -/

/-- Where a pass stands. -/
structure Position where
  /-- Where the next word goes: an address, or 4096 past the end of memory. -/
  counter : Nat := 0
  radix : Radix := .octal
  deriving DecidableEq, Repr

/-- Where a statement moves a pass. -/
def Position.after (p : Position) (s : Statement) : Except Error Position :=
  match s with
  | .emit _ =>
    if p.counter < 4096 then .ok { p with counter := p.counter + 1 } else .error .overflow
  | .origin digits =>
    match p.radix.literal digits with
    | .error e => .error e
    | .ok address => .ok { p with counter := address.toNat }
  | .radix radix => .ok { p with radix }
  | .finish => .ok p

/-! ## Builders -/

namespace Building

variable {α β : Type}

/-- A result with another answer and another builder. -/
def mapResult (f : α → β) (g : Builder → Builder) :
    EStateM.Result Error Builder α → EStateM.Result Error Builder β
  | .ok x b => .ok (f x) (g b)
  | .error e b => .error e (g b)

theorem mapResult_eq_error_iff {f : α → β} {g : Builder → Builder}
    {result : EStateM.Result Error Builder α} {e : Error} {b : Builder} :
    mapResult f g result = .error e b ↔ ∃ b', result = .error e b' ∧ g b' = b := by
  cases result with
  | ok x b' => simp [mapResult]
  | error e' b' =>
      constructor
      · rintro ⟨⟩
        exact ⟨b', rfl, rfl⟩
      · rintro ⟨_, ⟨⟩, rfl⟩
        rfl

theorem discard_eq (work : Building α) (b : Builder) :
    (Functor.discard work : Building Unit) b = mapResult (fun _ => ()) id (work b) := by
  show EStateM.map _ work b = _
  rw [EStateM.map]
  cases work b <;> rfl

/-- Work looks before it changes anything: where it fails, the builder is as it was. -/
def Atomic (work : Building α) : Prop :=
  ∀ ⦃b : Builder⦄ ⦃e : Error⦄ ⦃b' : Builder⦄, work b = .error e b' → b' = b

theorem Atomic.discard {work : Building α} (h : work.Atomic) :
    Building.Atomic (Functor.discard work) := by
  intro b e b' hfails
  rw [discard_eq, mapResult_eq_error_iff] at hfails
  obtain ⟨b₁, hwork, rfl⟩ := hfails
  exact h hwork

/-- What work makes of a builder, seen through a view. -/
def view (look : Builder → β) (work : Building α) (b : Builder) : Except Error β :=
  match work b with
  | .ok _ b' => .ok (look b')
  | .error e _ => .error e

/-- A view of the builder fails where the work does. -/
theorem view_eq_error_iff {look : Builder → β} {work : Building α} {b : Builder} {e : Error} :
    work.view look b = .error e ↔ ∃ b', work b = .error e b' := by
  rw [view]
  cases work b with
  | error e' b' =>
      constructor
      · rintro ⟨⟩
        exact ⟨b', rfl⟩
      · rintro ⟨_, ⟨⟩⟩
        rfl
  | ok x b' => exact iff_of_false (fun h => by cases h) (fun ⟨_, h⟩ => by cases h)

end Building

namespace Builder

/-- Where a builder stands. -/
def position (b : Builder) : Position := { counter := b.counter, radix := b.radix }

variable {b b' : Builder} {s : Statement}

theorem location_of_lt (h : b.counter < 4096) : b.location = .ok (Word.ofNat b.counter) := if_pos h

theorem location_of_le (h : 4096 ≤ b.counter) : b.location = .error .overflow :=
  if_neg (Nat.not_lt.mpr h)

theorem emit_of_lt (h : b.counter < 4096) (word : Nat) :
    emit word b =
      .ok (Word.ofNat b.counter)
        { b with
          image := b.image.set (Word.ofNat b.counter) (Word.ofNat word)
          counter := b.counter + 1 } := by
  rw [emit_eq, location_of_lt h]

theorem emit_of_le (h : 4096 ≤ b.counter) (word : Nat) : emit word b = .error .overflow b := by
  rw [emit_eq, location_of_le h]

theorem define_of_lt (h : b.counter < 4096) (name : Text) (line : Nat) :
    define name line b =
      .ok (b.symbols.redefinition? name ⟨b.counter, line⟩)
        { b with symbols := b.symbols.insert name ⟨b.counter, line⟩ } := by
  rw [define_eq, location_of_lt h]
  dsimp only
  rw [Word.toNat_ofNat_of_lt h]

theorem define_of_le (h : 4096 ≤ b.counter) (name : Text) (line : Nat) :
    define name line b = .error .overflow b := by
  rw [define_eq, location_of_le h]

/-! ### Work that fails -/

/-- A word is emitted wherever there is a place for it, and changes nothing elsewhere. -/
theorem emit_eq_error_iff {word : Nat} {e : Error} :
    emit word b = .error e b' ↔ b.location = .error e ∧ b' = b := by
  rw [emit_eq]
  cases b.location with
  | error e' =>
      rw [EStateM.Result.error.injEq, Except.error.injEq]
      exact and_congr_right' eq_comm
  | ok address => exact iff_of_false nofun nofun

theorem define_eq_error_iff {name : Text} {line : Nat} {e : Error} :
    define name line b = .error e b' ↔ b.location = .error e ∧ b' = b := by
  rw [define_eq]
  cases b.location with
  | error e' =>
      rw [EStateM.Result.error.injEq, Except.error.injEq]
      exact and_congr_right' eq_comm
  | ok address => exact iff_of_false nofun nofun

theorem atomic_emit (word : Nat) : (emit word).Atomic := fun _ _ _ h => (emit_eq_error_iff.mp h).2

theorem atomic_define (name : Text) (line : Nat) : (define name line).Atomic :=
  fun _ _ _ h => (define_eq_error_iff.mp h).2

theorem atomic_place (s : Statement) : (place s).Atomic := by
  intro b e b' h
  cases s with
  | origin digits =>
      rw [place_origin_eq] at h
      split at h
      · cases h
        rfl
      · cases h
  | emit item => cases h
  | radix radix => cases h
  | finish => cases h

theorem makeRoom_emit_of_lt (item : Item) (h : b.counter < 4096) :
    makeRoom (.emit item) b =
      .ok () { b with
        image := b.image.set (Word.ofNat b.counter) (Word.ofNat 0)
        counter := b.counter + 1 } := by
  rw [makeRoom, Building.discard_eq, emit_of_lt h]
  rfl

theorem makeRoom_emit_of_le (item : Item) (h : 4096 ≤ b.counter) :
    makeRoom (.emit item) b = .error .overflow b := by
  rw [makeRoom, Building.discard_eq, emit_of_le h]
  rfl

theorem atomic_makeRoom (s : Statement) : (makeRoom s).Atomic := by
  cases s with
  | emit item => exact (atomic_emit 0).discard
  | origin digits => exact atomic_place (.origin digits)
  | radix radix => exact atomic_place (.radix radix)
  | finish => exact atomic_place .finish

/-! ### Where work leaves a builder -/

/-- An origin and a radix move a builder as they move its position, and change nothing else. -/
theorem position_place (b : Builder) (s : Statement) (h : s.emits = false) :
    (place s).view Builder.position b = b.position.after s := by
  cases s with
  | emit item => cases h
  | origin digits =>
      have hradix : b.position.radix = b.radix := rfl
      rw [Building.view, place_origin_eq, Position.after, hradix]
      cases b.radix.literal digits with
      | error e => rfl
      | ok address =>
          show Except.ok (b.moveTo address.toNat).position = _
          rw [moveTo, position, Word.ofNat_toNat]
  | radix radix => rfl
  | finish => rfl

theorem symbols_of_place (h : place s b = .ok () b') : b'.symbols = b.symbols := by
  cases s with
  | origin digits =>
      rw [place_origin_eq] at h
      split at h
      · cases h
      · cases h
        rfl
  | emit item => cases h; rfl
  | radix radix => cases h; rfl
  | finish => cases h; rfl

/-! ### A builder with other symbols -/

def mapSymbols (g : SymbolTable → SymbolTable) (b : Builder) : Builder :=
  { b with symbols := g b.symbols }

section MapSymbols

variable {g : SymbolTable → SymbolTable}

open Building (mapResult)

theorem emit_mapSymbols (b : Builder) (word : Nat) :
    emit word (b.mapSymbols g) = mapResult id (mapSymbols g) (emit word b) := by
  have hlocation : (b.mapSymbols g).location = b.location := rfl
  rw [emit_eq, emit_eq, hlocation]
  cases b.location <;> rfl

theorem place_mapSymbols (b : Builder) (s : Statement) :
    place s (b.mapSymbols g) = mapResult id (mapSymbols g) (place s b) := by
  cases s with
  | origin digits =>
      have hradix : (b.mapSymbols g).radix = b.radix := rfl
      rw [place_origin_eq, place_origin_eq, hradix]
      cases b.radix.literal digits <;> rfl
  | _ => rfl

theorem makeRoom_mapSymbols (b : Builder) (s : Statement) :
    makeRoom s (b.mapSymbols g) = mapResult id (mapSymbols g) (makeRoom s b) := by
  cases s with
  | emit item =>
      rw [makeRoom, Building.discard_eq, Building.discard_eq, emit_mapSymbols]
      cases emit 0 b <;> rfl
  | origin digits => exact b.place_mapSymbols (.origin digits)
  | _ => rfl

end MapSymbols

/-! ### What the passes do to a builder -/

/-- A label does not move a builder. It gives the name the place of the next word, which must not be
past the end of memory. -/
theorem of_label {name : Option Text} {line : Nat} {r : Option Redefinition}
    (h : label name line b = .ok r b') :
    b'.position = b.position ∧ ∀ n, b'.symbols.address? n =
      if name = some n then some b.counter else b.symbols.address? n := by
  cases name with
  | none =>
      cases h
      exact ⟨rfl, fun n => rfl⟩
  | some name =>
      rcases Nat.lt_or_ge b.counter 4096 with hlt | hge
      · rw [label, define_of_lt hlt] at h
        cases h
        refine ⟨rfl, fun n => ?_⟩
        show ((b.symbols.insert name _).get? n).map (·.address) = _
        rw [SymbolTable.get?_insert]
        by_cases hn : n = name
        · rw [if_pos hn, if_pos (congrArg some hn.symm)]
          rfl
        · rw [if_neg hn, if_neg fun hsome => hn (Option.some.inj hsome).symm]
          rfl
      · rw [label, define_of_le hge] at h
        cases h

/-- A name is defined at an address of memory. -/
theorem counter_lt_of_label {name : Text} {line : Nat} {r : Option Redefinition}
    (h : label (some name) line b = .ok r b') : b.counter < 4096 := by
  refine Nat.lt_of_not_le fun hge => ?_
  rw [label, define_of_le hge] at h
  cases h

theorem position_makeRoom (b : Builder) (s : Statement) :
    (makeRoom s).view Builder.position b = b.position.after s := by
  cases s with
  | emit item =>
      have hcounter : b.position.counter = b.counter := rfl
      rw [Building.view, Position.after, hcounter]
      rcases Nat.lt_or_ge b.counter 4096 with hlt | hge
      · rw [makeRoom_emit_of_lt item hlt, if_pos hlt]
        rfl
      · rw [makeRoom_emit_of_le item hge, if_neg (Nat.not_lt.mpr hge)]
  | origin digits => exact position_place b (.origin digits) rfl
  | radix radix => rfl
  | finish => rfl

theorem symbols_of_makeRoom (h : makeRoom s b = .ok () b') : b'.symbols = b.symbols := by
  cases s with
  | emit item =>
      rcases Nat.lt_or_ge b.counter 4096 with hlt | hge
      · rw [makeRoom_emit_of_lt item hlt] at h
        cases h
        rfl
      · rw [makeRoom_emit_of_le item hge] at h
        cases h
  | origin digits => exact symbols_of_place (s := .origin digits) h
  | radix radix => exact symbols_of_place (s := .radix radix) h
  | finish => exact symbols_of_place (s := .finish) h

/-- An item is encoded for a word, which below 4096 is the counter itself. -/
theorem encode_of_lt (item : Item) (h : b.counter < 4096) :
    b.encode item = item.encode b.counter b.symbols b.radix := by
  rw [encode, location_of_lt h]
  dsimp only
  rw [Word.toNat_ofNat_of_lt h]

/-- What the second pass makes of an item: its word, at the place of the next word. -/
theorem fill_emit_eq (item : Item) (b : Builder) :
    fill (.emit item) b =
      match b.encode item with
      | .error e => .error e b
      | .ok word =>
        match emit word.toNat b with
        | .error e b' => .error e b'
        | .ok address b' => .ok (some (address, word)) b' := by
  show EStateM.bind (ofExcept (b.encode item)) _ b = _
  rw [EStateM.bind]
  cases b.encode item with
  | error e => rfl
  | ok word =>
      show EStateM.bind (emit word.toNat) _ b = _
      rw [EStateM.bind]
      dsimp only
      cases emit word.toNat b <;> rfl

theorem fill_emit_eq_ok_iff {item : Item} {emitted : Option (Word × Word)} :
    fill (.emit item) b = .ok emitted b' ↔
      b.counter < 4096 ∧ ∃ word,
        item.encode b.counter b.symbols b.radix = .ok word ∧
        emitted = some (Word.ofNat b.counter, word) ∧
        b' = { b with
          image := b.image.set (Word.ofNat b.counter) word
          counter := b.counter + 1 } := by
  rcases Nat.lt_or_ge b.counter 4096 with hlt | hge
  · rw [fill_emit_eq, encode_of_lt item hlt]
    cases item.encode b.counter b.symbols b.radix with
    | error e =>
        refine iff_of_false (fun h => by cases h) ?_
        rintro ⟨-, word, hword, -⟩
        cases hword
    | ok word =>
        dsimp only
        rw [emit_of_lt hlt, Word.ofNat_toNat]
        constructor
        · rintro ⟨⟩
          exact ⟨hlt, word, rfl, rfl, rfl⟩
        · rintro ⟨-, _, ⟨⟩, rfl, rfl⟩
          rfl
  · refine iff_of_false (fun h => ?_) (fun h => absurd h.1 (Nat.not_lt.mpr hge))
    rw [fill_emit_eq, encode, location_of_le hge] at h
    cases h

/-- A statement that emits a word emits it at the place of the next word. -/
theorem emitted_of_fill {emitted : Option (Word × Word)} (hs : s.emits = true)
    (h : fill s b = .ok emitted b') :
    b.counter < 4096 ∧ ∃ word, emitted = some (Word.ofNat b.counter, word) := by
  obtain ⟨item, rfl⟩ := Statement.eq_emit_of_emits hs
  obtain ⟨hlt, word, -, hemitted, -⟩ := fill_emit_eq_ok_iff.mp h
  exact ⟨hlt, word, hemitted⟩

/-- Any other statement is placed, and emits nothing. -/
theorem fill_eq_of_not_emits (hs : s.emits = false) (b : Builder) :
    fill s b = Building.mapResult (fun _ => none) id (place s b) := by
  cases s with
  | emit item => cases hs
  | origin digits =>
      show EStateM.bind (place (.origin digits)) _ b = _
      rw [EStateM.bind]
      cases place (.origin digits) b <;> rfl
  | radix radix => rfl
  | finish => rfl

theorem place_of_fill {emitted : Option (Word × Word)} (hs : s.emits = false)
    (h : fill s b = .ok emitted b') : emitted = none ∧ place s b = .ok () b' := by
  rw [fill_eq_of_not_emits hs] at h
  cases hb : place s b with
  | error e b₁ => rw [hb] at h; cases h
  | ok _ b₁ =>
      rw [hb] at h
      cases h
      exact ⟨rfl, rfl⟩

/-- A statement moves the second pass as it moves the first, and leaves the symbols alone. -/
theorem position_of_fill {emitted : Option (Word × Word)} (h : fill s b = .ok emitted b') :
    b.position.after s = .ok b'.position ∧ b'.symbols = b.symbols := by
  -- the two passes have different code for a statement that emits, and the same for the others
  by_cases hs : s.emits = true
  · obtain ⟨item, rfl⟩ := Statement.eq_emit_of_emits hs
    obtain ⟨hlt, word, -, -, rfl⟩ := fill_emit_eq_ok_iff.mp h
    exact ⟨if_pos hlt, rfl⟩
  · replace hs := Bool.eq_false_iff.mpr hs
    obtain ⟨-, hb⟩ := place_of_fill hs h
    rw [← position_place b s hs, Building.view, hb]
    exact ⟨rfl, symbols_of_place hb⟩

end Builder

/-! ## One visit -/

namespace Visit

/-- The place of the next word before a visit. -/
def counter (v : Visit) : Nat := v.before.builder.counter

/-- The line of a visit, and where the pass stands before it. -/
def place (v : Visit) : SourceLine × Position := (v.line, v.before.builder.position)

/-- Whether a visit is one of a line that defines a name. -/
def defines (v : Visit) (name : Text) : Prop := v.line.label? = some name

/-- Whether a visit is one of a line that emits a word. -/
def emits (v : Visit) : Bool := v.line.emits

instance (v : Visit) (name : Text) : Decidable (v.defines name) :=
  inferInstanceAs (Decidable (v.line.label? = some name))

end Visit

namespace Pass

/-- A pass follows the statements: a visit that ends well moves by the statement of its line, and
the walk ends there exactly if the program does. -/
def Follows (visit : SourceLine → Pass Finding) : Prop :=
  ∀ ⦃l : SourceLine⦄ ⦃a a' : Assembler⦄ ⦃finding : Finding⦄, visit l a = .ok finding a' →
    ∃ line, l.parse = .ok line ∧
      a.builder.position.after line.statement = .ok a'.builder.position ∧
      (finding = .finish ↔ line.statement = .finish)

theorem Finding.ofStatement_eq_finish_iff {s : Statement} :
    Finding.ofStatement s = .finish ↔ s = .finish := by
  cases s with
  | finish => exact iff_of_true rfl rfl
  | emit item => exact iff_of_false (fun h => by cases h) (fun h => by cases h)
  | origin digits => exact iff_of_false (fun h => by cases h) (fun h => by cases h)
  | radix radix => exact iff_of_false (fun h => by cases h) (fun h => by cases h)

theorem Finding.ofStatement_ne_entry (s : Statement) (e : Entry) :
    Finding.ofStatement s ≠ .entry e := by
  intro h
  cases s <;> cases h

variable {l : SourceLine} {a a' : Assembler} {finding : Finding}

/-- A visit of the first pass moves by the statement, and defines the label. -/
theorem of_layOut (h : layOut l a = .ok finding a') :
    ∃ line, l.parse = .ok line ∧ finding = .ofStatement line.statement ∧
      a.builder.position.after line.statement = .ok a'.builder.position ∧
      ∀ n, a'.builder.symbols.address? n =
        if line.label = some n then some a.builder.counter else a.builder.symbols.address? n := by
  cases hline : l.parse with
  | error e => rw [layOut_of_error hline] at h; cases h
  | ok line =>
      rw [layOut_of_parse hline] at h
      split at h
      · cases h
      · next r b hlabel =>
          split at h
          · cases h
          · next b' hroom =>
              cases h
              obtain ⟨hposition, hsymbols⟩ := Builder.of_label hlabel
              refine ⟨line, rfl, rfl, ?_, fun n => ?_⟩
              · rw [Assembler.builder_noteRedefinition, ← hposition,
                  ← Builder.position_makeRoom, Building.view, hroom]
              · rw [Assembler.builder_noteRedefinition, ← hsymbols n]
                show b'.symbols.address? n = b.symbols.address? n
                rw [Builder.symbols_of_makeRoom hroom]

/-- A visit of the first pass leaves every name with an address of memory. -/
theorem address?_lt_of_layOut (h : layOut l a = .ok finding a')
    (hbefore : ∀ name address, a.builder.symbols.address? name = some address → address < 4096)
    (name : Text) (address : Nat) (haddress : a'.builder.symbols.address? name = some address) :
    address < 4096 := by
  obtain ⟨line, hline, -, -, hsymbols⟩ := of_layOut h
  rw [hsymbols] at haddress
  split at haddress
  · next hlabel =>
      cases haddress
      rw [layOut_of_parse hline, hlabel] at h
      split at h
      · cases h
      · next hdefined => exact Builder.counter_lt_of_label hdefined
  · exact hbefore name address haddress

/-- A visit of the second pass moves by the statement, leaves the symbols alone, and answers an
entry with the place of the next word if the statement emits one. -/
theorem of_fill (h : fill l a = .ok finding a') :
    ∃ line, l.parse = .ok line ∧
      a.builder.position.after line.statement = .ok a'.builder.position ∧
      a'.builder.symbols = a.builder.symbols ∧
      if line.statement.emits then
        a.builder.counter < 4096 ∧
          ∃ word, finding = .entry { address := Word.ofNat a.builder.counter, word, line := l }
      else finding = .ofStatement line.statement := by
  cases hline : l.parse with
  | error e => rw [fill_of_error hline] at h; cases h
  | ok line =>
      rw [fill_of_parse hline] at h
      cases hfill : Builder.fill line.statement a.builder with
      | error e b' => rw [hfill] at h; cases h
      | ok emitted b' =>
          rw [hfill] at h
          obtain ⟨hposition, hsymbols⟩ := Builder.position_of_fill hfill
          by_cases hs : line.statement.emits = true
          · obtain ⟨hlt, word, rfl⟩ := Builder.emitted_of_fill hs hfill
            cases h
            refine ⟨line, rfl, hposition, hsymbols, ?_⟩
            rw [if_pos hs]
            exact ⟨hlt, word, rfl⟩
          · obtain ⟨rfl, -⟩ := Builder.place_of_fill (Bool.eq_false_iff.mpr hs) hfill
            cases h
            refine ⟨line, rfl, hposition, hsymbols, ?_⟩
            rw [if_neg hs]

theorem follows_layOut : Follows layOut := by
  intro l a a' finding h
  obtain ⟨line, hline, rfl, hposition, -⟩ := of_layOut h
  exact ⟨line, hline, hposition, Finding.ofStatement_eq_finish_iff⟩

theorem follows_fill : Follows fill := by
  intro l a a' finding h
  obtain ⟨line, hline, hposition, -, hfinding⟩ := of_fill h
  refine ⟨line, hline, hposition, ?_⟩
  split at hfinding
  · next hemits =>
      obtain ⟨-, word, rfl⟩ := hfinding
      refine iff_of_false (fun h => by cases h) (fun h => ?_)
      rw [h] at hemits
      cases hemits
  · rw [hfinding]
    exact Finding.ofStatement_eq_finish_iff

end Pass

end TwelveBit.Assembly
