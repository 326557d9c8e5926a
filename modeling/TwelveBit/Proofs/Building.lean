import Mathlib.Data.List.Induction
import TwelveBit.Proofs.Layout

/-!
# What a builder has been asked for

A builder is asked for one action after another. Where the next word goes is told by the actions
alone (`Action.move`), and so is what each of them does to the word at an address
(`Action.wordChange`) and to a name (`Action.symbolChange`): it may set it, clear it, or keep it.

`Latest` is what is there after a row of changes: what was set last, unless it has been cleared
since. `performAll_history` says that a builder has exactly this, after every history, and that it
keeps its bounds in all of them.
-/

namespace TwelveBit.Assembly

/-! ## Changes -/

/-- What happens to something that is kept. -/
inductive Change (β : Type) where
  | keep
  | clear
  | set (value : β)
  deriving DecidableEq, Repr

namespace Change

variable {β : Type} {initial value : β} {changes : List (Change β)}

/-- What is there after a change. What is cleared is as it was at the beginning. -/
def after (initial : β) (value : β) : Change β → β
  | keep => value
  | clear => initial
  | set new => new

/-- What is there after a row of changes: what was set last, or what was there at the beginning if
nothing was set or it has been cleared since. -/
inductive Latest (initial : β) (changes : List (Change β)) : β → Prop where
  | untouched (kept : ∀ c ∈ changes, c = keep) : Latest initial changes initial
  | cleared {earlier later : List (Change β)} (cut : changes = earlier ++ clear :: later)
      (kept : ∀ c ∈ later, c = keep) : Latest initial changes initial
  | set {earlier later : List (Change β)} {value : β}
      (cut : changes = earlier ++ set value :: later)
      (kept : ∀ c ∈ later, c = keep) : Latest initial changes value

theorem foldl_after_of_keep (h : ∀ c ∈ changes, c = keep) (value : β) :
    changes.foldl (after initial) value = value := by
  induction changes with
  | nil => rfl
  | cons c rest ih =>
      obtain ⟨rfl, hrest⟩ := List.forall_mem_cons.mp h
      exact ih hrest

theorem Latest.foldl_eq (h : Latest initial changes value) :
    changes.foldl (after initial) initial = value := by
  cases h with
  | untouched kept => exact foldl_after_of_keep kept _
  | cleared cut kept =>
      rw [cut, List.foldl_append, List.foldl_cons]
      exact foldl_after_of_keep kept _
  | set cut kept =>
      rw [cut, List.foldl_append, List.foldl_cons]
      exact foldl_after_of_keep kept _

/-- A change that keeps what is there has no part in it. -/
theorem Latest.concat_keep (h : Latest initial changes value) :
    Latest initial (changes ++ [keep]) value := by
  have hkept {later : List (Change β)} (kept : ∀ c ∈ later, c = keep) :
      ∀ c ∈ later ++ [keep], c = keep :=
    List.forall_mem_append.mpr ⟨kept, List.forall_mem_singleton.mpr rfl⟩
  cases h with
  | untouched kept => exact .untouched (hkept kept)
  | cleared cut kept => exact .cleared (by rw [cut, List.append_assoc]; rfl) (hkept kept)
  | set cut kept => exact .set (by rw [cut, List.append_assoc]; rfl) (hkept kept)

theorem latest_foldl (initial : β) (changes : List (Change β)) :
    Latest initial changes (changes.foldl (after initial) initial) := by
  induction changes using List.reverseRecOn with
  | nil => exact .untouched (List.forall_mem_nil _)
  | append_singleton changes c ih =>
      rw [List.foldl_append]
      cases c with
      | keep => exact ih.concat_keep
      | clear => exact .cleared rfl (List.forall_mem_nil _)
      | set value => exact .set rfl (List.forall_mem_nil _)

/-- What is there and was not at the beginning has been set. -/
theorem Latest.set_mem (h : Latest initial changes value) (hne : value ≠ initial) :
    Change.set value ∈ changes := by
  cases h with
  | untouched kept => exact absurd rfl hne
  | cleared cut kept => exact absurd rfl hne
  | set cut kept =>
      rw [cut]
      exact List.mem_append_right _ List.mem_cons_self

/-- Making one change after another leaves what is latest. -/
theorem foldl_eq_iff_latest :
    changes.foldl (after initial) initial = value ↔ Latest initial changes value := by
  refine ⟨?_, Latest.foldl_eq⟩
  rintro rfl
  exact latest_foldl initial changes

end Change

/-! ## Actions -/

namespace Building

variable {α : Type}

/-- The builder that work leaves behind, whether it fails or not. -/
def left (work : Building α) (b : Builder) : Builder :=
  match work b with
  | .ok _ b' => b'
  | .error _ b' => b'

theorem left_discard (work : Building α) (b : Builder) :
    Building.left (Functor.discard work) b = work.left b := by
  rw [left, left, discard_eq]
  cases work b <;> rfl

end Building

namespace Builder

/-- Something asked of a builder. -/
inductive Action where
  | reset
  | restart
  | moveTo (address : Nat)
  | emit (word : Nat)
  | define (name : Text) (line : Nat)
  | setRadix (radix : Radix)
  deriving DecidableEq, Repr

/-- The work that an action asks for. -/
def attempt : Action → Building Unit
  | .reset => modify reset
  | .restart => modify restart
  | .moveTo address => modify (·.moveTo address)
  | .emit word => discard (emit word)
  | .define name line => discard (define name line)
  | .setRadix radix => modify (·.setRadix radix)

def perform (b : Builder) (action : Action) : Builder := (attempt action).left b

def performAll (b : Builder) (history : List Action) : Builder := history.foldl perform b

namespace Action

/-- Where an action moves the place of the next word. -/
def move (counter : Nat) : Action → Nat
  | reset => 0
  | restart => 0
  | moveTo address => address % 4096
  | emit _ => if counter < 4096 then counter + 1 else counter
  | define _ _ => counter
  | setRadix _ => counter

/-- What an action does to the word at an address. Past the end of memory there is none. -/
def wordChange (a : Word) (counter : Nat) : Action → Change Word
  | reset => .clear
  | restart => .clear
  | emit word => if counter = a.toNat then .set (Word.ofNat word) else .keep
  | _ => .keep

/-- What an action does to what a name stands for. -/
def symbolChange (name : Text) (counter : Nat) : Action → Change (Option Symbol)
  | reset => .clear
  | define other line =>
    if other = name ∧ counter < 4096 then .set (some { address := counter, line }) else .keep
  | _ => .keep

/-- The changes by the actions of a history, where the next word goes here. -/
def changes {β : Type} (change : Nat → Action → Change β) : Nat → List Action → List (Change β)
  | _, [] => []
  | counter, action :: rest => change counter action :: changes change (action.move counter) rest

end Action

variable {b b' : Builder} {action : Action}

/-! ### One action -/

theorem perform_emit (b : Builder) (word : Nat) :
    b.perform (.emit word) =
      if b.counter < 4096 then
        { b with
          image := b.image.set (Word.ofNat b.counter) (Word.ofNat word)
          counter := b.counter + 1 }
      else b := by
  rw [perform, attempt, Building.left_discard, Building.left]
  split_ifs with h
  · rw [emit_of_lt h]
  · rw [emit_of_le (Nat.le_of_not_lt h)]

theorem perform_define (b : Builder) (name : Text) (line : Nat) :
    b.perform (.define name line) =
      if b.counter < 4096 then
        { b with symbols := b.symbols.insert name { address := b.counter, line } }
      else b := by
  rw [perform, attempt, Building.left_discard, Building.left]
  split_ifs with h
  · rw [define_of_lt h]
  · rw [define_of_le (Nat.le_of_not_lt h)]

theorem counter_perform (b : Builder) (action : Action) :
    (b.perform action).counter = action.move b.counter := by
  cases action with
  | emit word =>
      rw [perform_emit, Action.move]
      split_ifs <;> rfl
  | define name line =>
      rw [perform_define, Action.move]
      split_ifs <;> rfl
  | moveTo address => exact Word.toNat_ofNat address
  | _ => rfl

/-- What an action does to a word of the image. -/
theorem get_perform (a : Word) (b : Builder) (action : Action) :
    (b.perform action).image.get a =
      (action.wordChange a b.counter).after 0 (b.image.get a) := by
  cases action with
  | emit word =>
      rw [perform_emit, Action.wordChange]
      split_ifs with hlt heq heq
      · -- the word is emitted at the address
        have ha : a = Word.ofNat b.counter := by rw [heq, Word.ofNat_toNat]
        rw [Memory.get_set, if_pos ha]
        rfl
      · have ha : a ≠ Word.ofNat b.counter := by
          rintro rfl
          rw [Word.toNat_ofNat_of_lt hlt] at heq
          exact heq rfl
        rw [Memory.get_set, if_neg ha]
        rfl
      · exact absurd (heq ▸ a.isLt) hlt
      · rfl
  | define name line =>
      rw [perform_define]
      split_ifs <;> rfl
  | reset => exact Memory.get_cleared a
  | restart => exact Memory.get_cleared a
  | moveTo address => rfl
  | setRadix radix => rfl

/-- What an action does to a name. -/
theorem get?_perform (name : Text) (b : Builder) (action : Action) :
    (b.perform action).symbols.get? name =
      (action.symbolChange name b.counter).after none (b.symbols.get? name) := by
  cases action with
  | define other line =>
      rw [perform_define, Action.symbolChange]
      split_ifs with hlt hset hset
      · rw [SymbolTable.get?_insert, if_pos hset.1.symm]
        rfl
      · rw [SymbolTable.get?_insert, if_neg fun heq => hset ⟨heq.symm, hlt⟩]
        rfl
      · exact absurd hset.2 hlt
      · rfl
  | emit word =>
      rw [perform_emit]
      split_ifs <;> rfl
  | _ => rfl

/-- Only definitions and a reset change the names. -/
theorem symbols_perform (hreset : action ≠ .reset)
    (hdefine : ∀ name line, action ≠ .define name line) :
    (b.perform action).symbols = b.symbols := by
  cases action with
  | reset => exact absurd rfl hreset
  | define name line => exact absurd rfl (hdefine name line)
  | emit word =>
      rw [perform_emit]
      split_ifs <;> rfl
  | _ => rfl

/-- An action that fails leaves the builder as it was. -/
theorem atomic_attempt (action : Action) : (attempt action).Atomic := by
  cases action with
  | emit word => exact (atomic_emit word).discard
  | define name line => exact (atomic_define name line).discard
  | reset => nofun
  | restart => nofun
  | moveTo address => nofun
  | setRadix radix => nofun

/-! ### A history -/

section View

variable {β : Type} {change : Nat → Action → Change β} {initial : β} (view : Builder → β)
  (hperform : ∀ b action, view (b.perform action) =
    (change b.counter action).after initial (view b))

include hperform

/-- What one action changes a history changes, action by action. -/
theorem performAll_eq_foldl (b : Builder) (history : List Action) :
    view (b.performAll history) =
      (Action.changes change b.counter history).foldl (Change.after initial) (view b) := by
  induction history generalizing b with
  | nil => rfl
  | cons action rest ih =>
      rw [Action.changes, List.foldl_cons, ← hperform, ← counter_perform]
      exact ih (b.perform action)

/-- What every action changes as told is there as it was told last. -/
theorem performAll_eq_iff_latest (hinitial : view {} = initial) {history : List Action}
    {value : β} : view (performAll {} history) = value ↔
      Change.Latest initial (Action.changes change 0 history) value := by
  have hview := performAll_eq_foldl view hperform {} history
  rw [hinitial] at hview
  exact (Eq.congr_left hview).trans Change.foldl_eq_iff_latest

end View

theorem counter_performAll (b : Builder) (history : List Action) :
    (b.performAll history).counter = history.foldl Action.move b.counter := by
  induction history generalizing b with
  | nil => rfl
  | cons action rest ih =>
      rw [List.foldl_cons, ← counter_perform]
      exact ih (b.perform action)

/-- Where the next word goes is never more than one past the end of memory. -/
theorem move_le {counter : Nat} (h : counter ≤ 4096) (action : Action) :
    action.move counter ≤ 4096 := by
  cases action with
  | emit word =>
      rw [Action.move]
      split_ifs with hlt
      · exact hlt
      · exact h
  | moveTo address => exact Nat.le_of_lt (Nat.mod_lt address (by decide))
  | define name line => exact h
  | setRadix radix => exact h
  | reset => exact Nat.zero_le 4096
  | restart => exact Nat.zero_le 4096

theorem counter_performAll_le (hb : b.counter ≤ 4096) (history : List Action) :
    (b.performAll history).counter ≤ 4096 := by
  rw [counter_performAll]
  exact List.foldlRecOn (motive := (· ≤ 4096)) history Action.move hb fun _ h action _ =>
    move_le h action

theorem get_performAll_eq_iff {history : List Action} {a w : Word} :
    (performAll {} history).image.get a = w ↔
      Change.Latest 0 (Action.changes (Action.wordChange a) 0 history) w :=
  performAll_eq_iff_latest (·.image.get a) (get_perform a) (Memory.get_cleared a)

theorem get?_performAll_eq_iff {history : List Action} {name : Text} {found : Option Symbol} :
    (performAll {} history).symbols.get? name = found ↔
      Change.Latest none (Action.changes (Action.symbolChange name) 0 history) found :=
  performAll_eq_iff_latest (·.symbols.get? name) (get?_perform name) rfl

/-! ### Bounds -/

/-- No number of a builder is too large. The place of the next word may be one past the end of
memory. -/
structure Bounded (b : Builder) : Prop where
  size : b.image.toList.length = 4096
  words : ∀ w ∈ b.image.toList, w.toNat ≤ 0o7777
  counter : b.counter ≤ 0o10000
  addresses : ∀ name s, b.symbols.get? name = some s → s.address ≤ 0o7777

/-- A change of a history is one by an action. -/
theorem Action.exists_of_mem_changes {β : Type} {change : Nat → Action → Change β} {c : Change β}
    {counter : Nat} {history : List Action} (h : c ∈ Action.changes change counter history) :
    ∃ counter' action, c = change counter' action := by
  induction history generalizing counter with
  | nil => cases h
  | cons action rest ih =>
      rcases List.mem_cons.mp h with rfl | hrest
      · exact ⟨counter, action, rfl⟩
      · exact ih hrest

/-- A name is given an address of memory. -/
theorem Action.address_le_of_symbolChange {name : Text} {counter : Nat} {s : Symbol}
    (h : action.symbolChange name counter = .set (some s)) : s.address ≤ 0o7777 := by
  cases action with
  | define other line =>
      rw [symbolChange] at h
      split_ifs at h with hset
      cases h
      exact Nat.le_of_lt_succ hset.2
  | _ => cases h

theorem bounded_performAll (history : List Action) : Bounded (performAll {} history) where
  size := Vector.length_toList
  words w _ := Nat.le_of_lt_succ w.isLt
  counter := counter_performAll_le (Nat.zero_le 4096) history
  addresses name s h := by
    have hmem := (get?_performAll_eq_iff.mp h).set_mem nofun
    obtain ⟨counter, action, hset⟩ := Action.exists_of_mem_changes hmem
    exact Action.address_le_of_symbolChange hset.symm

section Failure

variable {e : Error}

theorem location_eq_error_iff (hb : b.counter ≤ 4096) :
    b.location = .error e ↔ b.counter = 4096 ∧ e = .overflow := by
  rcases Nat.lt_or_eq_of_le hb with hlt | heq
  · rw [location_of_lt hlt]
    exact iff_of_false (fun h => by cases h) fun h => absurd h.1 (Nat.ne_of_lt hlt)
  · rw [location_of_le (Nat.le_of_eq heq.symm), and_iff_right heq, Except.error.injEq, eq_comm]

end Failure

/-- **A builder has what was last put into it.** After every history of actions, with any numbers,
it keeps its bounds, and the next word goes where the actions have moved it. A word of the image is
the one that was last emitted at its address since the last reset or restart, modulo 4096, and 0 if
none was. A name stands for the place and the line of its latest definition since the last reset,
and for nothing if there is none; no other action changes the symbols. There is no place for a word
or a name exactly if the counter is past the end of memory, which is the error, and the builder that
is left then is as it was, with its image, its counter, its symbols and its radix. No action that
fails leaves another. After a reset the builder is a new one. -/
theorem performAll_history (history : List Action) :
    let b := performAll {} history
    Bounded b ∧ b.counter = history.foldl Action.move 0 ∧
    (∀ a w, b.image.get a = w ↔
      Change.Latest 0 (Action.changes (Action.wordChange a) 0 history) w) ∧
    (∀ name found, b.symbols.get? name = found ↔
      Change.Latest none (Action.changes (Action.symbolChange name) 0 history) found) ∧
    (∀ action : Action, action ≠ .reset → (∀ name line, action ≠ .define name line) →
      (b.perform action).symbols = b.symbols) ∧
    (∀ e, b.location = .error e ↔ b.counter = 0o10000 ∧ e = .overflow) ∧
    (∀ word e b', emit word b = .error e b' ↔
      (b.counter = 0o10000 ∧ e = .overflow) ∧ b' = b) ∧
    (∀ name line e b', define name line b = .error e b' ↔
      (b.counter = 0o10000 ∧ e = .overflow) ∧ b' = b) ∧
    (∀ action e b', attempt action b = .error e b' → b' = b) ∧
    b.perform .reset = {} := by
  intro b
  have hlocation (e : Error) : b.location = .error e ↔ b.counter = 0o10000 ∧ e = .overflow :=
    location_eq_error_iff (counter_performAll_le (Nat.zero_le 4096) history)
  exact ⟨bounded_performAll history, counter_performAll {} history,
    fun _ _ => get_performAll_eq_iff, fun _ _ => get?_performAll_eq_iff,
    fun _ => symbols_perform, hlocation,
    fun _ e _ => emit_eq_error_iff.trans (and_congr_left' (hlocation e)),
    fun _ _ e _ => define_eq_error_iff.trans (and_congr_left' (hlocation e)),
    fun action _ _ h => atomic_attempt action h, rfl⟩

/-- The last word of memory is used up. What is asked for after that fails, and the words and names
that were there stay. -/
theorem performAll_history_past_the_end :
    let history : List Action :=
      [.emit 1, .define "A".toList 1, .moveTo 0o17777, .define "A".toList 2, .emit 0o12345,
        .define "A".toList 3, .emit 6, .setRadix .decimal]
    let b := performAll {} history
    b.counter = 0o10000 ∧ emit 7 b = .error .overflow b ∧
      define "B".toList 4 b = .error .overflow b ∧ b.image.get 0 = 1 ∧ b.image.get 0o7777 = 0o2345 ∧
      b.symbols.get? "A".toList = some { address := 0o7777, line := 2 } ∧
      (b.perform .restart).symbols = b.symbols := by
  intro history b
  obtain ⟨-, hcounter, himage, hsymbols, hkept, -, hemit, hdefine, -⟩ := performAll_history history
  have hcounter : b.counter = 0o10000 := hcounter
  refine ⟨hcounter, (hemit 7 .overflow b).mpr ⟨⟨hcounter, rfl⟩, rfl⟩,
    (hdefine "B".toList 4 .overflow b).mpr ⟨⟨hcounter, rfl⟩, rfl⟩, (himage 0 1).mpr ?_,
    (himage 0o7777 0o2345).mpr ?_, (hsymbols "A".toList (some _)).mpr ?_,
    hkept .restart nofun nofun⟩
  · have hcut : Action.changes (Action.wordChange 0) 0 history =
        [] ++ .set 1 :: List.replicate 7 .keep := rfl
    exact .set hcut (by decide)
  · have hcut : Action.changes (Action.wordChange 0o7777) 0 history =
        List.replicate 4 .keep ++ .set 0o2345 :: List.replicate 3 .keep := rfl
    exact .set hcut (by decide)
  · have hcut : Action.changes (Action.symbolChange "A".toList) 0 history =
        [.keep, .set (some ⟨1, 1⟩), .keep] ++
          .set (some ⟨0o7777, 2⟩) :: List.replicate 4 .keep := rfl
    exact .set hcut (by decide)

end Builder

end TwelveBit.Assembly
