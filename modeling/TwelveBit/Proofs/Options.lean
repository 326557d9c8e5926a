import Mathlib.Data.List.Forall2
import TwelveBit.Proofs.Arguments
import TwelveBit.Proofs.Literal

/-!
# What the arguments of a run say

The arguments of a run are groups, one after another and in any order: the path, `--trace`, or an
option and its value. `ArgumentGroup.Spells` says how a group is written, and `ArgumentGroup.Ask`
which run a row of groups asks for, kind by kind.

Arguments that are groups are read as the groups ask (`readRun_of_spellAll`), and no others are read
well (`exists_spellAll_of_readRun`). Nothing that a row asks for depends on how groups of different
options stand to each other, so these can change places. Both together are `readRun_groups`.
-/

namespace TwelveBit.CommandLine

open Assembly (Radix)
open Numeral (IsNumeral)

/-! ## Groups -/

/-- A part of the arguments that stands for itself. -/
inductive ArgumentGroup where
  | path (file : Text)
  | trace
  | setting (option : ValueOption) (value : Nat)
  deriving DecidableEq, Repr

/-- What a group is about. -/
inductive ArgumentGroup.Kind where
  | path
  | trace
  | setting (option : ValueOption)
  deriving DecidableEq, Repr

namespace ValueOption

/-- The base in which the value of an option is written. -/
def base : ValueOption → Nat
  | start => 8
  | switches => 8
  | limit => 10

/-- The values of an option are below this number. -/
def bound : ValueOption → Nat
  | start => 0o10000
  | switches => 0o10000
  | limit => 0x10000000000000000

end ValueOption

namespace ArgumentGroup

def kind : ArgumentGroup → Kind
  | path _ => .path
  | trace => .trace
  | setting option _ => .setting option

/-- A group is written in this way. A path is any argument that has not the form of an option. -/
inductive Spells : ArgumentGroup → List Text → Prop where
  | path {file : Text} (notOption : file.head? ≠ some '-') : Spells (.path file) [file]
  | trace : Spells .trace ["--trace".toList]
  | setting {option : ValueOption} {value : Nat} {numeral : Text}
      (written : IsNumeral option.base numeral value) (fits : value < option.bound) :
      Spells (.setting option value) [option.name, numeral]

/-- Arguments are these groups, written one after another. -/
def SpellAll (groups : List ArgumentGroup) (arguments : List Text) : Prop :=
  ∃ pieces, List.Forall₂ Spells groups pieces ∧ arguments = pieces.flatten

theorem SpellAll.cons {g : ArgumentGroup} {groups : List ArgumentGroup}
    {piece arguments : List Text} (here : g.Spells piece) (h : SpellAll groups arguments) :
    SpellAll (g :: groups) (piece ++ arguments) := by
  obtain ⟨pieces, hspells, rfl⟩ := h
  exact ⟨piece :: pieces, .cons here hspells, rfl⟩

/-! ### Views -/

def path? : ArgumentGroup → Option Text
  | path file => some file
  | _ => none

def value? (option : ValueOption) : ArgumentGroup → Option Nat
  | setting other value => if other = option then some value else none
  | _ => none

/-- What the last group that tells it tells. -/
def latest? {α : Type} (tells : ArgumentGroup → Option α) (groups : List ArgumentGroup) :
    Option α :=
  (groups.filterMap tells).getLast?

/-- What groups ask for: there is one path, and an option counts as it is given last. -/
structure Ask (groups : List ArgumentGroup) (r : RunArguments) : Prop where
  path : groups.filterMap path? = [r.path]
  start : r.start = (latest? (value? .start) groups).map Word.ofNat
  switches : r.switches = ((latest? (value? .switches) groups).map Word.ofNat).getD 0
  trace : r.trace = true ↔ ArgumentGroup.trace ∈ groups
  limit : r.limit = latest? (value? .limit) groups

variable {α : Type} {groups groups' : List ArgumentGroup} {kind : Kind}

theorem latest?_append (tells : ArgumentGroup → Option α) (first second : List ArgumentGroup) :
    latest? tells (first ++ second) = (latest? tells second).or (latest? tells first) := by
  rw [latest?, List.filterMap_append, List.getLast?_append]
  rfl

/-- What groups of one kind alone tell is told by the row of these. -/
theorem filterMap_filter_kind {tells : ArgumentGroup → Option α}
    (h : ∀ g x, tells g = some x → g.kind = kind) (groups : List ArgumentGroup) :
    (groups.filter (·.kind = kind)).filterMap tells = groups.filterMap tells := by
  rw [List.filterMap_filter]
  refine List.filterMap_congr fun g _ => ?_
  by_cases hkind : g.kind = kind
  · rw [if_pos (decide_eq_true hkind)]
  · rw [if_neg (by rw [decide_eq_true_iff]; exact hkind)]
    cases hg : tells g with
    | none => rfl
    | some x => exact absurd (h g x hg) hkind

/-- Rows that have the same groups of each kind in the same order are told alike. -/
theorem filterMap_eq_of_kinds {tells : ArgumentGroup → Option α}
    (hkinds : ∀ kind, groups.filter (·.kind = kind) = groups'.filter (·.kind = kind))
    (h : ∀ g x, tells g = some x → g.kind = kind) :
    groups.filterMap tells = groups'.filterMap tells := by
  rw [← filterMap_filter_kind h groups, hkinds, filterMap_filter_kind h]

theorem mem_trace_iff_of_kinds
    (hkinds : ∀ kind, groups.filter (·.kind = kind) = groups'.filter (·.kind = kind)) :
    trace ∈ groups ↔ trace ∈ groups' := by
  have hmem (row : List ArgumentGroup) :
      trace ∈ row ↔ trace ∈ row.filter (·.kind = Kind.trace) := by
    rw [List.mem_filter]
    exact (and_iff_left (decide_eq_true rfl)).symm
  rw [hmem, hkinds, ← hmem]

theorem kind_of_path? {g : ArgumentGroup} {file : Text} (h : g.path? = some file) :
    g.kind = .path := by
  cases g <;> cases h
  rfl

theorem kind_of_value? (option : ValueOption) {g : ArgumentGroup} {value : Nat}
    (h : g.value? option = some value) : g.kind = .setting option := by
  cases g with
  | setting other value =>
      rw [value?] at h
      split at h
      · next heq => exact congrArg Kind.setting heq
      · cases h
  | path file => cases h
  | trace => cases h

end ArgumentGroup

open ArgumentGroup (SpellAll Ask Spells path? value? latest? latest?_append)

/-! ## Drafts -/

/-- What groups ask for on top of a draft. -/
def Draft.asked (d : Draft) (groups : List ArgumentGroup) : Draft where
  path := (latest? path? groups).or d.path
  start := ((latest? (value? .start) groups).map Word.ofNat).or d.start
  switches := ((latest? (value? .switches) groups).map Word.ofNat).getD d.switches
  trace := d.trace || decide (ArgumentGroup.trace ∈ groups)
  limit := (latest? (value? .limit) groups).or d.limit

namespace Draft

variable {d : Draft} {groups : List ArgumentGroup} {r : RunArguments}

theorem asked_nil (d : Draft) : d.asked [] = d := by
  simp [asked, latest?]

/-- Groups are asked for one after another. -/
theorem asked_append (d : Draft) (first second : List ArgumentGroup) :
    d.asked (first ++ second) = (d.asked first).asked second := by
  simp only [asked, latest?_append, Draft.mk.injEq, Option.map_or, Option.or_assoc, true_and,
    List.mem_append, Bool.decide_or, Bool.or_assoc, and_true]
  cases latest? (value? .switches) second <;> rfl

theorem asked_path (d : Draft) (file : Text) :
    d.asked [.path file] = { d with path := some file } := by
  simp [asked, latest?, path?, value?]

theorem asked_trace (d : Draft) : d.asked [.trace] = { d with trace := true } := by
  simp [asked, latest?, path?, value?]

/-- Give an option a value. -/
def put (d : Draft) : ValueOption → Nat → Draft
  | .start, value => { d with start := some (Word.ofNat value) }
  | .switches, value => { d with switches := Word.ofNat value }
  | .limit, value => { d with limit := some value }

theorem asked_setting (d : Draft) (option : ValueOption) (value : Nat) :
    d.asked [.setting option value] = d.put option value := by
  cases option <;> simp [asked, put, latest?, path?, value?]

/-- What has been asked for is a run if there is one path. -/
theorem finish_asked_eq_ok_iff :
    (asked {} groups).finish = .ok r ∧ (groups.filterMap path?).length ≤ 1 ↔ Ask groups r := by
  rw [finish_eq_ok_iff, asked, RunArguments.draft, Draft.mk.injEq]
  simp only [Option.or_none, Bool.false_or]
  constructor
  · rintro ⟨⟨hpath, hstart, hswitches, htrace, hlimit⟩, hone⟩
    refine ⟨?_, hstart.symm, hswitches.symm, ?_, hlimit.symm⟩
    · obtain ⟨earlier, hlast⟩ := List.getLast?_eq_some_iff.mp hpath
      rw [hlast, List.length_append, List.length_singleton] at hone
      rw [hlast, List.eq_nil_of_length_eq_zero (Nat.le_zero.mp (Nat.le_of_succ_le_succ hone))]
      rfl
    · rw [← htrace, decide_eq_true_iff]
  · rintro ⟨hpath, hstart, hswitches, htrace, hlimit⟩
    refine ⟨⟨?_, hstart.symm, hswitches.symm, ?_, hlimit.symm⟩, ?_⟩
    · rw [latest?, hpath]
      rfl
    · rw [Bool.eq_iff_iff, decide_eq_true_iff, htrace]
    · rw [hpath]
      exact Nat.le_refl 1

end Draft

/-! ## Reading one group -/

namespace ValueOption

variable {option : ValueOption} {d d' : Draft} {argument numeral : Text} {value : Nat}

theorem ofName?_name (option : ValueOption) : ofName? option.name = some option := by
  cases option <;> decide

theorem name_of_ofName? (h : ofName? argument = some option) : option.name = argument := by
  rw [ofName?] at h
  have hname := List.find?_some h
  exact of_decide_eq_true hname

/-- A word is read from exactly the octal numerals of words. -/
theorem map_word_eq_ok_iff {f : Word → Draft} : (option.word numeral).map f = .ok d' ↔
    ∃ value, IsNumeral 8 numeral value ∧ value < 0o10000 ∧ d' = f (Word.ofNat value) := by
  have hword (w : Word) : Radix.octal.word? numeral = some w ↔ IsNumeral 8 numeral w.toNat :=
    Radix.word?_eq_some_iff
  constructor
  · intro h
    rw [word] at h
    split at h
    · next w hw =>
        cases h
        exact ⟨w.toNat, (hword w).mp hw, w.isLt, by rw [Word.ofNat_toNat]⟩
    · cases h
  · rintro ⟨value, written, fits, rfl⟩
    rw [word, (hword (Word.ofNat value)).mpr (by rwa [Word.toNat_ofNat_of_lt fits])]
    rfl

theorem readCount?_eq_some_iff :
    readCount? numeral = some value ↔
      IsNumeral 10 numeral value ∧ value < 0x10000000000000000 := by
  rw [← Numeral.read?_eq_some_iff (by decide), readCount?]
  cases Numeral.read? 10 numeral with
  | none => exact iff_of_false (fun h => by cases h) (fun h => by cases h.1)
  | some n =>
      dsimp only
      rw [Option.some.injEq]
      split
      · next hn =>
          rw [Option.some.injEq]
          exact ⟨fun h => ⟨h, h ▸ hn⟩, And.left⟩
      · next hn =>
          refine iff_of_false (fun h => by cases h) ?_
          rintro ⟨rfl, hlt⟩
          exact hn hlt

/-- An option takes exactly the numerals of its base whose value is not too large. -/
theorem set_eq_ok_iff : option.set d numeral = .ok d' ↔
    ∃ value, IsNumeral option.base numeral value ∧ value < option.bound ∧
      d' = d.put option value := by
  cases option with
  | start => exact map_word_eq_ok_iff
  | switches => exact map_word_eq_ok_iff
  | limit =>
      constructor
      · intro h
        rw [set] at h
        split at h
        · next value hvalue =>
            cases h
            obtain ⟨written, fits⟩ := readCount?_eq_some_iff.mp hvalue
            exact ⟨value, written, fits, rfl⟩
        · cases h
      · rintro ⟨value, written, fits, rfl⟩
        rw [set, readCount?_eq_some_iff.mpr ⟨written, fits⟩]
        rfl

end ValueOption

section Reading

variable {d : Draft} {file numeral : Text} {option : ValueOption} {value : Nat}

/-- An argument without a dash in front is the path. -/
theorem readRun_path (h : file.head? ≠ some '-') (d : Draft) (rest : List Text) :
    readRun d (file :: rest) =
      if d.path.isSome then .error .severalPaths
      else readRun { d with path := some file } rest := by
  have hne (name : Text) (hdash : name.head? = some '-') : file ≠ name := fun heq => h (heq ▸ hdash)
  have hhelp : ¬ asksHelp file = true := by
    rw [asksHelp, Bool.or_eq_true, decide_eq_true_iff, decide_eq_true_iff]
    exact not_or.mpr ⟨hne _ rfl, hne _ rfl⟩
  have hname : ValueOption.ofName? file = none := by
    refine Option.eq_none_iff_forall_ne_some.mpr fun option hoption => ?_
    refine hne option.name ?_ (ValueOption.name_of_ofName? hoption).symm
    cases option <;> rfl
  have hoption : ¬ isOption file = true := mt of_decide_eq_true h
  rw [readRun, if_neg hhelp, if_neg (hne _ rfl), hname]
  dsimp only
  rw [Draft.addPath, if_neg hoption]
  cases d.path <;> rfl

theorem readRun_trace (d : Draft) (rest : List Text) :
    readRun d ("--trace".toList :: rest) = readRun { d with trace := true } rest := by
  rw [readRun, if_neg (by decide), if_pos rfl]

/-- The value of an option is the next argument, whatever it looks like. -/
theorem readRun_setting (written : IsNumeral option.base numeral value)
    (fits : value < option.bound) (d : Draft) (rest : List Text) :
    readRun d (option.name :: numeral :: rest) = readRun (d.put option value) rest := by
  have hset : option.set d numeral = .ok (d.put option value) :=
    ValueOption.set_eq_ok_iff.mpr ⟨value, written, fits, rfl⟩
  have hhelp : ¬ asksHelp option.name = true := by cases option <;> decide
  have htrace : option.name ≠ "--trace".toList := by cases option <;> decide
  rw [readRun, if_neg hhelp, if_neg htrace, ValueOption.ofName?_name]
  dsimp only
  rw [hset]

end Reading

/-! ## Reading all of them -/

section Arguments

variable {d : Draft} {groups : List ArgumentGroup} {arguments : List Text} {r : RunArguments}

/-- **Groups are read as their views say.** There may be one path, and it is missed at the end. -/
theorem readRun_of_spellAll (h : SpellAll groups arguments) (d : Draft) :
    readRun d arguments =
      if (d.path.toList ++ groups.filterMap path?).length ≤ 1 then (d.asked groups).finish
      else .error .severalPaths := by
  obtain ⟨pieces, hspells, rfl⟩ := h
  induction hspells generalizing d with
  | nil =>
      have hone : (d.path.toList ++ [].filterMap path?).length ≤ 1 := by
        rw [List.filterMap_nil, List.append_nil]
        exact Option.length_toList_le
      rw [if_pos hone, Draft.asked_nil]
      rfl
  | @cons g piece groups pieces here rest ih =>
      rw [List.flatten_cons, ← List.singleton_append (x := g), Draft.asked_append]
      cases here with
      | path notOption =>
          rw [List.singleton_append, readRun_path notOption, ih, Draft.asked_path]
          cases d.path with
          | none => rfl
          | some other =>
              -- two paths are too many, whatever follows
              rw [if_pos Option.isSome_some]
              exact (if_neg (Nat.not_le.mpr (Nat.le_add_left 2 _))).symm
      | trace =>
          rw [List.singleton_append, readRun_trace, ih, Draft.asked_trace]
          rfl
      | @setting option value numeral written fits =>
          rw [List.cons_append, List.singleton_append, readRun_setting written fits, ih,
            Draft.asked_setting]
          cases option <;> rfl

/-- **Nothing else is read well.** -/
theorem exists_spellAll_of_readRun (h : readRun d arguments = .ok r) :
    ∃ groups, SpellAll groups arguments := by
  -- on the arguments, with their drafts, as they are read
  fun_induction readRun d arguments with
  | case1 d => exact ⟨[], [], .nil, rfl⟩
  | case3 d arguments help ih =>
      obtain ⟨groups, hgroups⟩ := ih h
      exact ⟨.trace :: groups, hgroups.cons .trace⟩
  | case6 d argument help trace option named numeral arguments d₁ taken ih =>
      obtain ⟨groups, hgroups⟩ := ih h
      obtain ⟨value, written, fits, -⟩ := ValueOption.set_eq_ok_iff.mp taken
      rw [← ValueOption.name_of_ofName? named]
      exact ⟨.setting option value :: groups, hgroups.cons (.setting written fits)⟩
  | case8 d argument arguments help trace named d₁ taken ih =>
      obtain ⟨groups, hgroups⟩ := ih h
      have notOption : argument.head? ≠ some '-' := fun hdash => by
        have hoption : isOption argument = true := decide_eq_true hdash
        rw [Draft.addPath, if_pos hoption] at taken
        cases taken
      exact ⟨.path argument :: groups, hgroups.cons (.path notOption)⟩
  | _ => cases h

/-- Arguments are read alike if they have the same groups of each kind in the same order. -/
theorem readRun_eq_of_kinds {groups' : List ArgumentGroup} {arguments' : List Text}
    (h : SpellAll groups arguments) (h' : SpellAll groups' arguments')
    (hkinds : ∀ kind, groups.filter (·.kind = kind) = groups'.filter (·.kind = kind)) :
    readRun {} arguments' = readRun {} arguments := by
  have hpaths := ArgumentGroup.filterMap_eq_of_kinds hkinds fun _ _ => ArgumentGroup.kind_of_path?
  have hvalues (option : ValueOption) :=
    ArgumentGroup.filterMap_eq_of_kinds hkinds fun _ _ => ArgumentGroup.kind_of_value? option
  have hasked : Draft.asked {} groups' = Draft.asked {} groups := by
    simp only [Draft.asked, latest?, hpaths, hvalues, ArgumentGroup.mem_trace_iff_of_kinds hkinds]
  rw [readRun_of_spellAll h, readRun_of_spellAll h', hpaths, hasked]

/-- **The arguments of a run are groups in any order.** Arguments are read well exactly if they are
one path, which has no dash in front, and any number of `--trace`, `--start v`, `--switches v` and
`--max-steps n`, in any order, where `v` is an octal numeral of a word and `n` is a decimal numeral
that fits into 64 bits, with one plus sign in front or none. The run has the path, the value that
each option is given last, no start, no switches and no limit for an option that is not given, and a
trace if `--trace` is there. So groups of different options can change places, also where the
arguments are no run because there is no path, or more than one. -/
theorem readRun_groups :
    (∀ (arguments : List Text) (r : RunArguments), readRun {} arguments = .ok r ↔
      ∃ groups, SpellAll groups arguments ∧ Ask groups r) ∧
    ∀ {groups groups' : List ArgumentGroup} {arguments arguments' : List Text},
      SpellAll groups arguments → SpellAll groups' arguments' →
      (∀ kind, groups.filter (·.kind = kind) = groups'.filter (·.kind = kind)) →
      readRun {} arguments' = readRun {} arguments := by
  refine ⟨fun arguments r => ⟨fun h => ?_, ?_⟩, readRun_eq_of_kinds⟩
  · obtain ⟨groups, hgroups⟩ := exists_spellAll_of_readRun h
    refine ⟨groups, hgroups, Draft.finish_asked_eq_ok_iff.mp ?_⟩
    rw [readRun_of_spellAll hgroups] at h
    split at h
    · next hone => exact ⟨h, hone⟩
    · cases h
  · rintro ⟨groups, hgroups, hask⟩
    obtain ⟨hfinish, hone⟩ := Draft.finish_asked_eq_ok_iff.mpr hask
    rw [readRun_of_spellAll hgroups]
    exact (if_pos hone).trans hfinish

/-- The options change places around the path and around each other. One is given twice, and has
zeros enough in front to be longer than any number of 64 bits. -/
theorem readRun_groups_around_the_path :
    let groups : List ArgumentGroup :=
      [.setting .start 0o7777, .path "a.pal", .setting .limit 0xffffffffffffffff, .trace,
        .setting .start 0o200]
    let groups' : List ArgumentGroup :=
      [.setting .limit 0xffffffffffffffff, .setting .start 0o7777, .trace, .setting .start 0o200,
        .path "a.pal"]
    let arguments : List Text :=
      ["--start", "7777", "a.pal", "--max-steps", "+0000018446744073709551615", "--trace",
        "--start", "+00000000000000000000000200"].map String.toList
    let arguments' : List Text :=
      ["--max-steps", "18446744073709551615", "--start", "+07777", "--trace", "--start", "200",
        "a.pal"].map String.toList
    let r : RunArguments :=
      { path := "a.pal", start := some 0o200, trace := true, limit := some 0xffffffffffffffff }
    SpellAll groups arguments ∧ SpellAll groups' arguments' ∧
      (∀ kind, groups.filter (·.kind = kind) = groups'.filter (·.kind = kind)) ∧
      readRun {} arguments' = readRun {} arguments ∧ readRun {} arguments = .ok r := by
  intro groups groups' arguments arguments' r
  have hset {option : ValueOption} {value : Nat} {numeral : Text}
      (hread : Numeral.read? option.base numeral = some value) (fits : value < option.bound) :
      Spells (.setting option value) [option.name, numeral] :=
    .setting ((Numeral.read?_eq_some_iff (by cases option <;> decide)).mp hread) fits
  have hfile : Spells (.path "a.pal") ["a.pal".toList] := .path (by decide)
  have hspells : SpellAll groups arguments :=
    ⟨[_, _, _, _, _], .cons (hset (by decide) (by decide)) <| .cons hfile <|
      .cons (hset (by decide) (by decide)) <| .cons .trace <|
      .cons (hset (by decide) (by decide)) .nil, rfl⟩
  have hspells' : SpellAll groups' arguments' :=
    ⟨[_, _, _, _, _], .cons (hset (by decide) (by decide)) <|
      .cons (hset (by decide) (by decide)) <| .cons .trace <|
      .cons (hset (by decide) (by decide)) <| .cons hfile .nil, rfl⟩
  have hkinds (kind : ArgumentGroup.Kind) :
      groups.filter (·.kind = kind) = groups'.filter (·.kind = kind) := by
    cases kind with
    | path => rfl
    | trace => rfl
    | setting option => cases option <;> rfl
  have hask : Ask groups r := ⟨rfl, rfl, rfl, by decide, rfl⟩
  exact ⟨hspells, hspells', hkinds, readRun_groups.2 hspells hspells' hkinds,
    (readRun_groups.1 _ _).mpr ⟨groups, hspells, hask⟩⟩

end Arguments

end TwelveBit.CommandLine
