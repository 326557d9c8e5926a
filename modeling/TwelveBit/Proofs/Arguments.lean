import TwelveBit.CommandLine.Report

/-!
# Reading arguments

Arguments are read from left to right on top of those read before, so arguments that have been read
well can be followed by others (`readRun_append`): reading goes on from the draft of what they ask
for. Only `--trace` asks for a trace (`trace_of_readRun`), and only where help is asked for is there
no message about what is wrong (`asksHelp_of_parse`).
-/

namespace TwelveBit.CommandLine

variable {d d' : Draft} {r : RunArguments} {argument value : Text} {arguments : List Text}
  {e : ArgumentError}

/-! ## One argument -/

/-- The draft from which reading goes on once all of this has been asked for. -/
def RunArguments.draft (r : RunArguments) : Draft where
  path := some r.path
  start := r.start
  switches := r.switches
  trace := r.trace
  limit := r.limit

namespace Draft

theorem finish_eq_ok_iff : d.finish = .ok r ↔ d = r.draft := by
  obtain ⟨path, start, switches, trace, limit⟩ := d
  obtain ⟨path', start', switches', trace', limit'⟩ := r
  cases path <;> simp [finish, RunArguments.draft]

theorem message_of_finish (h : d.finish = .error e) : e.message? ≠ none := by
  unfold finish at h
  split at h <;> cases h
  simp [ArgumentError.message?]

theorem trace_of_addPath (h : d.addPath argument = .ok d') : d'.trace = d.trace := by
  unfold addPath at h
  split at h
  · cases h
  · split at h <;> cases h
    rfl

theorem message_of_addPath (h : d.addPath argument = .error e) : e.message? ≠ none := by
  unfold addPath at h
  split at h
  · cases h
    simp [ArgumentError.message?]
  · split at h <;> cases h
    simp [ArgumentError.message?]

end Draft

namespace ValueOption

variable {option : ValueOption}

theorem trace_of_set (h : option.set d value = .ok d') : d'.trace = d.trace := by
  cases option with
  | limit =>
      rw [set] at h
      split at h <;> cases h
      rfl
  | _ =>
      rw [set] at h
      unfold word at h
      split at h <;> cases h
      rfl

theorem message_of_set (h : option.set d value = .error e) : e.message? ≠ none := by
  cases option with
  | limit =>
      rw [set] at h
      split at h <;> cases h
      simp [ArgumentError.message?]
  | _ =>
      rw [set] at h
      unfold word at h
      split at h <;> cases h
      simp [ArgumentError.message?]

end ValueOption

/-! ## Arguments of a run -/

/-- Reading goes on from what has been read. -/
theorem readRun_append (h : readRun d arguments = .ok r) (rest : List Text) :
    readRun d (arguments ++ rest) = readRun r.draft rest := by
  -- on the arguments, with their drafts, as they are read
  fun_induction readRun d arguments with
  | case1 d => rw [Draft.finish_eq_ok_iff.mp h, List.nil_append]
  | case3 d arguments help ih =>
      rw [List.cons_append, readRun, if_neg help, if_pos rfl]
      exact ih h
  | case6 d argument help trace option named value arguments d₁ taken ih =>
      simp only [List.cons_append, readRun, if_neg help, if_neg trace, named, taken]
      exact ih h
  | case8 d argument arguments help trace named d₁ taken ih =>
      simp only [List.cons_append, readRun, if_neg help, if_neg trace, named, taken]
      exact ih h
  | _ => cases h

/-- A trace is asked for by nothing else. -/
theorem trace_of_readRun (h : readRun d arguments = .ok r) (htrace : "--trace".toList ∉ arguments) :
    r.trace = d.trace := by
  fun_induction readRun d arguments with
  | case1 d =>
      rw [Draft.finish_eq_ok_iff.mp h]
      rfl
  | case3 d arguments help ih => exact absurd List.mem_cons_self htrace
  | case6 d argument help trace option named value arguments d₁ taken ih =>
      rw [ih h fun hmem => htrace (List.mem_cons_of_mem _ (List.mem_cons_of_mem _ hmem))]
      exact ValueOption.trace_of_set taken
  | case8 d argument arguments help trace named d₁ taken ih =>
      rw [ih h fun hmem => htrace (List.mem_cons_of_mem _ hmem)]
      exact Draft.trace_of_addPath taken
  | _ => cases h

theorem asksHelp_of_readRun (h : readRun d arguments = .error e) (he : e.message? = none) :
    e = .commandHelp ∧ ∃ argument ∈ arguments, asksHelp argument := by
  fun_induction readRun d arguments with
  | case1 d => exact absurd he (Draft.message_of_finish h)
  | case2 d argument arguments help =>
      cases h
      exact ⟨rfl, argument, List.mem_cons_self, help⟩
  | case3 d arguments help ih =>
      obtain ⟨hcommand, argument, hmem, help⟩ := ih h
      exact ⟨hcommand, argument, List.mem_cons_of_mem _ hmem, help⟩
  | case4 d argument help trace option named =>
      cases h
      cases he
  | case5 d argument help trace option named value arguments e refused =>
      cases h
      exact absurd he (ValueOption.message_of_set refused)
  | case6 d argument help trace option named value arguments d₁ taken ih =>
      obtain ⟨hcommand, argument, hmem, help⟩ := ih h
      exact ⟨hcommand, argument, List.mem_cons_of_mem _ (List.mem_cons_of_mem _ hmem), help⟩
  | case7 d argument arguments help trace named e refused =>
      cases h
      exact absurd he (Draft.message_of_addPath refused)
  | case8 d argument arguments help trace named d₁ taken ih =>
      obtain ⟨hcommand, argument, hmem, help⟩ := ih h
      exact ⟨hcommand, argument, List.mem_cons_of_mem _ hmem, help⟩

/-! ## Arguments of a listing -/

theorem asksHelp_of_readListing {path : Option Text} (h : readListing path arguments = .error e)
    (he : e.message? = none) : e = .commandHelp ∧ ∃ argument ∈ arguments, asksHelp argument := by
  fun_induction readListing path arguments with
  | case1 path => cases h
  | case3 path argument arguments help =>
      cases h
      exact ⟨rfl, argument, List.mem_cons_self, help⟩
  | case6 path argument arguments help option several ih =>
      obtain ⟨hcommand, argument, hmem, help⟩ := ih h
      exact ⟨hcommand, argument, List.mem_cons_of_mem _ hmem, help⟩
  | _ =>
      cases h
      cases he

/-! ## Commands -/

theorem parse_run (arguments : List Text) :
    Command.parse ("run".toList :: arguments) = (readRun {} arguments).map .run := by
  rw [Command.parse, if_neg (by decide), if_neg (by decide), if_pos rfl]

theorem parse_run_eq_ok_iff :
    Command.parse ("run".toList :: arguments) = .ok (.run r) ↔ readRun {} arguments = .ok r := by
  rw [parse_run]
  cases readRun {} arguments <;> simp [Except.map]

/-- The trace of a run can be asked for after everything else. -/
theorem parse_run_trace (h : Command.parse ("run".toList :: arguments) = .ok (.run r)) :
    Command.parse ("run".toList :: (arguments ++ ["--trace".toList])) =
      .ok (.run { r with trace := true }) := by
  rw [parse_run_eq_ok_iff] at h ⊢
  rw [readRun_append h]
  rfl

/-- Where arguments ask for no command and there is no message, help is asked for: in place of the
command, or among its arguments. -/
theorem asksHelp_of_parse (h : Command.parse arguments = .error e) (he : e.message? = none) :
    (e = .help ∧ ∃ argument rest, arguments = argument :: rest ∧ asksHelp argument) ∨
      (e = .commandHelp ∧ ∃ argument ∈ arguments.tail, asksHelp argument) := by
  have error_of_map {α : Type} {f : α → Command} {x : Except ArgumentError α}
      (h : x.map f = .error e) : x = .error e := by
    cases x with
    | error e' =>
        cases h
        rfl
    | ok value => cases h
  unfold Command.parse at h
  split at h
  · cases h
    cases he
  · next name rest =>
      split at h
      · next help =>
          cases h
          exact .inl ⟨rfl, name, rest, rfl, help⟩
      · split at h
        · exact .inr (asksHelp_of_readListing (error_of_map h) he)
        · split at h
          · exact .inr (asksHelp_of_readRun (error_of_map h) he)
          · cases h
            cases he

end TwelveBit.CommandLine
