import Mathlib.Data.List.DropRight
import TwelveBit.Assembly.Expression
import TwelveBit.Proofs.Text

/-!
# Tokens

A token is a maximal run of ASCII letters and digits: the names, mnemonics and numerals of a line
are its tokens, whatever stands between them. `Text.mapTokens` changes every token of a text and
keeps the rest.

If tokens become tokens (`Text.TokenMap`), the change commutes with all that cuts a text between its
tokens: with taking and dropping characters from the front (`takeWhile_mapTokens`), with trimming,
with cutting into words and lines (`splitOnP_mapTokens`), and with joining the words again. The proofs
go through a text token by token (`tokenInduction`).
-/

namespace TwelveBit

namespace Text

/-- One or more ASCII letters and digits. -/
structure IsToken (t : Text) : Prop where
  ne_nil : t ≠ []
  alphanum : ∀ c ∈ t, c.isAlphanum = true

theorem IsToken.isWord {t : Text} (h : IsToken t) : IsWord t :=
  isWord_of_isAlphanum h.ne_nil h.alphanum

/-- A token that stands before this text ends there. -/
def Cuts (t : Text) : Prop := ∀ c ∈ t.head?, c.isAlphanum = false

/-- A property that all letters and digits have, or none of them. -/
def Uniform (p : Char → Bool) : Prop := ∃ kind, ∀ c, c.isAlphanum = true → p c = kind

/-- Change the tokens of a text, when `token` is the part of the first one that has been read. -/
def mapTokensFrom (f : Text → Text) (token : Text) : Text → Text
  | [] => f token
  | c :: rest =>
    if c.isAlphanum then mapTokensFrom f (token ++ [c]) rest
    else f token ++ c :: mapTokensFrom f [] rest

/-- Change the tokens of a text, and keep what stands between them. -/
def mapTokens (f : Text → Text) (t : Text) : Text := mapTokensFrom f [] t

/-- A change of tokens makes them tokens again, and nothing out of nothing. -/
structure TokenMap (f : Text → Text) : Prop where
  nil : f [] = []
  isToken : ∀ {token : Text}, IsToken token → IsToken (f token)

variable {s t token : Text} {c : Char} {p : Char → Bool}

/-! ## Where tokens end -/

theorem cuts_nil : Cuts [] := by
  intro c hc
  simp at hc

theorem cuts_cons_iff : Cuts (c :: t) ↔ c.isAlphanum = false := by
  simp [Cuts]

theorem Cuts.of_prefix (h : Cuts t) (hs : s <+: t) : Cuts s := by
  cases s with
  | nil => exact cuts_nil
  | cons c s =>
      obtain ⟨rest, rfl⟩ := hs
      exact cuts_cons_iff.mpr (cuts_cons_iff.mp h)

theorem Cuts.append_cons (h : Cuts s) (hc : c.isAlphanum = false) (t : Text) :
    Cuts (s ++ c :: t) := by
  cases s with
  | nil => exact cuts_cons_iff.mpr hc
  | cons d s => exact cuts_cons_iff.mpr (cuts_cons_iff.mp h)

theorem cuts_dropWhile (t : Text) : Cuts (t.dropWhile Char.isAlphanum) := by
  intro c hc
  have h := List.head?_dropWhile_not Char.isAlphanum t
  rw [Option.mem_def] at hc
  rw [hc] at h
  exact h

theorem isToken_takeWhile (hc : c.isAlphanum = true) (t : Text) :
    IsToken ((c :: t).takeWhile Char.isAlphanum) where
  ne_nil := by
    rw [List.takeWhile_cons_of_pos hc]
    exact List.cons_ne_nil _ _
  alphanum := List.all_eq_true.mp List.all_takeWhile

theorem Cuts.takeWhile_append (ht : Cuts t) (htoken : IsToken token) :
    (token ++ t).takeWhile Char.isAlphanum = token := by
  rw [List.takeWhile_append_of_pos htoken.alphanum]
  cases t with
  | nil => rw [List.takeWhile_nil, List.append_nil]
  | cons c t => simp [cuts_cons_iff.mp ht]

theorem Cuts.dropWhile_append (ht : Cuts t) (htoken : IsToken token) :
    (token ++ t).dropWhile Char.isAlphanum = t := by
  rw [List.dropWhile_append_of_pos htoken.alphanum]
  cases t with
  | nil => rfl
  | cons c t => simp [cuts_cons_iff.mp ht]

/-- **Going through a text token by token.** -/
@[elab_as_elim]
theorem tokenInduction {motive : Text → Prop} (nil : motive [])
    (between : ∀ c t, c.isAlphanum = false → motive t → motive (c :: t))
    (token : ∀ token t, IsToken token → Cuts t → motive t → motive (token ++ t)) (t : Text) :
    motive t := by
  induction hlength : t.length using Nat.strong_induction_on generalizing t with
  | h n ih =>
    subst hlength
    cases t with
    | nil => exact nil
    | cons c t =>
        cases hc : c.isAlphanum with
        | false => exact between c t hc (ih _ (Nat.lt_succ_self _) t rfl)
        | true =>
            have hshort : ((c :: t).dropWhile Char.isAlphanum).length < (c :: t).length := by
              rw [List.dropWhile_cons_of_pos hc]
              exact Nat.lt_succ_of_le (List.dropWhile_sublist _).length_le
            rw [← List.takeWhile_append_dropWhile (p := Char.isAlphanum) (l := c :: t)]
            exact token _ _ (isToken_takeWhile hc t) (cuts_dropWhile _) (ih _ hshort _ rfl)

/-! ## Properties of characters -/

theorem uniform_isAlphanum : Uniform Char.isAlphanum := ⟨true, fun _ h => h⟩

theorem uniform_isBlank : Uniform isBlank := ⟨false, fun _ h => isBlank_of_isAlphanum h⟩

theorem isAlphanum_of_isBlank (hc : isBlank c = true) : c.isAlphanum = false := by
  rw [Bool.eq_false_iff]
  intro h
  rw [isBlank_of_isAlphanum h] at hc
  cases hc

/-- To be another character than one that is no letter and no digit. -/
theorem uniform_bne (hc : c.isAlphanum = false) : Uniform (· != c) := by
  refine ⟨true, fun d hd => ?_⟩
  rw [bne_iff_ne]
  rintro rfl
  rw [hd] at hc
  cases hc

theorem trimEnd_of_blank (s : Text) (hc : isBlank c = true) : trimEnd (s ++ [c]) = trimEnd s :=
  List.rdropWhile_concat_pos isBlank s c hc

/-- Dropping characters up to one stops at it. -/
theorem eq_of_dropWhile_bne {d : Char} (h : t.dropWhile (· != d) = c :: s) : c = d := by
  have hstop := List.head?_dropWhile_not (· != d) t
  rw [h] at hstop
  simpa using hstop

/-! ## Changing tokens -/

section Map

variable {f : Text → Text} (hf : TokenMap f)

theorem mapTokensFrom_append (f : Text → Text) (h : ∀ c ∈ s, c.isAlphanum = true) (token t : Text) :
    mapTokensFrom f token (s ++ t) = mapTokensFrom f (token ++ s) t := by
  induction s generalizing token with
  | nil => rw [List.nil_append, List.append_nil]
  | cons c s ih =>
      obtain ⟨hc, hs⟩ := List.forall_mem_cons.mp h
      rw [List.cons_append, mapTokensFrom, if_pos hc, ih hs, List.append_assoc]
      rfl

include hf

theorem mapTokens_nil : mapTokens f [] = [] := hf.nil

theorem mapTokens_cons (hc : c.isAlphanum = false) (t : Text) :
    mapTokens f (c :: t) = c :: mapTokens f t := by
  rw [mapTokens, mapTokensFrom, if_neg (Bool.eq_false_iff.mp hc), hf.nil]
  rfl

/-- A token at the front is changed, and then the tokens behind it. -/
theorem mapTokens_append (htoken : IsToken token) (ht : Cuts t) :
    mapTokens f (token ++ t) = f token ++ mapTokens f t := by
  rw [mapTokens, mapTokensFrom_append f htoken.alphanum, List.nil_append]
  cases t with
  | nil => rw [mapTokensFrom, mapTokens_nil hf, List.append_nil]
  | cons c t =>
      have hc := cuts_cons_iff.mp ht
      rw [mapTokensFrom, if_neg (Bool.eq_false_iff.mp hc), mapTokens_cons hf hc]
      rfl

theorem mapTokens_of_isToken (htoken : IsToken token) : mapTokens f token = f token := by
  have h := mapTokens_append hf htoken cuts_nil
  rwa [mapTokens_nil hf, List.append_nil, List.append_nil] at h

theorem mapTokens_takeWhile (t : Text) :
    mapTokens f (t.takeWhile Char.isAlphanum) = f (t.takeWhile Char.isAlphanum) := by
  cases t with
  | nil => rfl
  | cons c t =>
      cases hc : c.isAlphanum with
      | false =>
          rw [List.takeWhile_cons_of_neg (Bool.eq_false_iff.mp hc)]
          rfl
      | true => exact mapTokens_of_isToken hf (isToken_takeWhile hc t)

/-- Tokens end at a character between them, on both sides of it. -/
theorem mapTokens_append_cons (hc : c.isAlphanum = false) (s t : Text) :
    mapTokens f (s ++ c :: t) = mapTokens f s ++ c :: mapTokens f t := by
  induction s using tokenInduction with
  | nil => rw [List.nil_append, mapTokens_cons hf hc, mapTokens_nil hf, List.nil_append]
  | between d s hd ih => rw [List.cons_append, mapTokens_cons hf hd, ih, mapTokens_cons hf hd]; rfl
  | token token s htoken hs ih =>
      rw [List.append_assoc, mapTokens_append hf htoken (hs.append_cons hc t), ih,
        mapTokens_append hf htoken hs, List.append_assoc]

/-- A character between tokens stands in front of the changed text exactly if it stood in front of
the text. -/
theorem mapTokens_eq_cons_iff (hc : c.isAlphanum = false) :
    mapTokens f t = c :: s ↔ ∃ rest, t = c :: rest ∧ mapTokens f rest = s := by
  constructor
  · intro h
    induction t using tokenInduction with
    | nil =>
        rw [mapTokens_nil hf] at h
        cases h
    | between d t hd _ =>
        rw [mapTokens_cons hf hd] at h
        obtain ⟨rfl, rfl⟩ := List.cons.inj h
        exact ⟨t, rfl, rfl⟩
    | token token t htoken ht _ =>
        have hchanged := hf.isToken htoken
        obtain ⟨d, rest, hd⟩ := List.exists_cons_of_ne_nil hchanged.ne_nil
        rw [mapTokens_append hf htoken ht, hd] at h
        obtain ⟨rfl, -⟩ := List.cons.inj h
        rw [hchanged.alphanum d (hd ▸ List.mem_cons_self)] at hc
        cases hc
  · rintro ⟨rest, rfl, rfl⟩
    exact mapTokens_cons hf hc rest

theorem mapTokens_eq_nil_iff : mapTokens f t = [] ↔ t = [] := by
  constructor
  · intro h
    induction t using tokenInduction with
    | nil => rfl
    | between c t hc _ =>
        rw [mapTokens_cons hf hc] at h
        cases h
    | token token t htoken ht _ =>
        rw [mapTokens_append hf htoken ht] at h
        exact absurd (List.append_eq_nil_iff.mp h).1 (hf.isToken htoken).ne_nil
  · rintro rfl
    exact mapTokens_nil hf

/-- A character between tokens stands at the end of the changed text exactly if it stood at the end
of the text. -/
theorem mapTokens_eq_concat_iff (hc : c.isAlphanum = false) :
    mapTokens f t = s ++ [c] ↔ ∃ front, t = front ++ [c] ∧ mapTokens f front = s := by
  constructor
  · intro h
    induction t using tokenInduction generalizing s with
    | nil =>
        rw [mapTokens_nil hf] at h
        simp at h
    | between d t hd ih =>
        rw [mapTokens_cons hf hd] at h
        cases s with
        | nil =>
            obtain ⟨rfl, hnil⟩ := List.cons.inj h
            exact ⟨[], by rw [(mapTokens_eq_nil_iff hf).mp hnil]; rfl, mapTokens_nil hf⟩
        | cons e s =>
            obtain ⟨rfl, hrest⟩ := List.cons.inj h
            obtain ⟨front, rfl, rfl⟩ := ih hrest
            exact ⟨d :: front, rfl, mapTokens_cons hf hd front⟩
    | token token t htoken ht ih =>
        rw [mapTokens_append hf htoken ht] at h
        rcases List.eq_nil_or_concat (mapTokens f t) with hnil | ⟨front, d, hbehind⟩
        · -- then the token would end with the character
          have hmem : c ∈ f token := by
            rw [hnil, List.append_nil] at h
            rw [h]
            exact List.mem_append_right s List.mem_cons_self
          rw [(hf.isToken htoken).alphanum c hmem] at hc
          cases hc
        · rw [hbehind, List.concat_eq_append, ← List.append_assoc] at h
          rw [List.concat_eq_append] at hbehind
          obtain ⟨rfl, hlast⟩ := List.append_inj' h rfl
          obtain ⟨rfl, -⟩ := List.cons.inj hlast
          obtain ⟨front, rfl, rfl⟩ := ih hbehind
          have hfront := ht.of_prefix (List.prefix_append front [d])
          exact ⟨token ++ front, (List.append_assoc _ _ _).symm, mapTokens_append hf htoken hfront⟩
  · rintro ⟨front, rfl, rfl⟩
    rw [mapTokens_append_cons hf hc, mapTokens_nil hf]

theorem isEmpty_mapTokens (t : Text) : (mapTokens f t).isEmpty = t.isEmpty := by
  rw [Bool.eq_iff_iff, List.isEmpty_iff, List.isEmpty_iff, mapTokens_eq_nil_iff hf]

/-! ## Cutting between tokens -/

/-- Characters that are taken from the front up to a place between tokens. -/
theorem takeWhile_mapTokens (hp : Uniform p) (t : Text) :
    (mapTokens f t).takeWhile p = mapTokens f (t.takeWhile p) := by
  obtain ⟨kind, hkind⟩ := hp
  induction t using tokenInduction with
  | nil => rw [mapTokens_nil hf, List.takeWhile_nil, mapTokens_nil hf]
  | between c t hc ih =>
      rw [mapTokens_cons hf hc]
      cases h : p c with
      | false => simp [h, mapTokens_nil hf]
      | true => simp [h, ih, mapTokens_cons hf hc]
  | token token t htoken ht ih =>
      have hchanged := hf.isToken htoken
      rw [mapTokens_append hf htoken ht]
      cases kind with
      | true =>
          rw [List.takeWhile_append_of_pos fun c hc => hkind c (hchanged.alphanum c hc),
            List.takeWhile_append_of_pos fun c hc => hkind c (htoken.alphanum c hc), ih,
            mapTokens_append hf htoken (ht.of_prefix (List.takeWhile_prefix p))]
      | false =>
          have hnone {w : Text} (hw : IsToken w) (t : Text) : (w ++ t).takeWhile p = [] := by
            obtain ⟨c, rest, rfl⟩ := List.exists_cons_of_ne_nil hw.ne_nil
            simp [hkind c (hw.alphanum c List.mem_cons_self)]
          rw [hnone hchanged, hnone htoken, mapTokens_nil hf]

/-- Characters that are dropped from the front up to a place between tokens. -/
theorem dropWhile_mapTokens (hp : Uniform p) (t : Text) :
    (mapTokens f t).dropWhile p = mapTokens f (t.dropWhile p) := by
  obtain ⟨kind, hkind⟩ := hp
  induction t using tokenInduction with
  | nil => rw [mapTokens_nil hf, List.dropWhile_nil, mapTokens_nil hf]
  | between c t hc ih =>
      rw [mapTokens_cons hf hc]
      cases h : p c with
      | false => simp [h, mapTokens_cons hf hc]
      | true => simp [h, ih]
  | token token t htoken ht ih =>
      have hchanged := hf.isToken htoken
      rw [mapTokens_append hf htoken ht]
      cases kind with
      | true =>
          rw [List.dropWhile_append_of_pos fun c hc => hkind c (hchanged.alphanum c hc),
            List.dropWhile_append_of_pos fun c hc => hkind c (htoken.alphanum c hc), ih]
      | false =>
          have hall {w : Text} (hw : IsToken w) (t : Text) : (w ++ t).dropWhile p = w ++ t := by
            obtain ⟨c, rest, rfl⟩ := List.exists_cons_of_ne_nil hw.ne_nil
            simp [hkind c (hw.alphanum c List.mem_cons_self)]
          rw [hall hchanged, hall htoken, mapTokens_append hf htoken ht]

theorem all_mapTokens (hp : Uniform p) (t : Text) :
    (mapTokens f t).all p = t.all p := by
  rw [Bool.eq_iff_iff, List.all_eq_true, List.all_eq_true, ← List.dropWhile_eq_nil_iff,
    dropWhile_mapTokens hf hp, mapTokens_eq_nil_iff hf, List.dropWhile_eq_nil_iff]

/-- **No two texts become the same**, if no two tokens do. -/
theorem mapTokens_injective (hinjective : Function.Injective f) :
    Function.Injective (mapTokens f) := by
  intro s t h
  induction s using tokenInduction generalizing t with
  | nil =>
      rw [mapTokens_nil hf] at h
      exact ((mapTokens_eq_nil_iff hf).mp h.symm).symm
  | between c s hc ih =>
      rw [mapTokens_cons hf hc] at h
      obtain ⟨rest, rfl, hrest⟩ := (mapTokens_eq_cons_iff hf hc).mp h.symm
      rw [ih hrest.symm]
  | token token s htoken hs ih =>
      -- the first tokens are the same, and so is what stands behind them
      have hfirst := congrArg (List.takeWhile Char.isAlphanum) h
      have hbehind := congrArg (List.dropWhile Char.isAlphanum) h
      rw [takeWhile_mapTokens hf uniform_isAlphanum, takeWhile_mapTokens hf uniform_isAlphanum,
        mapTokens_takeWhile hf, mapTokens_takeWhile hf, hs.takeWhile_append htoken] at hfirst
      rw [dropWhile_mapTokens hf uniform_isAlphanum, dropWhile_mapTokens hf uniform_isAlphanum,
        hs.dropWhile_append htoken] at hbehind
      rw [hinjective hfirst, ih hbehind, List.takeWhile_append_dropWhile]

/-! ## Trimming -/

theorem trimStart_mapTokens (t : Text) : trimStart (mapTokens f t) = mapTokens f (trimStart t) :=
  dropWhile_mapTokens hf uniform_isBlank t

theorem trimEnd_mapTokens (t : Text) : trimEnd (mapTokens f t) = mapTokens f (trimEnd t) := by
  -- from the end: blanks there are no tokens, and what is not blank does not become blank
  induction t using List.reverseRecOn with
  | nil =>
      rw [mapTokens_nil hf]
      exact (mapTokens_nil hf).symm
  | append_singleton s c ih =>
      cases hblank : isBlank c with
      | true =>
          rw [mapTokens_append_cons hf (isAlphanum_of_isBlank hblank), mapTokens_nil hf,
            trimEnd_of_blank _ hblank, trimEnd_of_blank _ hblank, ih]
      | false =>
          rw [trimEnd_of_not_blank s hblank, trimEnd, ← List.rdropWhile,
            List.rdropWhile_eq_self_iff]
          intro hne hlast
          have hconcat := (List.dropLast_concat_getLast hne).symm
          obtain ⟨front, hfront, -⟩ :=
            (mapTokens_eq_concat_iff hf (isAlphanum_of_isBlank hlast)).mp hconcat
          obtain ⟨-, hc⟩ := List.append_inj' hfront rfl
          rw [(List.cons.inj hc).1, hlast] at hblank
          cases hblank

theorem trim_mapTokens (t : Text) : trim (mapTokens f t) = mapTokens f (trim t) := by
  rw [trim, trimStart_mapTokens hf, trimEnd_mapTokens hf, trim]

/-! ## Words -/

/-- **Cutting at separators commutes with changing tokens.** -/
theorem splitOnP_mapTokens (hp : ∀ c, c.isAlphanum = true → p c = false) (t : Text) :
    (mapTokens f t).splitOnP p = (t.splitOnP p).map (mapTokens f) := by
  have huniform : Uniform (!p ·) := ⟨true, fun c hc => congrArg not (hp c hc)⟩
  have hpiece {t : Text} (h : ∀ c ∈ t, p c = false) : ∀ c ∈ mapTokens f t, p c = false := by
    have hall : t.all (!p ·) = true := by simpa using h
    rw [← all_mapTokens hf huniform] at hall
    simpa using hall
  -- on the pieces: the first separator comes after the first piece
  induction hlength : t.length using Nat.strong_induction_on generalizing t with
  | h n ih =>
    subst hlength
    cases hfind : t.find? p with
    | none =>
        have hnone : ∀ c ∈ t, p c = false := by simpa using hfind
        rw [List.splitOnP_eq_singleton hnone, List.splitOnP_eq_singleton (hpiece hnone)]
        rfl
    | some c =>
        obtain ⟨hc, front, rest, rfl, hfront⟩ := List.find?_eq_some_iff_append.mp hfind
        have hfront : ∀ c ∈ front, p c = false := by simpa using hfront
        have hbetween : c.isAlphanum = false := by
          rw [Bool.eq_false_iff]
          intro h
          rw [hp c h] at hc
          cases hc
        have hshort : rest.length < (front ++ c :: rest).length := by simp; omega
        rw [mapTokens_append_cons hf hbetween,
          List.splitOnP_append_cons_of_forall_mem (hpiece hfront) c hc,
          List.splitOnP_append_cons_of_forall_mem hfront c hc, ih _ hshort rest rfl]
        rfl

/-- The words of a text have the same tokens in them. -/
theorem words_mapTokens (t : Text) : words (mapTokens f t) = (words t).map (mapTokens f) := by
  rw [words, words, splitOnP_mapTokens hf (fun c hc => isBlank_of_isAlphanum hc), List.filter_map]
  congr 2
  funext w
  exact congrArg not (isEmpty_mapTokens hf w)

theorem unwords_mapTokens (ws : List Text) :
    unwords (ws.map (mapTokens f)) = mapTokens f (unwords ws) := by
  induction ws with
  | nil => exact (mapTokens_nil hf).symm
  | cons w rest ih =>
      cases rest with
      | nil => rw [List.map_singleton, unwords_singleton, unwords_singleton]
      | cons v rest =>
          rw [List.map_cons, List.map_cons, unwords_cons_cons, ← List.map_cons, ih,
            unwords_cons_cons, mapTokens_append_cons hf (by decide)]

end Map

end Text

/-! ## Names and numerals -/

namespace Assembly

/-- A name is a token. -/
theorem isToken_of_isName {name : Text} (h : isName name = true) : Text.IsToken name := by
  cases name with
  | nil => cases h
  | cons c rest =>
      obtain ⟨hc, hrest⟩ := Bool.and_eq_true_iff.mp h
      refine ⟨List.cons_ne_nil c rest, List.forall_mem_cons.mpr ⟨?_, List.all_eq_true.mp hrest⟩⟩
      rw [Char.isAlphanum, hc, Bool.true_or]

/-- A numeral is a token. -/
theorem isToken_of_isDigits {digits : Text} (h : isDigits digits = true) :
    Text.IsToken digits := by
  obtain ⟨hne, hdigits⟩ := Bool.and_eq_true_iff.mp h
  refine ⟨by simpa using hne, fun c hc => ?_⟩
  exact isAlphanum_of_isDigit (List.all_eq_true.mp hdigits c hc)

/-- A numeral is no name. -/
theorem isName_of_isDigits {digits : Text} (h : isDigits digits = true) :
    isName digits = false := by
  obtain ⟨hne, hdigits⟩ := Bool.and_eq_true_iff.mp h
  cases digits with
  | nil => cases hne
  | cons c rest =>
      rw [isName, isAlpha_of_isDigit (List.all_eq_true.mp hdigits c List.mem_cons_self)]
      rfl

end Assembly

end TwelveBit
