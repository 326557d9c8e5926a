import Mathlib.Logic.Equiv.Basic
import TwelveBit.Assembly.Line
import TwelveBit.Proofs.Tokens

/-!
# Renaming names

A name is reserved if the assembler gives it a meaning of its own, and free otherwise. A `Renaming`
takes names to names, no two of them to the same, and free names to free names.

On a text it acts by the tokens (`Renaming.text`): tokens that are free names are renamed, and all
the rest is kept. So names stay names and numerals stay what they are, no two texts become the same,
and a text is a reserved name exactly if it was that name before (`Renaming.text_eq_reserved_iff`).
On what has been read from a line it acts by the names that stand in it (`Line.mapNames`).
-/

namespace TwelveBit.Assembly

/-! ## Names in a line -/

def Term.names : Term → List Text
  | symbol name => [name]
  | _ => []

def Term.mapNames (f : Text → Text) : Term → Term
  | symbol name => symbol (f name)
  | t => t

def Expression.names (e : Expression) : List Text :=
  e.first.names ++ (e.second.toList.flatMap fun (_, term) => term.names)

def Expression.mapNames (f : Text → Text) (e : Expression) : Expression where
  negated := e.negated
  first := e.first.mapNames f
  second := e.second.map fun (operator, term) => (operator, term.mapNames f)

def Item.names : Item → List Text
  | reference _ _ _ operand => operand.names
  | constant value => value.names
  | _ => []

def Item.mapNames (f : Text → Text) : Item → Item
  | reference opcode indirect pageZero operand =>
    reference opcode indirect pageZero (operand.mapNames f)
  | constant value => constant (value.mapNames f)
  | item => item

def Statement.names : Statement → List Text
  | emit item => item.names
  | _ => []

def Statement.mapNames (f : Text → Text) : Statement → Statement
  | emit item => emit (item.mapNames f)
  | s => s

/-- The label of a line and the symbols that it refers to. -/
def Line.names (l : Line) : List Text := l.label.toList ++ l.statement.names

def Line.mapNames (f : Text → Text) (l : Line) : Line where
  label := l.label.map f
  statement := l.statement.mapNames f

/-- The names in a line of a source, if it can be read. -/
def SourceLine.names (l : SourceLine) : List Text :=
  match l.parse with
  | .ok line => line.names
  | .error _ => []

section Congruence

variable {f g : Text → Text}

theorem Term.mapNames_congr {t : Term} (h : ∀ name ∈ t.names, f name = g name) :
    t.mapNames f = t.mapNames g := by
  cases t with
  | symbol name => exact congrArg symbol (h name List.mem_cons_self)
  | here => rfl
  | literal digits => rfl

theorem Expression.mapNames_congr {e : Expression} (h : ∀ name ∈ e.names, f name = g name) :
    e.mapNames f = e.mapNames g := by
  obtain ⟨negated, first, second⟩ := e
  obtain ⟨hfirst, hsecond⟩ := List.forall_mem_append.mp h
  unfold mapNames
  rw [Term.mapNames_congr hfirst]
  cases second with
  | none => rfl
  | some part =>
      obtain ⟨operator, term⟩ := part
      have hterm : ∀ name ∈ term.names, f name = g name := by simpa using hsecond
      simp only [Option.map_some, Term.mapNames_congr hterm]

/-- Only what becomes of the names in a line matters to it. -/
theorem Line.mapNames_congr {l : Line} (h : ∀ name ∈ l.names, f name = g name) :
    l.mapNames f = l.mapNames g := by
  obtain ⟨label, statement⟩ := l
  obtain ⟨hlabel, hstatement⟩ := List.forall_mem_append.mp h
  have hlabels : label.map f = label.map g := by
    cases label with
    | none => rfl
    | some name => exact congrArg some (hlabel name List.mem_cons_self)
  have hstatements : statement.mapNames f = statement.mapNames g := by
    cases statement with
    | emit item =>
        cases item with
        | reference opcode indirect pageZero operand =>
            simp only [Statement.mapNames, Item.mapNames, Expression.mapNames_congr hstatement]
        | constant value =>
            simp only [Statement.mapNames, Item.mapNames, Expression.mapNames_congr hstatement]
        | _ => rfl
    | _ => rfl
  unfold mapNames
  rw [hlabels, hstatements]

end Congruence

/-! ## Renamings -/

/-- The names that mean something to the assembler: the flags of a memory reference, the directives
and the mnemonics. -/
def reservedNames : List Text :=
  ["I".toList, "Z".toList, "OCTAL".toList, "DECIMAL".toList] ++
    (Mnemonic.memoryReferences ++ Mnemonic.groupOne ++ Mnemonic.groupTwo ++
      Mnemonic.inputOutput).map Prod.fst

/-- Whether a text is a name that is not reserved. -/
def isFree (name : Text) : Bool := isName name && !reservedNames.contains name

/-- New names for old ones. -/
structure Renaming where
  rename : Text → Text
  isName_rename : ∀ {name : Text}, isName name = true → isName (rename name) = true
  injective : ∀ {name other : Text}, isName name = true → isName other = true →
    rename name = rename other → name = other
  isFree_rename : ∀ {name : Text}, isFree name = true → isFree (rename name) = true

theorem isName_of_mem_reservedNames : ∀ name ∈ reservedNames, isName name = true := by decide

theorem isName_of_isFree {name : Text} (h : isFree name = true) : isName name = true :=
  (Bool.and_eq_true_iff.mp h).1

/-- Two free names in each other's place. -/
def Renaming.swap (name other : Text) (hname : isFree name = true) (hother : isFree other = true) :
    Renaming where
  rename := Equiv.swap name other
  isName_rename {n} h := by
    rw [Equiv.swap_apply_def]
    split
    · exact isName_of_isFree hother
    · split
      · exact isName_of_isFree hname
      · exact h
  injective _ _ h := (Equiv.swap name other).injective h
  isFree_rename {n} h := by
    rw [Equiv.swap_apply_def]
    split
    · exact hother
    · split
      · exact hname
      · exact h

namespace Renaming

variable (ρ : Renaming) {t : Text}

/-! ### Tokens -/

/-- What becomes of a token: free names are renamed. -/
def token (t : Text) : Text := if isFree t then ρ.rename t else t

theorem token_of_isFree (h : isFree t = true) : ρ.token t = ρ.rename t := if_pos h

theorem token_of_not_isFree (h : isFree t = false) : ρ.token t = t :=
  if_neg (Bool.eq_false_iff.mp h)

theorem isFree_token (t : Text) : isFree (ρ.token t) = isFree t := by
  cases h : isFree t with
  | true => rw [ρ.token_of_isFree h, ρ.isFree_rename h]
  | false => rw [ρ.token_of_not_isFree h, h]

theorem isName_token (t : Text) : isName (ρ.token t) = isName t := by
  cases h : isFree t with
  | true =>
      rw [ρ.token_of_isFree h, isName_of_isFree h, ρ.isName_rename (isName_of_isFree h)]
  | false => rw [ρ.token_of_not_isFree h]

theorem token_of_not_isName (h : isName t = false) : ρ.token t = t := by
  apply token_of_not_isFree
  rw [isFree, h, Bool.false_and]

theorem isDigits_token (t : Text) : isDigits (ρ.token t) = isDigits t := by
  cases h : isName t with
  | false => rw [ρ.token_of_not_isName h]
  | true =>
      -- names are no numerals, before and after
      have hnot {name : Text} (h : isName name = true) : isDigits name = false := by
        rw [Bool.eq_false_iff]
        intro hdigits
        rw [isName_of_isDigits hdigits] at h
        cases h
      rw [hnot h, hnot ((ρ.isName_token t).trans h)]

theorem token_injective : Function.Injective ρ.token := by
  intro s t h
  have hkind := congrArg isFree h
  rw [isFree_token, isFree_token] at hkind
  cases hs : isFree s with
  | true =>
      have ht := hkind.symm.trans hs
      rw [ρ.token_of_isFree hs, ρ.token_of_isFree ht] at h
      exact ρ.injective (isName_of_isFree hs) (isName_of_isFree ht) h
  | false =>
      rwa [ρ.token_of_not_isFree hs, ρ.token_of_not_isFree (hkind.symm.trans hs)] at h

theorem tokenMap : Text.TokenMap ρ.token where
  nil := rfl
  isToken {t} h := by
    cases hname : isName t with
    | false => rwa [ρ.token_of_not_isName hname]
    | true => exact isToken_of_isName ((ρ.isName_token t).trans hname)

/-! ### Texts -/

/-- A text without a comment, with its free names renamed. -/
abbrev text (t : Text) : Text := Text.mapTokens ρ.token t

theorem text_injective : Function.Injective ρ.text :=
  Text.mapTokens_injective ρ.tokenMap ρ.token_injective

/-- What is made of letters and digits only is a token before if it is one after. -/
theorem isToken_text_iff : Text.IsToken (ρ.text t) ↔ Text.IsToken t := by
  constructor
  · intro h
    refine ⟨mt (Text.mapTokens_eq_nil_iff ρ.tokenMap).mpr h.ne_nil, ?_⟩
    rw [← List.all_eq_true, ← Text.all_mapTokens ρ.tokenMap Text.uniform_isAlphanum]
    exact List.all_eq_true.mpr h.alphanum
  · intro h
    rw [text, Text.mapTokens_of_isToken ρ.tokenMap h]
    exact ρ.tokenMap.isToken h

/-- A property that only tokens have, and that tokens keep. -/
theorem property_text {property : Text → Bool} (htoken : ∀ {t}, property t = true → Text.IsToken t)
    (hkept : ∀ t, property (ρ.token t) = property t) (t : Text) :
    property (ρ.text t) = property t := by
  by_cases h : Text.IsToken t
  · rw [text, Text.mapTokens_of_isToken ρ.tokenMap h, hkept]
  · have hnot : property t = false := by
      rw [Bool.eq_false_iff]
      exact mt htoken h
    have hnot' : property (ρ.text t) = false := by
      rw [Bool.eq_false_iff]
      exact mt htoken (mt ρ.isToken_text_iff.mp h)
    rw [hnot, hnot']

theorem isName_text (t : Text) : isName (ρ.text t) = isName t :=
  ρ.property_text isToken_of_isName ρ.isName_token t

theorem isDigits_text (t : Text) : isDigits (ρ.text t) = isDigits t :=
  ρ.property_text isToken_of_isDigits ρ.isDigits_token t

theorem text_of_isName (h : isName t = true) : ρ.text t = ρ.token t :=
  Text.mapTokens_of_isToken ρ.tokenMap (isToken_of_isName h)

theorem text_of_isDigits (h : isDigits t = true) : ρ.text t = t := by
  rw [text, Text.mapTokens_of_isToken ρ.tokenMap (isToken_of_isDigits h),
    ρ.token_of_not_isName (isName_of_isDigits h)]

/-- A reserved name stands exactly where it stood. -/
theorem text_eq_reserved_iff {name : Text} (h : name ∈ reservedNames) :
    ρ.text t = name ↔ t = name := by
  have hkept : ρ.text name = name := by
    rw [ρ.text_of_isName (isName_of_mem_reservedNames name h), token_of_not_isFree]
    simp [isFree, h]
  constructor
  · intro heq
    exact ρ.text_injective (heq.trans hkept.symm)
  · rintro rfl
    exact hkept

end Renaming

end TwelveBit.Assembly
