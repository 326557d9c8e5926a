import TwelveBit.Proofs.Failure

/-!
# Evaluation is arithmetic

A term stands for a number that need not fit into a word (`Term.number?`), and an expression for an
integer that is computed from the numbers of its terms (`Expression.integer`). The assembler
computes in sixteen bits instead, where numbers wrap around, and takes the low twelve bits of what
comes out. Negation, sum and difference in sixteen bits are those of the integers modulo 65536
(`Operator.apply_ofInt`), which is a multiple of 4096, so the word is the same
(`Expression.evaluate_of_numbers`).

A term without a number has an error of its own (`Term.complaint?`). Evaluation goes from left to
right, so the error of an expression is that of its leftmost term without a number
(`Expression.evaluate_of_no_number`).
-/

namespace TwelveBit.Assembly

variable {location : Nat} {symbols : SymbolTable} {radix : Radix}

/-! ## Terms -/

namespace Term

/-- The number that a term stands for, if it stands for one: the location and the address of a
symbol as they are, and the value of a literal that fits into a word. -/
def number? (t : Term) (location : Nat) (symbols : SymbolTable) (radix : Radix) : Option Nat :=
  match t with
  | here => some location
  | symbol name => symbols.address? name
  | literal digits => (Numeral.read? radix.base digits).filter (· < 4096)

/-- The error of a term without a number. The location always is one. -/
def complaint? : Term → Option Error
  | here => none
  | symbol name => some (.undefinedSymbol name)
  | literal digits => some (.invalidLiteral digits)

variable {t : Term}

/-- A literal stands for its number or for nothing. -/
theorem word?_eq (radix : Radix) (digits : Text) : radix.word? digits =
    ((literal digits).number? location symbols radix).map Word.ofNat := by
  rw [number?, Radix.word?]
  cases Numeral.read? radix.base digits with
  | none => rfl
  | some n => by_cases hn : n < 4096 <;> simp [Option.filter, hn]

/-- A term is worth its number modulo 65536. -/
theorem evaluate_of_number {n : Nat} (h : t.number? location symbols radix = some n) :
    t.evaluate location symbols radix = .ok (BitVec.ofInt 16 n) := by
  rw [BitVec.ofInt_natCast]
  cases t with
  | here =>
      cases h
      rfl
  | symbol name =>
      have haddress : symbols.address? name = some n := h
      rw [evaluate, haddress]
  | literal digits =>
      have hn : n < 4096 := of_decide_eq_true (Option.filter_eq_some_iff.mp h).2
      have hwide : (Word.ofNat n).setWidth 16 = BitVec.ofNat 16 n := by
        rw [Word.ofNat, BitVec.setWidth_ofNat_of_le_of_lt (by decide) hn]
      rw [evaluate, Radix.literal, word?_eq, h]
      exact congrArg Except.ok hwide

theorem evaluate_of_no_number (h : t.number? location symbols radix = none) :
    ∃ error, t.complaint? = some error ∧ t.evaluate location symbols radix = .error error := by
  cases t with
  | here => cases h
  | symbol name =>
      have haddress : symbols.address? name = none := h
      refine ⟨_, rfl, ?_⟩
      rw [evaluate, haddress]
  | literal digits =>
      refine ⟨_, rfl, ?_⟩
      rw [evaluate, Radix.literal, word?_eq, h]
      rfl

end Term

/-! ## Expressions -/

/-- The sign with which an operator joins a term. -/
def Operator.sign : Operator → Int
  | plus => 1
  | minus => -1

/-- Terms are joined as integers are. -/
theorem Operator.apply_ofInt (operator : Operator) (k n : Int) :
    operator.apply (BitVec.ofInt 16 k) (BitVec.ofInt 16 n) =
      BitVec.ofInt 16 (k + operator.sign * n) := by
  cases operator with
  | plus => rw [apply, sign, Int.one_mul, BitVec.ofInt_add]
  | minus => rw [apply, sign, Int.neg_one_mul, BitVec.ofInt_add, BitVec.ofInt_neg,
      BitVec.sub_eq_add_neg]

/-- The low twelve bits of an integer do not depend on the other four. -/
theorem setWidth_ofInt (k : Int) : (BitVec.ofInt 16 k : Wide).setWidth 12 = BitVec.ofInt 12 k := by
  apply BitVec.eq_of_toNat_eq
  rw [BitVec.toNat_setWidth, BitVec.toNat_ofInt, BitVec.toNat_ofInt]
  omega

namespace Expression

variable {e : Expression}

/-- The terms from left to right. -/
def terms (e : Expression) : List Term := e.first :: (e.second.map (·.2)).toList

/-- The integer that an expression stands for, when its terms stand for numbers. The minus sign in
front belongs to the first term alone. -/
def integer (e : Expression) (number : Term → Nat) : Int :=
  (if e.negated then -1 else 1) * number e.first +
    match e.second with
    | none => 0
    | some (operator, term) => operator.sign * number term

theorem evaluate_of_numbers {number : Term → Nat}
    (h : ∀ t ∈ e.terms, t.number? location symbols radix = some (number t)) :
    e.evaluate location symbols radix = .ok (BitVec.ofInt 12 (e.integer number)) := by
  obtain ⟨negated, first, second⟩ := e
  have hfirst : first.evaluate location symbols radix = .ok (BitVec.ofInt 16 (number first)) :=
    Term.evaluate_of_number (h first List.mem_cons_self)
  let value := BitVec.ofInt 16 (number first)
  have hsigned : (if negated then -value else value) =
      BitVec.ofInt 16 ((if negated then -1 else 1) * number first) := by
    cases negated with
    | false => exact congrArg (BitVec.ofInt 16) (Int.one_mul _).symm
    | true => exact BitVec.ofInt_neg.symm.trans (congrArg _ (Int.neg_one_mul _).symm)
  rw [evaluate_eq, hfirst, integer]
  dsimp only
  rw [hsigned]
  rcases second with _ | ⟨operator, term⟩
  · rw [Int.add_zero, setWidth_ofInt]
  · have hterm : term.evaluate location symbols radix = .ok (BitVec.ofInt 16 (number term)) :=
      Term.evaluate_of_number (h term (by simp [terms]))
    dsimp only
    rw [hterm, Except.map, Operator.apply_ofInt, setWidth_ofInt]

theorem evaluate_of_no_number {front back : List Term} {t : Term}
    (hterms : e.terms = front ++ t :: back)
    (hfront : ∀ s ∈ front, s.number? location symbols radix ≠ none)
    (h : t.number? location symbols radix = none) :
    ∃ error, t.complaint? = some error ∧ e.evaluate location symbols radix = .error error := by
  obtain ⟨error, hcomplaint, herror⟩ := Term.evaluate_of_no_number h
  refine ⟨error, hcomplaint, ?_⟩
  obtain ⟨negated, first, second⟩ := e
  rw [evaluate_eq]
  rcases front with _ | ⟨s, front⟩
  · obtain ⟨rfl, -⟩ := List.cons.inj hterms
    dsimp only
    rw [herror]
  · obtain ⟨rfl, hrest⟩ := List.cons.inj hterms
    obtain ⟨n, hn⟩ := Option.ne_none_iff_exists'.mp (hfront first List.mem_cons_self)
    dsimp only
    rw [Term.evaluate_of_number hn]
    dsimp only
    rcases second with _ | ⟨operator, term⟩
    · cases front <;> cases hrest
    · rcases front with _ | ⟨s', front⟩
      · obtain ⟨rfl, -⟩ := List.cons.inj hrest
        exact map_eq_error_iff.mpr herror
      · cases front <;> cases hrest

/-- **Evaluation is arithmetic modulo 4096.** If every term stands for a number, the expression
stands for the word of its integer. Otherwise it has the error of the leftmost term that does
not. -/
theorem evaluate_arithmetic (e : Expression) (location : Nat) (symbols : SymbolTable)
    (radix : Radix) :
    (∀ number : Term → Nat,
      (∀ t ∈ e.terms, t.number? location symbols radix = some (number t)) →
      ∃ w, e.evaluate location symbols radix = .ok w ∧ (w.toNat : Int) = e.integer number % 4096) ∧
    ∀ front t back, e.terms = front ++ t :: back →
      (∀ s ∈ front, s.number? location symbols radix ≠ none) →
      t.number? location symbols radix = none →
      ∃ error, t.complaint? = some error ∧ e.evaluate location symbols radix = .error error := by
  refine ⟨?_, fun front t back => evaluate_of_no_number⟩
  intro number h
  refine ⟨_, evaluate_of_numbers h, ?_⟩
  rw [BitVec.toNat_ofInt]
  exact Int.toNat_of_nonneg (Int.emod_nonneg _ (by decide))

/-- Numbers may be larger than words, and an expression is below zero; and a literal that is not
octal is complained about before a name that stands for nothing. -/
theorem evaluate_arithmetic_of_two_terms :
    let symbols := ({} : SymbolTable).insert ['A'] { address := 65535, line := 1 }
    let e : Expression := ⟨true, .symbol ['A'], some (.minus, .here)⟩
    let e' : Expression := ⟨false, .literal ['9'], some (.plus, .symbol ['B'])⟩
    (∃ w, e.evaluate 40000 symbols .octal = .ok w ∧ (w.toNat : Int) = 961) ∧
      e'.evaluate 40000 symbols .octal = .error (.invalidLiteral ['9']) := by
  intro symbols e e'
  obtain ⟨harithmetic, -⟩ := evaluate_arithmetic e 40000 symbols .octal
  obtain ⟨-, hleftmost⟩ := evaluate_arithmetic e' 40000 symbols .octal
  constructor
  · apply harithmetic fun t => (t.number? 40000 symbols .octal).getD 0
    decide
  · obtain ⟨error, hcomplaint, herror⟩ := hleftmost [] (.literal ['9']) [.symbol ['B']] rfl
      (List.forall_mem_nil _) (by decide)
    cases hcomplaint
    exact herror

end Expression

end TwelveBit.Assembly
