import TwelveBit.Text.Basic
import TwelveBit.Numeral

/-!
# Symbols

A symbol table is a finite map from names to symbols. Its view is `get?`: a definition replaces the
one that the name had before, and no other.
-/

namespace TwelveBit.Assembly

/-- What a name stands for, and the line that says so. -/
structure Symbol where
  address : Nat
  line : Nat
  deriving DecidableEq, Repr

/-- The symbols by their names. No name occurs twice. -/
structure SymbolTable where
  entries : List (Text × Symbol) := []
  deriving DecidableEq, Repr

/-- A definition of a name that had been defined before. -/
structure Redefinition where
  name : Text
  now : Symbol
  before : Symbol
  deriving DecidableEq, Repr

namespace SymbolTable

def get? (t : SymbolTable) (name : Text) : Option Symbol := t.entries.lookup name

/-- Define a name. An earlier definition of it is forgotten. -/
def insert (t : SymbolTable) (name : Text) (s : Symbol) : SymbolTable where
  entries := (name, s) :: t.entries.filter (·.1 != name)

/-- What is redefined when a name is given a symbol. -/
def redefinition? (t : SymbolTable) (name : Text) (s : Symbol) : Option Redefinition :=
  (t.get? name).map fun before => { name, now := s, before }

def size (t : SymbolTable) : Nat := t.entries.length

def address? (t : SymbolTable) (name : Text) : Option Nat := (t.get? name).map (·.address)

private theorem lookup_filter_ne (entries : List (Text × Symbol)) {name other : Text}
    (h : other ≠ name) :
    (entries.filter (·.1 != name)).lookup other = entries.lookup other := by
  induction entries with
  | nil => rfl
  | cons entry rest ih =>
    obtain ⟨key, symbol⟩ := entry
    by_cases hk : key = name
    · have hne : (other == key) = false := by simpa [hk] using h
      simp [hk, ih, List.lookup_cons, beq_false_of_ne h]
    · simp [hk, List.lookup_cons, ih]

theorem get?_insert (t : SymbolTable) (name other : Text) (s : Symbol) :
    (t.insert name s).get? other = if other = name then some s else t.get? other := by
  by_cases h : other = name
  · subst h; simp [get?, insert]
  · simp [get?, insert, List.lookup_cons, h, beq_false_of_ne h, lookup_filter_ne _ h]

/-- No name occurs twice in a table that definitions have built. -/
theorem nodup_insert {t : SymbolTable} (h : (t.entries.map (·.1)).Nodup) (name : Text)
    (s : Symbol) : ((t.insert name s).entries.map (·.1)).Nodup := by
  simp only [insert, List.map_cons, List.nodup_cons]
  refine ⟨?_, h.sublist (List.filter_sublist.map _)⟩
  simp

end SymbolTable

end TwelveBit.Assembly
