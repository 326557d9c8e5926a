import TwelveBit.Word

/-!
# Memory

A store of 4096 words. Every address names a word of it, so no access can miss: `get` and `set` are
total, and two memories are equal as soon as they agree under `get` (`Memory.ext_get`).

`Memory.Edit` holds the changes that are made from outside, by someone who loads a program or
deposits a word. Their addresses and values are plain numbers, which count modulo 4096.
-/

namespace TwelveBit

/-- A store of 4096 words. -/
structure Memory where
  words : Vector Word 4096
  deriving DecidableEq

namespace Memory

/-- The memory in which every word is zero. -/
def cleared : Memory := ⟨Vector.replicate 4096 0⟩

instance : Inhabited Memory := ⟨cleared⟩

def get (m : Memory) (a : Word) : Word := m.words[a.toNat]

def set (m : Memory) (a w : Word) : Memory := ⟨m.words.set a.toNat w⟩

def toList (m : Memory) : List Word := m.words.toList

/-- The memory that holds `image` from address 0 on. Words that `image` does not reach are zero, and
words of `image` past the end of memory are dropped. -/
def ofList (image : List Word) : Memory :=
  let words := image.toArray
  ⟨Vector.ofFn fun a => (words[a.val]?).getD 0⟩

/-- Store words one after another from `origin` on, wrapping at the top of memory. -/
def setFrom (m : Memory) (origin : Word) : List Word → Memory
  | [] => m
  | w :: ws => (m.set origin w).setFrom (origin + 1) ws

/-! ## What each operation does to `get` -/

@[simp] theorem get_cleared (a : Word) : cleared.get a = 0 := by
  simp [get, cleared]

theorem get_set (m : Memory) (a b w : Word) :
    (m.set a w).get b = if b = a then w else m.get b := by
  simp only [get, set, Vector.getElem_set]
  by_cases h : b = a
  · subst h; simp
  · have : a.toNat ≠ b.toNat := fun e => h (BitVec.eq_of_toNat_eq e.symm)
    simp [h, this]

@[simp] theorem get_ofList (image : List Word) (a : Word) :
    (ofList image).get a = (image[a.toNat]?).getD 0 := by
  simp [get, ofList]

/-- Memories that agree at every address are equal. -/
theorem ext_get {m n : Memory} (h : ∀ a, m.get a = n.get a) : m = n := by
  cases m; cases n; congr
  apply Vector.ext
  intro i hi
  have := h (Word.ofNat i)
  simpa [get, Nat.mod_eq_of_lt hi] using this

/-! ## Changes from outside -/

/-- A change made from outside the machine. -/
inductive Edit where
  | write (address value : Nat)
  /-- Replace all of memory by an image that starts at address 0. -/
  | load (image : List Nat)
  /-- Copy words into memory from an origin on, wrapping at the top. -/
  | loadAt (origin : Nat) (words : List Nat)
  | clear
  deriving DecidableEq, Repr

/-- The word at an address given from outside. -/
def read (m : Memory) (address : Nat) : Word := m.get (Word.ofNat address)

def edit (m : Memory) : Edit → Memory
  | .write address value => m.set (Word.ofNat address) (Word.ofNat value)
  | .load image => ofList (image.map Word.ofNat)
  | .loadAt origin words => m.setFrom (Word.ofNat origin) (words.map Word.ofNat)
  | .clear => cleared

end Memory

end TwelveBit
