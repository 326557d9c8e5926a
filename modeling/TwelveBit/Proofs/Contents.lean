import Mathlib.Data.List.Induction
import Mathlib.Data.Nat.Find
import TwelveBit.Proofs.Congruence
import TwelveBit.Proofs.Execution

/-!
# What memory holds

Memory is changed from outside by edits, which may write a word, copy a row of words, replace all of
memory or clear it. Seen from outside, where addresses and words are plain numbers, it is a map from
every number to a number below 4096.

`Edit.Sets` says which addresses an edit sets, and to what, without looking at memory. `Latest` is
what an address has after a history of edits: what the last edit that sets it has set it to, and 0
if none does. `read_eq_iff_latest` proves that this is what reading gives, and that memory has
nothing else to it.
-/

namespace TwelveBit.Memory

variable {m : Memory} {origin i : Nat} {row : List Word} {a w : Word}

/-! ## A row of words -/

/-- Where words stored one after another go round memory, the last one at an address stays. -/
theorem get_setFrom_of_last (word : row[i]? = some w) (here : a = Word.ofNat (origin + i))
    (last : ∀ j < row.length, i < j → a ≠ Word.ofNat (origin + j)) :
    (m.setFrom (Word.ofNat origin) row).get a = w := by
  induction row generalizing m origin i with
  | nil => cases word
  | cons v rest ih =>
      have hshift (j : Nat) : origin + 1 + j = origin + (j + 1) := by omega
      rw [setFrom, ← Word.ofNat_succ]
      cases i with
      | zero =>
          -- nothing of the rest is stored there any more
          obtain rfl : v = w := Option.some.inj word
          rw [get_setFrom_of_ne, here]
          · exact get_set_self m _ v
          · intro j hj
            rw [hshift]
            exact last (j + 1) (Nat.succ_lt_succ hj) j.succ_pos
      | succ i =>
          refine ih word (here.trans (by rw [hshift])) fun j hj hij => ?_
          rw [hshift]
          exact last (j + 1) (Nat.succ_lt_succ hj) (Nat.succ_lt_succ hij)

/-! ## What an edit sets -/

/-- An edit sets an address to this number. The words of a row land on the addresses from its origin
on, and the last one on an address is the one that counts. -/
inductive Edit.Sets : Edit → Nat → Nat → Prop where
  | write {address value a : Nat} (here : a ≡ address [MOD 4096]) :
      Sets (.write address value) a (value % 4096)
  /-- All addresses are set, those behind the image to 0. -/
  | load (image : List Nat) (a : Nat) :
      Sets (.load image) a ((image[a % 4096]?).getD 0 % 4096)
  | loadAt {origin a i w : Nat} {words : List Nat} (word : words[i]? = some w)
      (here : a ≡ origin + i [MOD 4096])
      (last : ∀ j < words.length, i < j → ¬ a ≡ origin + j [MOD 4096]) :
      Sets (.loadAt origin words) a (w % 4096)
  | clear (a : Nat) : Sets .clear a 0

variable {e : Edit} {address value : Nat}

theorem read_edit_of_sets (h : e.Sets address value) (m : Memory) :
    ((m.edit e).read address).toNat = value := by
  cases h with
  | write here =>
      rw [edit, read, Word.ofNat_eq_iff.mpr here, get_set_self, Word.toNat_ofNat]
  | load image =>
      rw [edit, read, get_ofList, List.getElem?_map, Word.toNat_ofNat]
      cases image[address % 4096]? with
      | none => rfl
      | some w => exact Word.toNat_ofNat w
  | @loadAt origin _ i w words word here last =>
      have hword : (words.map Word.ofNat)[i]? = some (Word.ofNat w) := by
        rw [List.getElem?_map, word, Option.map_some]
      rw [edit, read, get_setFrom_of_last hword (Word.ofNat_eq_iff.mpr here), Word.toNat_ofNat]
      intro j hj hij
      rw [List.length_map] at hj
      exact mt Word.ofNat_eq_iff.mp (last j hj hij)
  | clear => rw [edit, read, get_cleared]; rfl

/-- An address is set if some word of a row lands on it, for then there is a last one that does. -/
theorem Edit.exists_sets_loadAt {words : List Nat} (hi : i < words.length)
    (here : address ≡ origin + i [MOD 4096]) : ∃ v, (loadAt origin words).Sets address v := by
  let Lands (j : Nat) : Prop := address ≡ origin + j [MOD 4096]
  let k := Nat.findGreatest Lands (words.length - 1)
  have hk : k < words.length :=
    Nat.lt_of_le_of_lt (Nat.findGreatest_le _) (Nat.sub_one_lt_of_lt hi)
  have hlands : Lands k := Nat.findGreatest_spec (Nat.le_sub_one_of_lt hi) here
  have hlast (j : Nat) (hj : j < words.length) (hkj : k < j) : ¬ Lands j :=
    Nat.findGreatest_is_greatest hkj (Nat.le_sub_one_of_lt hj)
  exact ⟨_, .loadAt (List.getElem?_eq_getElem hk) hlands hlast⟩

/-- An edit leaves every address alone that it does not set. -/
theorem read_edit_of_not_sets (h : ∀ v, ¬ e.Sets address v) (m : Memory) :
    (m.edit e).read address = m.read address := by
  cases e with
  | write target value =>
      exact get_set_of_ne (fun heq => h _ (.write (Word.ofNat_eq_iff.mp heq))) _
  | load image => exact absurd (.load image address) (h _)
  | loadAt origin words =>
      refine get_setFrom_of_ne fun i hi heq => ?_
      rw [List.length_map] at hi
      obtain ⟨v, hsets⟩ := Edit.exists_sets_loadAt hi (Word.ofNat_eq_iff.mp heq)
      exact h v hsets
  | clear => exact absurd (.clear address) (h _)

/-! ## Histories -/

/-- What an address has after a history of edits. -/
inductive Latest (history : List Edit) (address : Nat) : Nat → Prop where
  | initial (untouched : ∀ e ∈ history, ∀ v, ¬ e.Sets address v) : Latest history address 0
  | set {earlier later : List Edit} {e : Edit} {value : Nat} (cut : history = earlier ++ e :: later)
      (sets : e.Sets address value) (last : ∀ e ∈ later, ∀ v, ¬ e.Sets address v) :
      Latest history address value

variable {history : List Edit}

theorem read_foldl_of_not_sets (h : ∀ e ∈ history, ∀ v, ¬ e.Sets address v) (m : Memory) :
    (history.foldl edit m).read address = m.read address := by
  induction history generalizing m with
  | nil => rfl
  | cons e rest ih =>
      obtain ⟨he, hrest⟩ := List.forall_mem_cons.mp h
      rw [List.foldl_cons, ih hrest, read_edit_of_not_sets he]

theorem Latest.read (h : Latest history address value) :
    ((history.foldl edit cleared).read address).toNat = value := by
  cases h with
  | initial untouched =>
      rw [read_foldl_of_not_sets untouched, Memory.read, get_cleared]
      rfl
  | set cut sets last =>
      rw [cut, List.foldl_append, List.foldl_cons, read_foldl_of_not_sets last]
      exact read_edit_of_sets sets _

/-- Every address has something, whatever the history. -/
theorem exists_latest (history : List Edit) (address : Nat) :
    ∃ value, Latest history address value := by
  induction history using List.reverseRecOn with
  | nil => exact ⟨0, .initial (List.forall_mem_nil _)⟩
  | append_singleton history e ih =>
      by_cases he : ∃ v, e.Sets address v
      · obtain ⟨v, hsets⟩ := he
        exact ⟨v, .set rfl hsets (List.forall_mem_nil _)⟩
      · -- the last edit does not count, so the address has what it had before
        have hlast : ∀ e' ∈ [e], ∀ v, ¬ e'.Sets address v :=
          List.forall_mem_singleton.mpr (not_exists.mp he)
        obtain ⟨value, untouched | @⟨earlier, later, e', _, rfl, sets, last⟩⟩ := ih
        · exact ⟨0, .initial (List.forall_mem_append.mpr ⟨untouched, hlast⟩)⟩
        · refine ⟨value, .set (List.append_assoc earlier (e' :: later) [e]) sets ?_⟩
          exact List.forall_mem_append.mpr ⟨last, hlast⟩

/-- **Memory is a total map.** After any history of edits, with any numbers and rows of any length,
reading any address gives what the last edit that sets the address has set it to, and 0 if there was
none: the number that was written, the number of an image or 0 behind its end, the last number of a
row that has landed there, or 0. Two memories are equal exactly if they read alike at all addresses
of sixteen bits. -/
theorem read_eq_iff_latest :
    (∀ (history : List Edit) (address value : Nat),
      ((history.foldl edit cleared).read address).toNat = value ↔ Latest history address value) ∧
    ∀ m m' : Memory, m = m' ↔ ∀ address < 0x10000, m.read address = m'.read address := by
  constructor
  · intro history address value
    refine ⟨?_, Latest.read⟩
    rintro rfl
    obtain ⟨value, hlatest⟩ := exists_latest history address
    rw [hlatest.read]
    exact hlatest
  · intro m m'
    refine ⟨fun h address _ => by rw [h], fun h => ext_get fun a => ?_⟩
    have hread := h a.toNat (Nat.lt_trans a.isLt (by decide))
    rwa [read, read, Word.ofNat_toNat] at hread

/-- A row that goes round memory, from the last address of sixteen bits on: its last word lands
where its first one has, and both on the address that was written before. -/
theorem read_eq_iff_latest_after_a_lap :
    let history : List Edit :=
      [.load [1], .write 0o17777 3, .loadAt 0o177777 (List.replicate 4096 4 ++ [0o10005])]
    Latest history 0o7777 5 ∧ ((history.foldl edit cleared).read 0o7777).toNat = 5 := by
  intro history
  have hsets : (Edit.loadAt 0o177777 (List.replicate 4096 4 ++ [0o10005])).Sets 0o7777 5 := by
    refine .loadAt (i := 4096) (w := 0o10005) ?_ (by decide) fun j hj hlast => ?_
    · rw [List.getElem?_append_right (by rw [List.length_replicate]), List.length_replicate]
      rfl
    · rw [List.length_append, List.length_replicate, List.length_singleton] at hj
      omega
  have hcut : history = [.load [1], .write 0o17777 3] ++ [.loadAt 0o177777 _] := rfl
  have hlatest : Latest history 0o7777 5 := .set hcut hsets (List.forall_mem_nil _)
  exact ⟨hlatest, (read_eq_iff_latest.1 history 0o7777 5).mpr hlatest⟩

end TwelveBit.Memory
