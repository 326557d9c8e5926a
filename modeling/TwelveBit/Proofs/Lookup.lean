import Mathlib.Data.List.Nodup

/-!
# Looking up a key

The tables of the library are lists of entries, each of them a key with what it stands for. Looking
up a key finds the first entry that has it. If no key occurs twice that entry is the only one, so
what is found depends on the entries and not on their order (`lookup_eq_some_iff_mem`).
-/

namespace TwelveBit

variable {α β γ : Type} [BEq α]

/-- Other values do not change which entry is found. -/
theorem lookup_map_snd (g : β → γ) (entries : List (α × β)) (key : α) :
    (entries.map (Prod.map id g)).lookup key = (entries.lookup key).map g := by
  induction entries with
  | nil => rfl
  | cons entry rest ih =>
      obtain ⟨other, value⟩ := entry
      rw [List.map_cons, Prod.map_apply, id, List.lookup_cons, List.lookup_cons]
      cases key == other with
      | true => rfl
      | false => exact ih

variable [LawfulBEq α] {entries : List (α × β)} {key : α} {value : β}

theorem mem_of_lookup (h : entries.lookup key = some value) : (key, value) ∈ entries := by
  obtain ⟨before, after, rfl, -⟩ := List.lookup_eq_some_iff.mp h
  exact List.mem_append_right before List.mem_cons_self

/-- A key is found if an entry has it. -/
theorem isSome_lookup_iff :
    (entries.lookup key).isSome = true ↔ key ∈ entries.map Prod.fst := by
  rw [List.lookup_isSome_iff, List.mem_map]
  simp only [beq_iff_eq]
  exact exists_congr fun entry => and_congr_right' eq_comm

/-- In a table without a key twice, a key stands for what it has in an entry. -/
theorem lookup_eq_some_iff_mem (hnodup : (entries.map (·.1)).Nodup) :
    entries.lookup key = some value ↔ (key, value) ∈ entries := by
  refine ⟨mem_of_lookup, fun hmem => ?_⟩
  obtain ⟨found, hlookup⟩ := Option.isSome_iff_exists.mp
    (isSome_lookup_iff.mpr (List.mem_map_of_mem (f := Prod.fst) hmem))
  cases List.inj_on_of_nodup_map hnodup hmem (mem_of_lookup hlookup) rfl
  exact hlookup

end TwelveBit
