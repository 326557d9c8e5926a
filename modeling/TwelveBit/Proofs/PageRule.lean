import TwelveBit.Assembly.Encoding
import TwelveBit.Proofs.Addressing
import TwelveBit.Proofs.Numeral

/-!
# The page rule

The assembler chooses the page bit of a memory reference, the machine computes an address from it,
and the disassembler prints one. `encodeReference_page_rule` ties the three together through
`Instruction.directAddress`, the address that a word names as a number:

* the assembler refuses an operand exactly when *no* word of that operation names it from there,
* a word that it answers names the operand, or the offset of the operand on page zero if `Z` is
  written,
* the machine goes to the address so named, and the disassembler prints it in four digits.

The middle step is `exists_directAddress_eq_iff`: what can be named from a place is its own page and
page zero, and nothing else.
-/

namespace TwelveBit

open Assembly

namespace Instruction

/-- A word with the operation code and the indirect bit of a memory reference, given as numbers. -/
def IsReference (i : Instruction) (opcode : Opcode) (indirect : Bool) : Prop :=
  i.toNat / 512 = opcode.code.toNat ∧ i.toNat / 256 % 2 = indirect.toNat

/-! ## Putting a reference together -/

/-- The memory reference with these fields. Of the target only the offset counts. -/
def reference (opcode : Opcode) (indirect pageZero : Bool) (target : Word) : Instruction :=
  opcode.baseWord ||| target.offset ||| (if indirect then 0o400 else 0) |||
    (if pageZero then 0o200 else 0)

/-- The fields do not overlap, so the word is their sum. -/
theorem toNat_reference (opcode : Opcode) (indirect pageZero : Bool) (target : Word) :
    (reference opcode indirect pageZero target).toNat =
      512 * opcode.code.toNat + 256 * indirect.toNat + 128 * pageZero.toNat +
        target.toNat % 128 := by
  -- everything but the offset is a multiple of 128, that is to say a page
  have hpage : ∃ head : Word, head.page = head ∧
      head.toNat = 512 * opcode.code.toNat + 256 * indirect.toNat + 128 * pageZero.toNat ∧
      reference opcode indirect pageZero target = head ||| target.offset := by
    refine ⟨opcode.baseWord ||| (if indirect then 0o400 else 0) |||
      (if pageZero then 0o200 else 0), ?_, ?_, ?_⟩
    · cases opcode <;> cases indirect <;> cases pageZero <;> rfl
    · cases opcode <;> cases indirect <;> cases pageZero <;> rfl
    · rw [reference, BitVec.or_assoc, BitVec.or_assoc, BitVec.or_comm target.offset,
        ← BitVec.or_assoc, ← BitVec.or_assoc]
  obtain ⟨head, hhead, hvalue, heq⟩ := hpage
  rw [heq, ← hhead, Word.toNat_page_or_offset, hvalue]
  omega

theorem isReference_reference (opcode : Opcode) (indirect pageZero : Bool) (target : Word) :
    (reference opcode indirect pageZero target).IsReference opcode indirect := by
  have hoffset : target.toNat % 128 < 128 := Nat.mod_lt _ (by decide)
  have hi := indirect.toNat_le
  have hz := pageZero.toNat_le
  rw [IsReference, toNat_reference]
  omega

/-- The page bit of a reference. -/
theorem pageBit_reference (opcode : Opcode) (indirect pageZero : Bool) (target : Word) :
    (reference opcode indirect pageZero target).toNat / 128 % 2 = pageZero.toNat := by
  have hoffset : target.toNat % 128 < 128 := Nat.mod_lt _ (by decide)
  have hz := pageZero.toNat_le
  rw [toNat_reference]
  omega

theorem directAddress_reference (opcode : Opcode) (indirect pageZero : Bool) (target : Word)
    (location : Nat) :
    (reference opcode indirect pageZero target).directAddress location =
      (if pageZero then 0 else location % 4096 / 128 * 128) + target.toNat % 128 := by
  have hoffset : (reference opcode indirect pageZero target).toNat % 128 = target.toNat % 128 := by
    rw [toNat_reference]
    omega
  rw [directAddress, pageBit_reference, hoffset]
  cases pageZero <;> rfl

/-- The fields of a reference give the reference back. -/
theorem reference_fields (i : Instruction) :
    reference i.opcode i.indirect i.pageZero i = i := by
  apply BitVec.eq_of_toNat_eq
  rw [toNat_reference, toNat_code, toNat_indirect, toNat_pageZero]
  omega

/-- A word that is a reference has its operation code and its indirect bit. -/
theorem IsReference.fields {i : Instruction} {opcode : Opcode} {indirect : Bool}
    (h : i.IsReference opcode indirect) : i.opcode = opcode ∧ i.indirect = indirect := by
  obtain ⟨hcode, hindirect⟩ := h
  refine ⟨Opcode.code_toNat_inj.mp (by rw [toNat_code, hcode]), ?_⟩
  have hbits : i.indirect.toNat = indirect.toNat := by rw [toNat_indirect, hindirect]
  revert hbits
  cases i.indirect <;> cases indirect <;> decide

/-! ## What can be named -/

/-- An address can be named from a place exactly when it is on the page of the place or on page
zero. -/
theorem exists_directAddress_eq_iff (opcode : Opcode) (indirect : Bool) (address location : Nat) :
    (∃ i : Instruction, i.IsReference opcode indirect ∧
        i.directAddress location = address % 4096) ↔
      address % 4096 / 128 = location % 4096 / 128 ∨ address % 4096 / 128 = 0 := by
  constructor
  · rintro ⟨i, -, hi⟩
    rw [directAddress] at hi
    split at hi <;> omega
  · intro hpage
    have htarget := Word.toNat_ofNat address
    rcases hpage with hown | hzero
    · refine ⟨reference opcode indirect false (Word.ofNat address),
        isReference_reference _ _ _ _, ?_⟩
      rw [directAddress_reference, htarget]
      simp only [Bool.false_eq_true, if_false]
      omega
    · refine ⟨reference opcode indirect true (Word.ofNat address),
        isReference_reference _ _ _ _, ?_⟩
      rw [directAddress_reference, htarget]
      simp only [if_true]
      omega

end Instruction

namespace Assembly

open Instruction

/-! ## What the assembler answers -/

/-- With a `Z` every operand has a word. -/
theorem encodeReference_pageZero (opcode : Opcode) (indirect : Bool) (address location : Nat) :
    encodeReference opcode indirect true address location =
      .ok (reference opcode indirect true (Word.ofNat address)) := rfl

/-- The pages that the assembler compares are quotients by 128. -/
theorem samePage_ofNat (address location : Nat) :
    Word.samePage (Word.ofNat address) (Word.ofNat location) =
      decide (address % 4096 / 128 = location % 4096 / 128) := by
  rw [Bool.eq_iff_iff, Word.samePage_iff, decide_eq_true_iff, Word.toNat_ofNat,
    Word.toNat_ofNat]

/-- Without a `Z` an operand on the page of the instruction is encoded there, one on page zero is
encoded through page zero, and any other is refused. -/
theorem encodeReference_plain (opcode : Opcode) (indirect : Bool) (address location : Nat) :
    encodeReference opcode indirect false address location =
      if address % 4096 / 128 = location % 4096 / 128 then
        .ok (reference opcode indirect false (Word.ofNat address))
      else if address % 4096 / 128 = 0 then
        .ok (reference opcode indirect true (Word.ofNat address))
      else .error (.unreachable address (Word.ofNat location).page) := by
  have hzero : (Word.ofNat address).page = 0 ↔ address % 4096 / 128 = 0 := by
    rw [Word.page_eq_zero_iff, Word.toNat_ofNat]
  rw [encodeReference, samePage_ofNat]
  by_cases hown : address % 4096 / 128 = location % 4096 / 128
  · simp [hown, reference]
  · by_cases hz : address % 4096 / 128 = 0
    · rw [if_neg hown, if_pos hz]
      simp [hown, hzero.mpr hz, reference]
    · rw [if_neg hown, if_neg hz]
      have hpage : ((Word.ofNat address).page != 0) = true := bne_iff_ne.mpr (mt hzero.mp hz)
      rw [hpage]
      simp [hown]

/-- An operand on one of the two pages has a word that names it. -/
theorem exists_encodeReference (opcode : Opcode) (indirect : Bool) (address location : Nat)
    (hpage : address % 4096 / 128 = location % 4096 / 128 ∨ address % 4096 / 128 = 0) :
    ∃ w : Instruction, encodeReference opcode indirect false address location = .ok w ∧
      w.directAddress location = address % 4096 := by
  rw [encodeReference_plain]
  by_cases hown : address % 4096 / 128 = location % 4096 / 128
  · refine ⟨_, if_pos hown, ?_⟩
    rw [directAddress_reference, Word.toNat_ofNat]
    simp only [Bool.false_eq_true, if_false]
    omega
  · have hzero : address % 4096 / 128 = 0 := hpage.resolve_left hown
    refine ⟨_, by rw [if_neg hown, if_pos hzero], ?_⟩
    rw [directAddress_reference, Word.toNat_ofNat]
    simp only [if_true]
    omega

/-- Every word that is answered is a reference with the fields that were asked for, through page
zero exactly when that is written or the operand is not on the page of the instruction. -/
theorem eq_reference_of_encodeReference {opcode : Opcode} {indirect pageZero : Bool}
    {address location : Nat} {w : Word}
    (h : encodeReference opcode indirect pageZero address location = .ok w) :
    w = reference opcode indirect
      (pageZero || decide (address % 4096 / 128 ≠ location % 4096 / 128)) (Word.ofNat address) := by
  cases pageZero with
  | true =>
      rw [encodeReference_pageZero] at h
      cases h
      rfl
  | false =>
      rw [encodeReference_plain] at h
      split at h
      · next hown =>
          cases h
          simp [hown]
      · next hown =>
          split at h
          · cases h
            simp [hown]
          · cases h

/-- The machine goes to the direct address of a reference, or through it. -/
theorem effectiveAddress_of_isReference {i : Instruction} {opcode : Opcode} {indirect : Bool}
    (h : i.IsReference opcode indirect) (location : Nat) (memory : Memory) :
    i.effectiveAddress (Word.ofNat location) memory =
      if indirect then memory.read (i.directAddress location)
      else Word.ofNat (i.directAddress location) := by
  rw [effectiveAddress_eq, h.2]
  cases indirect <;> rfl

/-- The text of a reference shows its fields, and the address that it names in four digits. -/
theorem disassemble_of_isReference {i : Instruction} {opcode : Opcode} {indirect : Bool}
    (hop : opcode.isMemoryReference = true) (h : i.IsReference opcode indirect) (location : Nat) :
    disassemble i (Word.ofNat location) =
      opcode.mnemonic ++ (if indirect then " I" else "") ++
        (if i.toNat / 128 % 2 = 1 then " Z" else "") ++ " " ++
        Numeral.octalDigits (i.directAddress location) := by
  obtain ⟨hopcode, hindirect⟩ := h.fields
  have hdigits : Numeral.octal 4 (i.direct (Word.ofNat location)).toNat =
      Numeral.octalDigits (i.directAddress location) := by
    rw [toNat_direct_ofNat, Numeral.octal_four (directAddress_lt i location)]
  rw [disassemble, hopcode, if_pos hop, referenceText, hopcode, hindirect, hdigits]
  simp only [pageZero_iff]

/-! ## The rule -/

/-- **The page rule.** Without a `Z`, an operand is refused exactly when no word of that operation
names it from there, and otherwise the machine finds it, or goes through it, from the word that is
answered. With a `Z` the offset of the operand on page zero is named. The text of an answered word
shows the address that the word names, and a `Z` exactly when it is named through page zero. -/
theorem encodeReference_page_rule (opcode : Opcode) (hop : opcode.isMemoryReference = true)
    (indirect : Bool) (address location : Nat) (memory : Memory) :
    (encodeReference opcode indirect false address location =
        .error (.unreachable address (Word.ofNat (location % 4096 / 128 * 128))) ↔
      ¬ ∃ i : Instruction, i.IsReference opcode indirect ∧
        i.directAddress location = address % 4096) ∧
    ((∃ i : Instruction, i.IsReference opcode indirect ∧
        i.directAddress location = address % 4096) →
      ∃ w : Instruction, encodeReference opcode indirect false address location = .ok w ∧
        w.directAddress location = address % 4096 ∧
        w.effectiveAddress (Word.ofNat location) memory =
          if indirect then memory.read address else Word.ofNat address) ∧
    (∃ w : Instruction, encodeReference opcode indirect true address location = .ok w ∧
      w.directAddress location = address % 128) ∧
    ∀ (pageZero : Bool) (w : Instruction),
      encodeReference opcode indirect pageZero address location = .ok w →
      w.IsReference opcode indirect ∧
      (w.toNat / 128 % 2 = 1 ↔
        pageZero = true ∨ address % 4096 / 128 ≠ location % 4096 / 128) ∧
      w.effectiveAddress (Word.ofNat location) memory =
        (if indirect then memory.read (w.directAddress location)
          else Word.ofNat (w.directAddress location)) ∧
      disassemble w (Word.ofNat location) =
        opcode.mnemonic ++ (if indirect then " I" else "") ++
          (if w.toNat / 128 % 2 = 1 then " Z" else "") ++ " " ++
          Numeral.octalDigits (w.directAddress location) := by
  have hreach := exists_directAddress_eq_iff opcode indirect address location
  refine ⟨?_, ?_, ?_, ?_⟩
  · have hpage : (Word.ofNat location).page = Word.ofNat (location % 4096 / 128 * 128) := by
      rw [← Word.toNat_ofNat, ← Word.toNat_page, Word.ofNat_toNat]
    rw [hreach, encodeReference_plain, hpage]
    by_cases hown : address % 4096 / 128 = location % 4096 / 128
    · simp [hown]
    · by_cases hzero : address % 4096 / 128 = 0
      · rw [if_neg hown, if_pos hzero]
        exact iff_of_false (fun h => by cases h) (not_not_intro (Or.inr hzero))
      · simp [hown, hzero]
  · intro hnamed
    obtain ⟨w, hw, hdirect⟩ :=
      exists_encodeReference opcode indirect address location (hreach.mp hnamed)
    refine ⟨w, hw, hdirect, ?_⟩
    have hmod : Word.ofNat (address % 4096) = Word.ofNat address := by
      rw [← Word.toNat_ofNat, Word.ofNat_toNat]
    have href := eq_reference_of_encodeReference hw
    rw [effectiveAddress_of_isReference (href ▸ isReference_reference _ _ _ _), hdirect,
      Memory.read, Memory.read, hmod]
  · refine ⟨_, encodeReference_pageZero opcode indirect address location, ?_⟩
    rw [directAddress_reference, Word.toNat_ofNat]
    simp only [if_true]
    omega
  · intro pageZero w hw
    have hfields := eq_reference_of_encodeReference hw
    have href : w.IsReference opcode indirect := hfields ▸ isReference_reference _ _ _ _
    refine ⟨href, ?_, effectiveAddress_of_isReference href location memory,
      disassemble_of_isReference hop href location⟩
    rw [hfields, pageBit_reference]
    cases pageZero
    · simp
    · simp

/-- From the last word of a page, named by a number that does not fit into a word, the next page is
out of reach, while the first word of the page itself is named and printed without a `Z`. -/
theorem encodeReference_page_rule_at_page_end :
    Opcode.jms.isMemoryReference = true ∧
      (¬ ∃ i : Instruction, i.IsReference .jms true ∧
        i.directAddress 0o10377 = 0o10400 % 4096) ∧
      encodeReference .jms true false 0o10200 0o10377 = .ok 0o4400 ∧
      disassemble 0o4400 (Word.ofNat 0o10377) = "JMS I 0200".toList := by
  have hrefused := encodeReference_page_rule .jms rfl true 0o10400 0o10377 .cleared
  have hnamed := encodeReference_page_rule .jms rfl true 0o10200 0o10377 .cleared
  have hword : encodeReference .jms true false 0o10200 0o10377 = .ok 0o4400 := by rfl
  refine ⟨rfl, hrefused.1.mp rfl, hword, ?_⟩
  rw [(hnamed.2.2.2 false _ hword).2.2.2]
  decide

end Assembly

end TwelveBit
