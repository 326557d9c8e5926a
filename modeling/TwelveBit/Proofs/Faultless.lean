import TwelveBit.Proofs.Faulting
import TwelveBit.Proofs.Joining
import TwelveBit.Proofs.Kinds
import TwelveBit.Proofs.Listing
import TwelveBit.Proofs.PageRule

/-!
# Assembled instructions never fault

A word is faultless if the machine decodes it, wherever it stands. Every line that spells an
instruction emits a faultless word, and so does a line that has nothing behind its label: only a
line of data can put a word into a program on which the machine faults.

For a line of micro-operations this is a matter of the bits that tell the groups apart: a line that
is read in one group belongs to that group when it is carried out
(`Mnemonic.group_of_operateWord?`).

`Pass.Walk.encode_fill` says where the words of a listing come from: each is what the item of its
line is encoded to. `assembled_instructions_step` puts the two together.
-/

namespace TwelveBit

/-! ## Words that can be carried out -/

namespace Instruction

/-- A word that is decoded at every address. -/
def Faultless (i : Instruction) : Prop := ∀ pc, ∃ operation, i.decode pc = .ok operation

variable {i : Instruction}

theorem faultless_of_isMemoryReference (h : i.opcode.isMemoryReference = true) : i.Faultless := by
  intro pc
  cases hop : i.opcode with
  | iot => rw [hop] at h; cases h
  | opr => rw [hop] at h; cases h
  | _ => exact ⟨_, by rw [decode, hop]⟩

/-- An instruction for one of the two devices that are there. -/
theorem faultless_of_device (hop : i.opcode = .iot)
    (h : i.device = readerDevice ∨ i.device = teleprinterDevice) : i.Faultless := by
  intro pc
  rw [decode, hop]
  dsimp only
  rw [decodeTransfer]
  split
  · exact ⟨_, rfl⟩
  · next hreader => exact ⟨_, if_pos (h.resolve_left hreader)⟩

theorem faultless_of_operateGroup? {group : OperateGroup} (hop : i.opcode = .opr)
    (h : i.operateGroup? = some group) : i.Faultless := by
  intro pc
  rw [decode, hop]
  dsimp only
  rw [decodeOperate, h]
  cases group with
  | one => exact ⟨_, rfl⟩
  | two => exact ⟨_, rfl⟩

end Instruction

/-- A machine steps over a faultless word. -/
theorem Machine.step_of_faultless {m : Machine} (h : m.fetch.Faultless) :
    ∃ outcome m', m.step = (.ok outcome, m') := by
  rcases hstep : m.step with ⟨fault | outcome, m'⟩
  · obtain ⟨operation, hdecode⟩ := h m.registers.pc
    have herror := Instruction.decode_eq_error_iff.mpr (exists_step_eq_error_iff.mp ⟨m', hstep⟩)
    rw [hdecode] at herror
    cases herror
  · exact ⟨outcome, m', rfl⟩

/-! ## Words that mnemonics stand for -/

namespace Mnemonic

open Instruction (Faultless)

variable {names : List Text} {name : Text} {w : Word}

theorem faultless_of_operateWord? (h : operateWord? names = some w) : Faultless w := by
  obtain ⟨group, -, -, hop, hgroup⟩ := group_of_operateWord? h
  exact Instruction.faultless_of_operateGroup? hop hgroup

theorem faultless_of_inputOutput? (h : inputOutput? name = some w) : Faultless w := by
  have htable : ∀ entry ∈ inputOutput, Instruction.opcode entry.2 = .iot ∧
      (Instruction.device entry.2 = readerDevice ∨
        Instruction.device entry.2 = teleprinterDevice) := by decide
  obtain ⟨hop, hdevice⟩ := htable _ (Table.mem_of_word? h)
  exact Instruction.faultless_of_device hop hdevice

end Mnemonic

namespace Assembly

/-! ## Words that lines emit -/

namespace Item

variable {item : Item}

/-- Data, which may be any word: an item that is read as an expression. -/
def IsData (item : Item) : Prop := ∃ value, item = .constant value

/-- An item that emits faultless words only, whatever its operand is worth and wherever it
stands. -/
def Faultless (item : Item) : Prop := ∀ ⦃location symbols radix word⦄,
  item.encode location symbols radix = .ok word → Instruction.Faultless word

theorem faultless_reference {opcode : Opcode} (hop : opcode.isMemoryReference = true)
    (indirect pageZero : Bool) (operand : Expression) :
    Faultless (.reference opcode indirect pageZero operand) := by
  intro location symbols radix word hword
  rw [encode] at hword
  cases hvalue : operand.evaluate location symbols radix with
  | error e => rw [hvalue] at hword; cases hword
  | ok address =>
      rw [hvalue] at hword
      have hfields := eq_reference_of_encodeReference hword
      apply Instruction.faultless_of_isMemoryReference
      rw [hfields, (Instruction.isReference_reference _ _ _ _).fields.1]
      exact hop

/-- An item that emits one faultless word everywhere. -/
theorem faultless_of_encode {w : Word} (hw : Instruction.Faultless w)
    (hencode : ∀ location symbols radix, item.encode location symbols radix = .ok w) :
    item.Faultless := by
  intro location symbols radix word hword
  rw [hencode] at hword
  cases hword
  exact hw

end Item

namespace Statement

variable {body : Text} {item : Item}

/-- **What a line emits is data or is faultless.** -/
theorem isData_or_faultless (h : parse? body = some (.emit item)) :
    item.IsData ∨ item.Faultless := by
  have hwell := wellFormed_of_parse? h
  cases parse?_eq_some_iff.mp h with
  | reference _ => exact .inr (Item.faultless_reference hwell.1 _ _ _)
  | operate _ hword =>
      have hfaultless := Mnemonic.faultless_of_operateWord? hword
      exact .inr (Item.faultless_of_encode hfaultless fun _ _ _ => rfl)
  | inputOutput _ _ hword =>
      have hfaultless := Mnemonic.faultless_of_inputOutput? hword
      exact .inr (Item.faultless_of_encode hfaultless fun _ _ _ => rfl)
  | @constant value _ _ _ _ => exact .inl ⟨value, rfl⟩
  | reserve _ =>
      -- the word of a line without a statement is zero, which is a memory reference
      have hfaultless := Instruction.faultless_of_isMemoryReference (i := 0) rfl
      exact .inr (Item.faultless_of_encode hfaultless fun _ _ _ => rfl)

end Statement

/-- The statement of a line has been read from some text. -/
theorem SourceLine.exists_of_parse {l : SourceLine} {line : Line} (h : l.parse = .ok line) :
    ∃ body, Statement.parse? body = some line.statement :=
  ⟨_, (Line.parse_eq_ok_iff.mp h).2⟩

/-! ## Words of a listing -/

namespace Pass

variable {l : SourceLine} {lines : List SourceLine} {a a' : Assembler} {finding : Finding}
  {vs : List Visit} {entries : List Entry} {e : Entry}

/-- The word of an entry is what the item on its line is encoded to. -/
def Encoded (e : Entry) : Prop :=
  ∃ label item symbols radix, e.line.parse = .ok ⟨label, .emit item⟩ ∧
    item.encode e.address.toNat symbols radix = .ok e.word

theorem encoded_of_fill (h : fill l a = .ok (.entry e) a') : Encoded e := by
  cases hline : l.parse with
  | error error => rw [fill_of_error hline] at h; cases h
  | ok line =>
      obtain ⟨label, statement⟩ := line
      rw [fill_of_parse hline] at h
      split at h
      · cases h
      · next address word b hfill =>
          cases h
          by_cases hs : statement.emits = true
          · obtain ⟨item, rfl⟩ := Statement.eq_emit_of_emits hs
            obtain ⟨hlt, word, hword, hemitted, -⟩ := Builder.fill_emit_eq_ok_iff.mp hfill
            cases hemitted
            refine ⟨label, item, a.builder.symbols, a.builder.radix, hline, ?_⟩
            rw [Word.toNat_ofNat_of_lt hlt]
            exact hword
          · cases (Builder.place_of_fill (Bool.eq_false_iff.mpr hs) hfill).1
      · next b hfill =>
          injection h with hfinding
          exact absurd hfinding (Finding.ofStatement_ne_entry _ e)

/-- Every word of a listing is encoded from its line. -/
theorem Walk.encode_fill (h : Walk fill lines a vs entries a') : ∀ e ∈ entries, Encoded e := by
  induction h with
  | nil a => exact List.forall_mem_nil _
  | finish here => exact List.forall_mem_nil _
  | nothing here next ih => exact ih
  | entry here next ih => exact List.forall_mem_cons.mpr ⟨encoded_of_fill here, ih⟩

end Pass

/-! ## Assembled instructions -/

namespace Assembler

/-- **Assembled instructions never fault.** Every entry of a listing stands on a line that emits a
word. Unless this line is one of data, every machine steps over the word without a fault, wherever
its program counter stands, and whatever else there is in its memory, its registers and its
devices. -/
theorem assembled_instructions_step {source : Text} {a a' : Assembler} {p : Program}
    (h : assemble source a = .ok p a') : ∀ e ∈ p.listing,
    ∃ label item, e.line.parse = .ok ⟨label, .emit item⟩ ∧
      ((∃ value, item = .constant value) ∨
        ∀ m : Machine, m.memory.get m.registers.pc = e.word →
          ∃ outcome m', m.step = (.ok outcome, m')) := by
  intro e he
  obtain ⟨-, a₁, listing, a₂, -, hsecond, rfl, -⟩ := assemble_eq_ok_iff.mp h
  obtain ⟨label, item, symbols, radix, hline, hword⟩ :=
    (Pass.walk_of_eq_ok hsecond).encode_fill e he
  refine ⟨label, item, hline, ?_⟩
  obtain ⟨body, hbody⟩ := SourceLine.exists_of_parse hline
  rcases Statement.isData_or_faultless hbody with hconstant | hfaultless
  · exact .inl hconstant
  · apply Or.inr
    intro m hm
    apply Machine.step_of_faultless
    rw [Machine.fetch, hm]
    exact hfaultless hword

/-- Tests that contradict each other, a label alone, and data that is no instruction. A machine that
has come to the first word steps over it, wherever that is, and one that has come to the last word
does not. -/
theorem assembled_instructions_step_of_contradiction :
    ∃ (source : Text) (p : Program) (a' : Assembler), assemble source {} = .ok p a' ∧
      p.listing.map Entry.word = [0o7776, 0, 0o7401] ∧
      (∀ m : Machine, m.memory.get m.registers.pc = 0o7776 →
        ∃ outcome m', m.step = (.ok outcome, m')) ∧
      ∀ m : Machine, m.memory.get m.registers.pc = 0o7401 →
        ∃ fault m', m.step = (.error fault, m') := by
  let source : Text := "SMA SPA SZA SNA SNL SZL OSR HLT CLA SMA\nA,\n7401\n".toList
  have hresult : ((assemble source).run' {}).map Program.listing =
      some [⟨0, 0o7776, ⟨1, "SMA SPA SZA SNA SNL SZL OSR HLT CLA SMA".toList⟩⟩,
        ⟨1, 0, ⟨2, "A,".toList⟩⟩, ⟨2, 0o7401, ⟨3, "7401".toList⟩⟩] := by decide +kernel
  obtain ⟨p, a', h, hlisting⟩ := Pass.eq_ok_of_run' hresult
  refine ⟨source, p, a', h, ?_, ?_, ?_⟩
  · rw [hlisting]
    rfl
  · obtain ⟨label, item, hline, hword⟩ :=
      assembled_instructions_step h _ (hlisting ▸ List.mem_cons_self)
    have hstatement : (SourceLine.parse
        ⟨1, "SMA SPA SZA SNA SNL SZL OSR HLT CLA SMA".toList⟩).toOption.map Line.statement =
          some (.emit (.operate 0o7776)) := by decide +kernel
    rw [hline] at hstatement
    cases hstatement
    rcases hword with ⟨value, hconstant⟩ | hstep
    · cases hconstant
    · exact hstep
  · intro m hm
    refine ⟨.undecodable m.registers.pc.toNat 0o7401, ?_⟩
    apply Machine.exists_step_eq_error_iff.mpr
    rw [Machine.fetch, hm]
    rfl

end Assembler

end Assembly

end TwelveBit
