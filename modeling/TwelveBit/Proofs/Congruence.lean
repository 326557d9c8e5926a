import Mathlib.Data.List.Forall2
import Mathlib.Data.Nat.ModEq
import TwelveBit.Proofs.Addressing
import TwelveBit.Proofs.Observation

/-!
# Numbers from outside count modulo 4096

A machine has two ways to deal with a number that does not fit into a word. Addresses, values and
images become words when they come in (`Word.ofNat`), so requests whose numbers are congruent modulo
4096 are one and the same request to it (`Request.Congruent.serve_eq`). The number that the switches
show when a machine is built is kept as it is, and becomes a word each time a program reads it.

That this makes no difference either is a change that goes unnoticed: to reduce the number on the
switches (`unnoticed_reduced`). `serveAll_congruent` puts both together for whole histories.
-/

namespace TwelveBit

theorem Word.ofNat_eq_iff {a b : Nat} : Word.ofNat a = Word.ofNat b ↔ a ≡ b [MOD 4096] := by
  rw [← BitVec.toNat_inj, Word.toNat_ofNat, Word.toNat_ofNat]
  rfl

/-- Lists of congruent numbers are one list of words. -/
theorem Word.map_ofNat_eq {numbers numbers' : List Nat}
    (h : List.Forall₂ (Nat.ModEq 4096) numbers numbers') :
    numbers.map Word.ofNat = numbers'.map Word.ofNat := by
  induction h with
  | nil => rfl
  | cons hhead _ ih => rw [List.map_cons, List.map_cons, Word.ofNat_eq_iff.mpr hhead, ih]

/-! ## Requests with congruent numbers -/

/-- The same change of memory, but for numbers that are replaced by congruent ones. -/
inductive Memory.Edit.Congruent : Memory.Edit → Memory.Edit → Prop where
  | write {address address' value value' : Nat} (haddress : address ≡ address' [MOD 4096])
      (hvalue : value ≡ value' [MOD 4096]) :
      Congruent (.write address value) (.write address' value')
  | load {image image' : List Nat} (himage : List.Forall₂ (Nat.ModEq 4096) image image') :
      Congruent (.load image) (.load image')
  | loadAt {origin origin' : Nat} {words words' : List Nat} (horigin : origin ≡ origin' [MOD 4096])
      (hwords : List.Forall₂ (Nat.ModEq 4096) words words') :
      Congruent (.loadAt origin words) (.loadAt origin' words')
  | clear : Congruent .clear .clear

theorem Memory.Edit.Congruent.edit_eq {change change' : Memory.Edit} (h : change.Congruent change')
    (m : Memory) : m.edit change = m.edit change' := by
  cases h with
  | write haddress hvalue =>
      rw [Memory.edit, Memory.edit, Word.ofNat_eq_iff.mpr haddress, Word.ofNat_eq_iff.mpr hvalue]
  | load himage => rw [Memory.edit, Memory.edit, Word.map_ofNat_eq himage]
  | loadAt horigin hwords =>
      rw [Memory.edit, Memory.edit, Word.ofNat_eq_iff.mpr horigin, Word.map_ofNat_eq hwords]
  | clear => rfl

namespace Machine

/-- The same request, but for numbers that are replaced by congruent ones. -/
inductive Request.Congruent : Request → Request → Prop where
  | edit {change change' : Memory.Edit} (hchange : change.Congruent change') :
      Congruent (.edit change) (.edit change')
  | setPc {value value' : Nat} (hvalue : value ≡ value' [MOD 4096]) :
      Congruent (.setPc value) (.setPc value')
  | setAc {value value' : Nat} (hvalue : value ≡ value' [MOD 4096]) :
      Congruent (.setAc value) (.setAc value')
  | setLink (value : Bool) : Congruent (.setLink value) (.setLink value)
  | skip : Congruent .skip .skip
  | setSwitches {value value' : Nat} (hvalue : value ≡ value' [MOD 4096]) :
      Congruent (.setSwitches value) (.setSwitches value')
  | takeOutput : Congruent .takeOutput .takeOutput
  | run {start start' : Option Nat} (hstart : Option.Rel (Nat.ModEq 4096) start start')
      (stepping : Bool) : Congruent (.run ⟨start, stepping⟩) (.run ⟨start', stepping⟩)
  | step : Congruent .step .step

theorem start_eq_of_congruent {start start' : Option Nat}
    (h : Option.Rel (Nat.ModEq 4096) start start') (stepping : Bool) (m : Machine) :
    m.start ⟨start, stepping⟩ = m.start ⟨start', stepping⟩ := by
  cases h with
  | none => rfl
  | some hstart =>
      rw [Machine.start, Machine.start]
      dsimp only
      rw [setPc, setPc, Word.ofNat_eq_iff.mpr hstart]

/-- **A machine does not tell congruent requests apart.** -/
theorem Request.Congruent.serve_eq {request request' : Request} (h : request.Congruent request')
    (fuel : Nat) (m : Machine) : m.serve fuel request = m.serve fuel request' := by
  cases h with
  | edit hchange => rw [serve, serve, hchange.edit_eq]
  | setPc hvalue => rw [serve, serve, Machine.setPc, Machine.setPc, Word.ofNat_eq_iff.mpr hvalue]
  | setAc hvalue => rw [serve, serve, Machine.setAc, Machine.setAc, Word.ofNat_eq_iff.mpr hvalue]
  | setLink value => rfl
  | skip => rfl
  | setSwitches hvalue => rw [serve, serve, Word.ofNat_eq_iff.mpr hvalue]
  | takeOutput => rfl
  | run hstart stepping => rw [serve, serve, Machine.run, Machine.run, start_eq_of_congruent hstart]
  | step => rfl

theorem serveAll_eq_of_congruent {requests requests' : List Request}
    (h : List.Forall₂ Request.Congruent requests requests') (fuel : Nat) (m : Machine) :
    m.serveAll fuel requests = m.serveAll fuel requests' := by
  induction h generalizing m with
  | nil => rfl
  | cons hhead _ ih =>
      unfold serveAll
      simp only [hhead.serve_eq, ih]

/-! ## Switches -/

/-- The machine with a number on its switches that fits into a word. -/
def reduced (m : Machine) : Machine := { m with switches := m.switches % 4096 }

/-- What an instruction does depends on the word that the switches stand for. -/
theorem nextEffect_reduced (m : Machine) (operation : Operation) :
    m.reduced.nextEffect operation = m.nextEffect operation := by
  have hswitches : Word.ofNat (m.switches % 4096) = Word.ofNat m.switches :=
    Word.ofNat_eq_iff.mpr (Nat.mod_modEq _ _)
  cases operation with
  | groupTwo micro =>
      have hmicro (r : Registers) :
          micro.apply (m.switches % 4096) r = micro.apply m.switches r := by
        rw [GroupTwo.apply, GroupTwo.apply, hswitches]
      exact congrArg (fun r => ({
        registers := r, teleprinter := m.teleprinter, halts := micro.halt } : Effect))
        (hmicro m.advance.registers)
  | _ => rfl

theorem apply_reduced (m : Machine) (e : Effect) (pc : Word) (i : Instruction) :
    m.reduced.apply e pc i = (m.apply e pc i).reduced := by
  rw [apply_eq, apply_eq]
  rcases e.store with _ | ⟨address, value⟩
  · rfl
  · rfl

/-- No instruction notices whether the number on the switches fits into a word. -/
theorem unnoticed_reduced : Unnoticed reduced where
  registers _ := rfl
  memory _ := rfl
  setRegisters _ _ := rfl
  setMemory _ _ := rfl
  setStatus _ _ := rfl
  setSwitches m w :=
    congrArg (fun switches => { m with switches }) (Nat.mod_eq_of_lt w.isLt).symm
  note _ _ := rfl
  cycle m := by
    cases h : m.fetch.decode m.registers.pc with
    | error fault =>
        rw [cycle_of_fault h, cycle_of_fault (m := m.reduced) h]
        rfl
    | ok operation =>
        rw [cycle_of_decode h, cycle_of_decode (m := m.reduced) h, nextEffect_reduced]
        exact congrArg (Prod.mk _) (apply_reduced m.advance _ _ _)

theorem serveAll_reduced (fuel : Nat) (m : Machine) (requests : List Request) :
    m.reduced.serveAll fuel requests =
      ((m.serveAll fuel requests).1, (m.serveAll fuel requests).2.reduced) := by
  refine serveAll_changed (fun m request => ?_) m requests
  by_cases h : request = .takeOutput
  · subst h
    rfl
  · exact unnoticed_reduced.serve h fuel m

/-! ## Congruent machines -/

/-- The same machine, but for the number on its switches that is replaced by a congruent one. -/
structure Congruent (m m' : Machine) : Prop where
  registers : m'.registers = m.registers
  memory : m'.memory = m.memory
  status : m'.status = m.status
  teleprinter : m'.teleprinter = m.teleprinter
  switches : m'.switches ≡ m.switches [MOD 4096]
  tracing : m'.tracing = m.tracing
  events : m'.events = m.events
  journal : m'.journal = m.journal

theorem congruent_iff {m m' : Machine} : m.Congruent m' ↔ m'.reduced = m.reduced := by
  constructor
  · intro h
    rw [reduced, reduced, Machine.mk.injEq]
    exact ⟨h.registers, h.memory, h.status, h.teleprinter, h.switches, h.tracing, h.events,
      h.journal⟩
  · intro h
    rw [reduced, reduced, Machine.mk.injEq] at h
    obtain ⟨registers, memory, status, teleprinter, switches, tracing, events, journal⟩ := h
    exact ⟨registers, memory, status, teleprinter, switches, tracing, events, journal⟩

/-- **The machine sees every number modulo 4096.** Take two machines that differ only in the numbers
on their switches, and these are congruent, and two histories of requests that differ only in
numbers that are congruent. Every prefix of one gets the same answers as that of the other, results
and faults included, and leaves the same registers, memory and status, the same teleprinter with the
same output, and the same events. A word of memory that is read by congruent addresses is the
same. -/
theorem serveAll_congruent {m m' : Machine} {requests requests' : List Request}
    (hm : m.Congruent m') (hrequests : List.Forall₂ Request.Congruent requests requests')
    (fuel k : Nat) :
    (m'.serveAll fuel (requests'.take k)).1 = (m.serveAll fuel (requests.take k)).1 ∧
      (m.serveAll fuel (requests.take k)).2.Congruent (m'.serveAll fuel (requests'.take k)).2 ∧
      ∀ address address', address ≡ address' [MOD 4096] →
        (m'.serveAll fuel (requests'.take k)).2.memory.read address' =
          (m.serveAll fuel (requests.take k)).2.memory.read address := by
  have hserve := congrArg (·.serveAll fuel (requests.take k)) (congruent_iff.mp hm)
  simp only [serveAll_reduced, Prod.mk.injEq] at hserve
  rw [← serveAll_eq_of_congruent (List.forall₂_take k hrequests) fuel m']
  have hafter := congruent_iff.mpr hserve.2
  refine ⟨hserve.1, hafter, ?_⟩
  intro address address' haddress
  rw [Memory.read, Memory.read, hafter.memory, Word.ofNat_eq_iff.mpr haddress]

/-- A program that reads the switches is put at the top of memory, by the largest number of sixteen
bits and by the address, and the switches show a number of sixteen bits and its word. -/
theorem serveAll_congruent_at_the_top :
    let m : Machine := { switches := 0o170123 }
    let m' : Machine := { switches := 0o123 }
    let requests : List Request :=
      [.edit (.loadAt 0o177777 [0o17404, 0o7402]), .run { start := some 0o7777 }]
    let requests' : List Request :=
      [.edit (.loadAt 0o7777 [0o7404, 0o177402]), .run { start := some 0o17777 }]
    m.Congruent m' ∧ List.Forall₂ Request.Congruent requests requests' ∧
      (m'.serveAll 2 requests').1 = (m.serveAll 2 requests).1 ∧
      (m'.serveAll 2 requests').2.registers.ac = 0o123 ∧
      (m.serveAll 2 requests).2.registers.ac = 0o123 := by
  intro m m' requests requests'
  have hm : m.Congruent m' := ⟨rfl, rfl, rfl, rfl, by decide, rfl, rfl, rfl⟩
  have horigin : 0o177777 ≡ 0o7777 [MOD 4096] := by decide
  have hwords : List.Forall₂ (Nat.ModEq 4096) [0o17404, 0o7402] [0o7404, 0o177402] :=
    .cons (by decide) (.cons (by decide) .nil)
  have hstart : Option.Rel (Nat.ModEq 4096) (some 0o7777) (some 0o17777) := .some (by decide)
  have hrequests : List.Forall₂ Request.Congruent requests requests' :=
    .cons (.edit (.loadAt horigin hwords)) (.cons (.run hstart false) .nil)
  obtain ⟨hreplies, hafter, -⟩ := serveAll_congruent hm hrequests 2 2
  have hac : (m.serveAll 2 requests).2.registers.ac = 0o123 := by decide +kernel
  exact ⟨hm, hrequests, hreplies, (congrArg (·.ac) hafter.registers).trans hac, hac⟩

end Machine

end TwelveBit
