import ZMachine.Instruction
import ZMachine.Frame
import ZMachine.Proofs.Conduct
import ZMachine.Proofs.Faults

/-! # Decoding

    A scan moves its position forward and never past the end of memory, unless
    it started there. This file derives what a decoded instruction and a
    decoded routine header look like:

    * `Instruction.scan_eq_ok`: an instruction ends in memory, and one of the
      one-operand class has its operand;
    * `Frame.scan_eq_ok`: a routine has an even address and at most 15 locals. -/

namespace ZMachine

open Conduct

/-- What a scan of a memory may do. -/
def Scan.conduct (m : Memory) : Conduct Nat where
  keeps a b := a ≤ b ∧ b ≤ max a m.size
  mayFail _ e := ∀ n, e.OfWork n
  position := id
  refl a := ⟨Nat.le_refl a, Nat.le_max_left a _⟩
  trans h h' := ⟨Nat.le_trans h.1 h'.1, by omega⟩
  mayFail_of_keeps _ he := he

namespace Scan

variable {α : Type} {m : Memory}

theorem bind_run {β : Type} (x : Scan α) (f : α → Scan β) (m : Memory) :
    (x >>= f) m = x m >>= fun a => f a m := rfl

/-- A number that can only be read inside memory moves the position by its width. -/
theorem moves_take {f : Memory → Nat → Except Fault α} {width : Nat}
    (hf : ∀ a n, FailsOnly (Fault.OfWork n) (f m a))
    (hw : ∀ a x, f m a = .ok x → a + width ≤ m.size) :
    (conduct m).Moves width (take f width m) := by
  constructor
  · intro a
    simp only [take]
    split
    · next x hx =>
        have := hw a x hx
        refine ⟨⟨Nat.le_add_right a width, ?_⟩, fun e h => nomatch h⟩
        omega
    · next e he =>
        exact ⟨(conduct m).refl a, FailsOnly.error (E := fun e => ∀ n, e.OfWork n)
          fun n => hf a n e he⟩
  · intro a b x h
    simp only [take] at h
    split at h
    · obtain ⟨-, rfl⟩ := Prod.mk.inj h
      rfl
    · exact nomatch (Prod.mk.inj h).1

theorem moves_byte : (conduct m).Moves 1 (byte m) :=
  moves_take (fun a _ => m.failsOnly_byteAt a) fun _ _ h => Memory.lt_size_of_byteAt h

theorem moves_word : (conduct m).Moves 2 (word m) :=
  moves_take (fun a _ => m.failsOnly_wordAt a) fun _ _ h => Memory.lt_size_of_wordAt h

theorem moves_position : (conduct m).Moves 0 (position m) :=
  .of_ok id id (fun _ => rfl) (conduct m).refl fun _ => rfl

theorem moves_words (n : Nat) : (conduct m).Moves (2 * n) (words n m) := by
  induction n with
  | zero => exact .pure []
  | succ n ih =>
      have h : (conduct m).Moves (2 + (2 * n + 0)) (words (n + 1) m) :=
        moves_word.bind fun w => ih.bind fun ws => .pure (w :: ws)
      rwa [show 2 + (2 * n + 0) = 2 * (n + 1) by omega] at h

end Scan

namespace Operand

variable {m : Memory}

/-- Scanning an operand stays within memory and reads on. -/
theorem obeys_scan (k : OperandKind) : (Scan.conduct m).Obeys (scan k m) := by
  cases k with
  | large => exact Scan.moves_word.obeys.bind fun x => .pure (large x)
  | small => exact Scan.moves_byte.obeys.bind fun x => .pure (small x)
  | var => exact Scan.moves_byte.obeys.bind fun x => .pure (var x)

theorem obeys_scanAll (ks : List OperandKind) : (Scan.conduct m).Obeys (scanAll ks m) := by
  induction ks with
  | nil => exact .pure []
  | cons k ks ih => exact (obeys_scan k).bind fun x => ih.bind fun xs => .pure (x :: xs)

/-- There are as many operands as kinds. -/
theorem length_of_scanAll {ks : List OperandKind} {a b : Nat} {xs : List Operand}
    (h : scanAll ks m a = (.ok xs, b)) : xs.length = ks.length := by
  induction ks generalizing a b xs with
  | nil =>
      cases h
      rfl
  | cons k ks ih =>
      obtain ⟨x, a', -, h⟩ := Action.bind_eq_ok.mp h
      obtain ⟨xs', b', hxs, h⟩ := Action.bind_eq_ok.mp h
      cases h
      rw [List.length_cons, List.length_cons, ih hxs]

end Operand

namespace Instruction

variable {m : Memory}

theorem obeys_scanHead (opcode : UInt8) : (Scan.conduct m).Obeys (scanHead opcode m) := by
  unfold scanHead
  split
  · exact .pure _
  · split
    · cases OperandKind.ofBits? (opcode.toNat / 16) with
      | none => exact .pure _
      | some k => exact .pure _
    · exact Scan.moves_byte.obeys.bind fun types => .pure _

/-- The short form gives the one-operand class exactly one operand. -/
theorem length_of_scanHead {opcode : UInt8} {a b n : Nat} {form : Form} {ks : List OperandKind}
    (h : scanHead opcode m a = (.ok (form, .one, n, ks), b)) : ks.length = 1 := by
  -- Only the short form has instructions of this class.
  unfold scanHead at h
  split at h
  · cases h
  · split at h
    · cases hk : OperandKind.ofBits? (opcode.toNat / 16) with
      | none =>
          rw [hk] at h
          cases h
      | some k =>
          rw [hk] at h
          cases h
          rfl
    · obtain ⟨types, a', -, h⟩ := Action.bind_eq_ok.mp h
      split at h
      · cases h
      · cases h

/-- The parts of the instruction at an address, in the order in which they are read. -/
def scanParts (a : Nat) : Scan Instruction :=
  Scan.byte >>= fun opcode => scanHead opcode >>= fun head =>
    Operand.scanAll head.2.2.2 >>= fun operands => Scan.position >>= fun stop =>
      pure ⟨a, head.1, head.2.1, head.2.2.1, operands, stop - a⟩

theorem obeys_scanParts (a : Nat) : (Scan.conduct m).Obeys (scanParts a m) := by
  simp only [scanParts, Scan.bind_run]
  refine Scan.moves_byte.obeys.bind fun opcode => ?_
  refine (obeys_scanHead opcode).bind fun head => ?_
  refine (Operand.obeys_scanAll _).bind fun operands => ?_
  exact Scan.moves_position.obeys.bind fun stop => .pure _

/-- An instruction does not end before it starts, as no part of it moves the position back. -/
theorem scan_eq_scanParts (m : Memory) (a : Nat) : scan m a = scanParts a m a := by
  refine Action.bind_congr_of_ok fun opcode a₁ hopcode => ?_
  refine Action.bind_congr_of_ok fun head a₂ hhead => ?_
  refine Action.bind_congr_of_ok fun operands a₃ hoperands => ?_
  have h₁ := Scan.moves_byte.obeys.keeps hopcode
  have h₂ := (obeys_scanHead opcode).keeps hhead
  have h₃ := (Operand.obeys_scanAll _).keeps hoperands
  have hsize : Checked.sub .instructionSize a₃ a = .ok (a₃ - a) :=
    Checked.sub_of_le (Nat.le_trans h₁.1 (Nat.le_trans h₂.1 h₃.1))
  show (Action.ofExcept (Checked.sub .instructionSize a₃ a) >>= fun size =>
    pure (Instruction.mk a head.1 head.2.1 head.2.2.1 operands size)) a₃ = _
  rw [hsize]
  rfl

theorem obeys_scan : (Scan.conduct m).Obeys (scan m) := by
  intro a
  rw [scan_eq_scanParts]
  exact obeys_scanParts a a

/-- A decoded instruction starts where it was read, ends where reading stopped, and has one
    operand if its class says so. -/
theorem scan_eq_ok {a b : Nat} {i : Instruction} (h : scan m a = (.ok i, b)) :
    i.address = a ∧ b = a + i.size ∧ b ≤ m.size ∧ (i.opClass = .one → i.operands.length = 1) := by
  have hall : scan m a = (.ok i, b) := h
  rw [scan_eq_scanParts] at h
  obtain ⟨opcode, a₁, hopcode, h⟩ := Action.bind_eq_ok.mp h
  obtain ⟨⟨form, opClass, number, ks⟩, a₂, hhead, h⟩ := Action.bind_eq_ok.mp h
  obtain ⟨operands, a₃, hoperands, h⟩ := Action.bind_eq_ok.mp h
  cases h
  -- The opcode byte lies in memory, and no later read goes past the end.
  have hsize : a + 1 ≤ m.size := by
    simp only [Scan.byte, Scan.take] at hopcode
    split at hopcode
    · next hb => exact Memory.lt_size_of_byteAt hb
    · cases hopcode
  have hkeeps := obeys_scan.keeps hall
  refine ⟨rfl, ?_, ?_, ?_⟩
  · show b = a + (b - a)
    have := hkeeps.1
    omega
  · have := hkeeps.2
    omega
  · intro hone
    cases hone
    exact (Operand.length_of_scanAll hoperands).trans (length_of_scanHead hhead)

end Instruction

namespace Frame

variable {m : Memory}

/-- As many words are read as were asked for. -/
theorem length_of_words {n a b : Nat} {ws : List UInt16} (h : Scan.words n m a = (.ok ws, b)) :
    ws.length = n := by
  induction n generalizing a b ws with
  | zero =>
      cases h
      rfl
  | succ n ih =>
      obtain ⟨w, a', -, h⟩ := Action.bind_eq_ok.mp h
      obtain ⟨ws', b', hws, h⟩ := Action.bind_eq_ok.mp h
      cases h
      rw [List.length_cons, ih hws]

/-- A routine starts at an even address with the number of its locals and their values, and its
    code follows them. -/
theorem scan_eq_ok {returnAddress a b : Nat} {f : Frame}
    (h : scan returnAddress m a = (.ok f, b)) :
    f.address = a ∧ f.returnAddress = returnAddress ∧ a % 2 = 0 ∧ f.locals.length ≤ maxLocals ∧
      b ≤ m.size ∧ ∃ count, m.byteAt a = .ok count ∧ f.locals.length = count.toNat ∧
        b = a + 1 + 2 * count.toNat := by
  simp only [scan, Scan.bind_run] at h
  obtain ⟨address, a₀, ha, h⟩ := Action.bind_eq_ok.mp h
  cases ha
  split at h
  · next heven =>
      obtain ⟨count, a₁, hcount, h⟩ := Action.bind_eq_ok.mp h
      dsimp only at h
      split at h
      · next hmax =>
          obtain ⟨locals, a₂, hlocals, h⟩ := Action.bind_eq_ok.mp h
          cases h
          have hlength := length_of_words hlocals
          have hb := (Scan.moves_words _).moves hlocals
          have hkeeps := (Scan.moves_words _).obeys.keeps hlocals
          -- The count of locals is the byte at the address, which is even.
          have hbyte : m.byteAt a = .ok count := by
            simp only [Scan.byte, Scan.take] at hcount
            split at hcount
            · next c hc =>
                cases hcount
                exact hc
            · cases hcount
          have ha₁ : a₁ = a + 1 := Scan.moves_byte.moves hcount
          have hsize := Memory.lt_size_of_byteAt hbyte
          refine ⟨rfl, rfl, ?_, ?_, ?_, count, hbyte, hlength, ?_⟩
          · exact of_decide_eq_true heven
          · exact Nat.le_trans (Nat.le_of_eq hlength) hmax
          · have := hkeeps.2
            omega
          · exact hb.trans (congrArg (· + _) ha₁)
      · cases h
  · cases h

end Frame

end ZMachine
