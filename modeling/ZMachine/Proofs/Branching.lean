import ZMachine.Proofs.Agreement
import ZMachine.Proofs.Variables

/-! # Branches

    A branch descriptor has one byte or two. Bit 7 of the first byte says which
    outcome of the test the branch is for, and bit 6 how long the descriptor
    is. A short one has an offset of 6 bits, a long one an offset of 14 bits in
    two's complement.

    * `Branch.Encoded`: a descriptor in memory, bit by bit; `readBranch_of_encoded`:
      reading it moves past it;
    * `Machine.Follows`: what a branch does from there; `follow_follows`;
    * `Machine.SameOutside`: machines whose memories differ in given bytes only;
      `agreeAt_follow`: a branch does the same to both, so that it makes no
      difference in how many bytes an offset is written. -/

namespace ZMachine

open ZMachine.Action

/-- A signed number of 16 bits is that of the word that stands for it. -/
theorem signed_ofSigned {i : Int} (hlow : -0x8000 ≤ i) (hhigh : i < 0x8000) :
    signed (ofSigned i) = i := by
  have hnat : (ofSigned i).toNat = (i % 0x10000).toNat := by
    simp only [ofSigned, UInt16.toNat_ofNat']
    omega
  simp only [signed, hnat]
  omega

/-! ## Descriptors -/

namespace Branch

/-- A branch descriptor at an address, with the branch that it stands for and the number of its
    bytes. -/
inductive Encoded (μ : Memory) (a : Nat) : Branch → Nat → Prop where
  | short {first : UInt8} (byte : μ.byteAt a = .ok first)
      (bit : first.toBitVec.getLsbD 6 = true) :
      Encoded μ a ⟨first.toBitVec.getLsbD 7, (first.toBitVec.setWidth 6).toNat⟩ 1
  | long {first second : UInt8} (byte : μ.byteAt a = .ok first)
      (bit : first.toBitVec.getLsbD 6 = false) (next : μ.byteAt (a + 1) = .ok second) :
      Encoded μ a ⟨first.toBitVec.getLsbD 7, (first.toBitVec.setWidth 6 ++ second.toBitVec).toInt⟩ 2

/-- The bytes of a descriptor at an address lie in memory. -/
def InMemory (μ : Memory) (a : Nat) : Prop :=
  ∃ first, μ.byteAt a = .ok first ∧ (first.toBitVec.getLsbD 6 = false → a + 1 < μ.size)

variable {μ : Memory} {a width : Nat} {b : Branch}

/-- A descriptor that lies in memory is encoded in one of the two forms. -/
theorem InMemory.exists_encoded (h : InMemory μ a) : ∃ b width, Encoded μ a b width := by
  obtain ⟨first, hfirst, hnext⟩ := h
  cases hbit : first.toBitVec.getLsbD 6 with
  | true => exact ⟨_, 1, .short hfirst hbit⟩
  | false =>
      have hsecond : μ.byteAt (a + 1) = .ok _ := dif_pos (hnext hbit)
      exact ⟨_, 2, .long hfirst hbit hsecond⟩

theorem getLsbD_seven (first : UInt8) : first.toBitVec.getLsbD 7 = (first.toNat / 128 == 1) := by
  have hlt := first.toNat_lt
  have hbit : first.toBitVec.getLsbD 7 = decide (first.toNat / 128 % 2 = 1) :=
    Nat.testBit_eq_decide_div_mod_eq
  rw [hbit, Nat.mod_eq_of_lt (by omega)]
  rfl

theorem getLsbD_six (first : UInt8) :
    first.toBitVec.getLsbD 6 = decide (first.toNat / 64 % 2 = 1) :=
  Nat.testBit_eq_decide_div_mod_eq

theorem toNat_setWidth_six (first : UInt8) :
    (first.toBitVec.setWidth 6).toNat = first.toNat % 64 :=
  BitVec.toNat_setWidth ..

/-- The number that the low bits of two bytes stand for in two's complement. -/
theorem toInt_append (first second : UInt8) :
    (first.toBitVec.setWidth 6 ++ second.toBitVec).toInt =
      if 256 * (first.toNat % 64) + second.toNat < 0x2000
      then ((256 * (first.toNat % 64) + second.toNat : Nat) : Int)
      else ((256 * (first.toNat % 64) + second.toNat : Nat) : Int) - 0x4000 := by
  have hsecond := second.toNat_lt
  have hraw : (first.toBitVec.setWidth 6 ++ second.toBitVec).toNat =
      256 * (first.toNat % 64) + second.toNat := by
    rw [BitVec.toNat_append, toNat_setWidth_six,
      ← Nat.shiftLeft_add_eq_or_of_lt second.toBitVec.isLt, Nat.shiftLeft_eq, Nat.mul_comm]
    rfl
  rw [BitVec.toInt_eq_toNat_cond, hraw]
  simp only [Nat.reduceAdd, Nat.reducePow]
  split <;> split <;> omega

/-- The offsets that descriptors can hold. -/
theorem Encoded.range (h : Encoded μ a b width) :
    width = 1 ∧ 0 ≤ b.offset ∧ b.offset ≤ 63 ∨ width = 2 ∧ -8192 ≤ b.offset ∧ b.offset ≤ 8191 := by
  cases h with
  | @short first hbyte hbit =>
      refine .inl ⟨rfl, ?_⟩
      simp only [toNat_setWidth_six]
      omega
  | @long first second hbyte hbit hnext =>
      have hsecond := second.toNat_lt
      refine .inr ⟨rfl, ?_⟩
      simp only [toInt_append]
      split <;> omega

end Branch

namespace Machine

variable {m m' : Machine} {b : Branch} {width : Nat} {condition : Bool}

/-- A descriptor is read as it is encoded, and the pc moves past it. -/
theorem readBranch_of_encoded (h : Branch.Encoded m.memory m.pc b width) :
    readBranch m = (.ok b, { m with pc := m.pc + width }) := by
  cases h with
  | @short first hbyte hbit =>
      have hshort : first.toNat / 64 % 2 = 1 := by
        rw [Branch.getLsbD_six] at hbit
        exact of_decide_eq_true hbit
      rw [readBranch, Branch.read, Action.bind_of_ok (nextByte_eq_ok.mpr ⟨hbyte, rfl⟩)]
      rw [if_pos hshort, Branch.getLsbD_seven, Branch.toNat_setWidth_six]
      rfl
  | @long first second hbyte hbit hnext =>
      have hlong : ¬ first.toNat / 64 % 2 = 1 := by
        rw [Branch.getLsbD_six] at hbit
        exact of_decide_eq_false hbit
      rw [readBranch, Branch.read, Action.bind_of_ok (nextByte_eq_ok.mpr ⟨hbyte, rfl⟩)]
      rw [if_neg hlong, Action.bind_of_ok (nextByte_eq_ok.mpr ⟨hnext, rfl⟩),
        Branch.getLsbD_seven, Branch.toInt_append]
      rfl

/-- A branch reads its descriptor and follows it from behind it. -/
theorem branch_of_encoded (h : Branch.Encoded m.memory m.pc b width) (condition : Bool) :
    branch condition m = follow b condition { m with pc := m.pc + width } :=
  Action.bind_of_ok (readBranch_of_encoded h)

/-! ## What a branch does -/

/-- The result of a branch from a machine that stands past the descriptor: what follows if the
    condition is not the one that the branch asks for; else a return with 0 or 1, or a jump to a
    target in memory, or a failure that changes nothing. -/
structure Follows (b : Branch) (condition : Bool) (past : Machine)
    (r : Except Fault Unit × Machine) : Prop where
  skips : condition ≠ b.onTrue → r = (.ok (), past)
  returnsFalse : condition = b.onTrue → b.offset = 0 → r = returnWith 0 past
  returnsTrue : condition = b.onTrue → b.offset = 1 → r = returnWith 1 past
  jumps : condition = b.onTrue → b.offset ≠ 0 → b.offset ≠ 1 →
    ∀ target : Nat, (target : Int) = past.pc + b.offset - 2 → target < past.memory.size →
      r = (.ok (), { past with pc := target })
  strays : condition = b.onTrue → b.offset ≠ 0 → b.offset ≠ 1 →
    (¬ ∃ target : Nat, (target : Int) = past.pc + b.offset - 2 ∧ target < past.memory.size) →
      ∃ address, r = (.error (.outOfBounds address 1 past.memory.size), past)

/-- A jump goes to its target if this lies in memory. -/
theorem jump_of_lt {offset : Int} {target : Nat} (htarget : (target : Int) = m.pc + offset - 2)
    (hlt : target < m.memory.size) : jump offset m = (.ok (), { m with pc := target }) := by
  simp only [jump]
  rw [if_pos (by omega), ← htarget]
  rfl

/-- A jump whose target does not lie in memory fails and changes nothing. -/
theorem jump_of_outside {offset : Int}
    (h : ¬ ∃ target : Nat, (target : Int) = m.pc + offset - 2 ∧ target < m.memory.size) :
    ∃ address, jump offset m = (.error (.outOfBounds address 1 m.memory.size), m) := by
  simp only [jump]
  rw [if_neg]
  · exact ⟨_, rfl⟩
  · rintro ⟨hnonneg, hlt⟩
    exact h ⟨_, Int.toNat_of_nonneg hnonneg, by omega⟩

/-- A branch on the other outcome goes on with what follows. -/
theorem follow_of_ne (h : condition ≠ b.onTrue) (m : Machine) :
    follow b condition m = (.ok (), m) := by
  rw [follow, if_neg h]
  rfl

/-- A branch with an offset other than 0 and 1 is a jump. -/
theorem follow_eq_jump (h : condition = b.onTrue) (hfalse : b.offset ≠ 0) (htrue : b.offset ≠ 1) :
    follow b condition = jump b.offset := by
  rw [follow, if_pos h, if_neg hfalse, if_neg htrue]

/-- Following a descriptor does what is laid down for it, case by case. -/
theorem follow_follows (b : Branch) (condition : Bool) (m : Machine) :
    Follows b condition m (follow b condition m) where
  skips h := follow_of_ne h m
  returnsFalse h hzero := by rw [follow, if_pos h, if_pos hzero]
  returnsTrue h hone := by
    have hne : b.offset ≠ 0 := by omega
    rw [follow, if_pos h, if_neg hne, if_pos hone]
  jumps h hfalse htrue target htarget hlt := by
    rw [follow_eq_jump h hfalse htrue]
    exact jump_of_lt htarget hlt
  strays h hfalse htrue houtside := by
    rw [follow_eq_jump h hfalse htrue]
    exact jump_of_outside houtside

end Machine

/-! ## Machines that differ in the bytes of a descriptor -/

namespace Memory

variable {μ μ' : Memory} {D : Nat → Prop}

/-- The memories differ at most in the given bytes. -/
structure SameOutside (D : Nat → Prop) (μ μ' : Memory) : Prop where
  size : μ'.size = μ.size
  bytes : ∀ x, ¬ D x → μ'.bytes[x]? = μ.bytes[x]?

/-- A word that is written to both memories is the same in both. -/
theorem agree_writeWord (a : Nat) (x : UInt16) :
    Agree (SameOutside D) (writeWord a x) (writeWord a x) := by
  intro μ μ' h
  by_cases hfits : a + 2 ≤ μ.size
  · obtain ⟨μ₁, hwrite, h₁⟩ := writeWord_eq hfits x
    obtain ⟨μ₁', hwrite', h₁'⟩ := writeWord_eq (m := μ') (h.size.symm ▸ hfits) x
    refine .of_eq hwrite hwrite' ⟨h₁'.size.trans (h.size.trans h₁.size.symm), ?_⟩
    intro y hy
    -- A byte is either written, alike in both, or as it was before, alike in both.
    by_cases hin : a ≤ y ∧ y < a + 2
    · exact h₁'.holds.getElem? h₁.holds hin.1 hin.2
    · have hout : y < a ∨ a + [highByte x, lowByte x].length ≤ y := by
        simp only [List.length_cons, List.length_nil]
        omega
      rw [h₁'.unchanged y hout, h₁.unchanged y hout, h.bytes y hy]
  · -- memories of one size refuse the same addresses
    have hwrite : writeWord a x μ = (.error (μ.outside a 2), μ) := if_neg hfits
    have hwrite' : writeWord a x μ' = (.error (μ.outside a 2), μ') := by
      rw [outside, ← h.size]
      exact if_neg (h.size.symm ▸ hfits)
    exact .of_eq hwrite hwrite' h

end Memory

namespace Machine

variable {m m' : Machine} {D : Nat → Prop}

/-- The machines differ at most in the given bytes of memory. -/
def SameOutside (D : Nat → Prop) (m m' : Machine) : Prop :=
  ∃ μ, m.memory.SameOutside D μ ∧ m' = { m with memory := μ }

theorem agree_changeTop (f : Frame → Except Fault Frame) :
    Agree (SameOutside D) (changeTop f) (changeTop f) := by
  rintro m m' ⟨μ, hμ, rfl⟩
  simp only [AgreeAt, changeTop]
  cases f m.calls.top with
  | ok t => exact ⟨rfl, μ, hμ, rfl⟩
  | error e => exact ⟨rfl, μ, hμ, rfl⟩

/-- A variable is written alike: the same frame, or the same word of memory. -/
theorem agree_writeVariable (v : UInt8) (x : UInt16) :
    Agree (SameOutside D) (writeVariable v x) (writeVariable v x) := by
  unfold writeVariable
  split
  · exact agree_changeTop _
  · split
    · exact agree_changeTop _
    · next hlocal =>
        rw [writeGlobal_eq (Nat.not_lt.mp hlocal)]
        rintro m m' ⟨μ, hμ, rfl⟩
        obtain ⟨hresult, hmemory⟩ := Memory.agree_writeWord (m.globalAddress v) x m.memory μ hμ
        exact ⟨hresult, _, hmemory, rfl⟩

/-- A result is stored alike if the machines have the same byte at the pc. -/
theorem agreeAt_storeResult (h : SameOutside D m m') (hpc : ¬ D m.pc) (x : UInt16) :
    AgreeAt (SameOutside D) (storeResult x) (storeResult x) m m' := by
  refine AgreeAt.bind ?_ fun v s t _ hst => agree_writeVariable v x s t hst
  obtain ⟨μ, hμ, rfl⟩ := h
  simp only [AgreeAt, nextByte, Memory.byteAt_congr hμ.size (hμ.bytes m.pc hpc)]
  cases m.memory.byteAt m.pc with
  | ok v => exact ⟨rfl, μ, hμ, rfl⟩
  | error e => exact ⟨rfl, μ, hμ, rfl⟩

/-- A return does the same to both machines if they have the same byte where the caller goes on. -/
theorem agreeAt_returnWith (h : SameOutside D m m') (hback : ¬ D m.calls.top.returnAddress)
    (x : UInt16) : AgreeAt (SameOutside D) (returnWith x) (returnWith x) m m' := by
  obtain ⟨μ, hμ, rfl⟩ := h
  simp only [AgreeAt, returnWith_eq]
  cases hcallers : m.calls.callers with
  | nil =>
      simp only [CallStack.pop, hcallers]
      exact ⟨trivial, μ, hμ, rfl⟩
  | cons caller rest =>
      simp only [CallStack.pop, hcallers]
      exact agreeAt_storeResult
        (m := { m with calls := ⟨caller, rest⟩, pc := m.calls.top.returnAddress })
        ⟨μ, hμ, rfl⟩ hback x

/-- A jump depends on the size of memory only. -/
theorem agreeAt_jump (h : SameOutside D m m') (offset : Int) :
    AgreeAt (SameOutside D) (jump offset) (jump offset) m m' := by
  obtain ⟨μ, hμ, rfl⟩ := h
  simp only [AgreeAt, jump, hμ.size, Memory.outside]
  split
  · exact ⟨rfl, μ, hμ, rfl⟩
  · exact ⟨rfl, μ, hμ, rfl⟩

/-- A descriptor is followed alike if a return would find the same byte in both machines. -/
theorem agreeAt_follow (h : SameOutside D m m') (hback : ¬ D m.calls.top.returnAddress)
    (b : Branch) (condition : Bool) :
    AgreeAt (SameOutside D) (follow b condition) (follow b condition) m m' := by
  unfold follow
  split
  · split
    · exact agreeAt_returnWith h hback 0
    · split
      · exact agreeAt_returnWith h hback 1
      · exact agreeAt_jump h _
  · exact ⟨rfl, h⟩

end Machine

namespace Session

open Machine

variable {δ : Type} [Device δ] {m : Machine}

/-- The branch protocol. A descriptor whose bytes lie in memory stands for a branch and has one
    byte or two, whatever the condition, and the machine follows the branch from past it. A
    descriptor of another length for the same branch, in a machine that differs in nothing but
    the bytes of descriptors, has the same effect; and a jump by the same offset from there leads
    where the branch leads. -/
theorem branch_follows_descriptor (h : Branch.InMemory m.memory m.pc) :
    ∃ b width, Branch.Encoded m.memory m.pc b width ∧
      (width = 1 ∧ 0 ≤ b.offset ∧ b.offset ≤ 63 ∨
        width = 2 ∧ -8192 ≤ b.offset ∧ b.offset ≤ 8191) ∧
      (∀ condition, Follows b condition { m with pc := m.pc + width } (branch condition m)) ∧
      (∀ condition m' width' D, Branch.Encoded m'.memory m'.pc b width' →
        SameOutside D { m with pc := m.pc + width } { m' with pc := m'.pc + width' } →
        ¬ D m.calls.top.returnAddress →
        AgreeAt (SameOutside D) (branch condition) (branch condition) m m') ∧
      signed (ofSigned b.offset) = b.offset ∧
      (∀ x (device : δ), signed x = b.offset → b.offset ≠ 0 → b.offset ≠ 1 →
        executeOne .jump x ⟨{ m with pc := m.pc + width }, device⟩ =
          onMachine (branch b.onTrue) ⟨m, device⟩) := by
  obtain ⟨b, width, hb⟩ := h.exists_encoded
  refine ⟨b, width, hb, hb.range, ?_, ?_, ?_, ?_⟩
  · intro condition
    rw [branch_of_encoded hb]
    exact follow_follows b condition _
  · intro condition m' width' D hb' hsame hback
    rw [AgreeAt, branch_of_encoded hb, branch_of_encoded hb']
    exact agreeAt_follow hsame hback b condition
  · have hrange := hb.range
    exact signed_ofSigned (by omega) (by omega)
  · intro x device hx hfalse htrue
    have hjump : (executeOne .jump x : Action (Session δ) Unit) = onMachine (jump b.offset) :=
      congrArg (fun i => onMachine (jump i)) hx
    rw [hjump, onMachine_apply, onMachine_apply, branch_of_encoded hb,
      follow_eq_jump rfl hfalse htrue]

/-- A test in a routine that was called, with a branch by 5 in one byte at 2. -/
def shortTest : Machine :=
  { busy with memory := ⟨#[0, 0, 0xC5, 0, 0, 0, 0, 0]⟩, pc := 2 }

/-- The same test with the branch in two bytes, at 1 and 2. -/
def longTest : Machine :=
  { busy with memory := ⟨#[0, 0x80, 5, 0, 0, 0, 0, 0]⟩, pc := 1 }

theorem shortTest_branches :
    branch true shortTest = (.ok (), { shortTest with pc := 6 }) ∧
    branch false shortTest = (.ok (), { shortTest with pc := 3 }) ∧
    (branch true longTest).1 = .ok () ∧
    SameOutside (fun x => x = 1 ∨ x = 2) { shortTest with pc := 6 } (branch true longTest).2 := by
  have hin : Branch.InMemory shortTest.memory shortTest.pc := ⟨0xC5, rfl, by decide⟩
  obtain ⟨b, width, hb, -, hfollows, halike, -⟩ := @branch_follows_descriptor Scripted _ _ hin
  have hlong : Branch.Encoded longTest.memory longTest.pc ⟨true, 5⟩ 2 :=
    @Branch.Encoded.long _ _ 0x80 5 rfl (by decide) rfl
  cases hb with
  | long hbyte hbit =>
      cases hbyte
      cases hbit
  | short hbyte =>
      cases hbyte
      have htrue := (hfollows true).jumps rfl (by decide) (by decide) 6 (by decide) (by decide)
      have hsame : SameOutside (fun x => x = 1 ∨ x = 2) { shortTest with pc := 3 }
          { longTest with pc := 3 } := by
        refine ⟨longTest.memory, ⟨rfl, ?_⟩, rfl⟩
        intro x hx
        rcases x with _ | _ | _ | x
        · rfl
        · exact absurd (.inl rfl) hx
        · exact absurd (.inr rfl) hx
        · rfl
      obtain ⟨hresult, hstate⟩ := halike true longTest 2 _ hlong hsame (by decide)
      rw [htrue] at hresult hstate
      exact ⟨htrue, (hfollows false).skips (by decide), hresult.symm, hstate⟩

end Session

end ZMachine
