import ZMachine.Proofs.Activation

/-! # What follows the operands

    An instruction does not end with its operands. A byte may follow that names
    the variable for a result, then a branch descriptor of one or two bytes, or
    a string. This file says for each operation which of them it has, and where
    in memory the instruction ends. It then relates the two reads that move the
    pc by a varying number of bytes, of a descriptor and of a string, to this
    layout. -/

namespace ZMachine

open Conduct

/-- The ways in which operations pass on control. -/
inductive Control where
  /-- Always to what follows. -/
  | plain
  /-- By a branch descriptor. -/
  | test
  /-- Out of the running routine. -/
  | leave
  /-- Into a routine. -/
  | call
  /-- By an operand. -/
  | jump
  /-- To the start of the story. -/
  | restart
  deriving DecidableEq, Repr

namespace Operation

/-- How an operation passes on control. -/
def control : Operation → Control
  | .zero .rtrue | .zero .rfalse | .zero .retPopped | .zero .printRet | .one .ret => .leave
  | .zero .save | .zero .restore | .zero .verify => .test
  | .one .jz | .one .getSibling | .one .getChild => .test
  | .two .je | .two .jl | .two .jg | .two .decChk | .two .incChk => .test
  | .two .jin | .two .test | .two .testAttr => .test
  | .many .call => .call
  | .one .jump => .jump
  | .zero .restart => .restart
  | _ => .plain

/-- Whether the number of the variable for a result follows. -/
def stores : Operation → Bool
  | .one .getSibling | .one .getChild | .one .getParent | .one .getPropLen => true
  | .one .load | .one .not => true
  | .two .or | .two .and | .two .loadw | .two .loadb => true
  | .two .getProp | .two .getPropAddr | .two .getNextProp => true
  | .two .add | .two .sub | .two .mul | .two .div | .two .mod => true
  | .many .call | .many .random => true
  | _ => false

/-- Whether a string follows. -/
def prints : Operation → Bool
  | .zero .print | .zero .printRet => true
  | _ => false

/-- The number of bytes for the variable that receives the result. -/
def storeWidth (op : Operation) : Nat := if op.stores then 1 else 0

end Operation

namespace Branch

/-- The number of bytes of the descriptor at an address, as its first byte has it. -/
def width (m : Memory) (a : Nat) : Nat :=
  match m.byteAt a with
  | .ok first => if first.toNat / 64 % 2 = 1 then 1 else 2
  | .error _ => 2

/-- The descriptor at an address. -/
def ofMemory (m : Memory) (a : Nat) : Except Fault Branch :=
  read (m.byteAt a) (m.byteAt (a + 1))

end Branch

/-- The address after the string at an address; a string without an end has no bytes. -/
def Text.stop (m : Memory) (a : Nat) : Nat :=
  match (Text.Extent.starting m a).stop with
  | .ok stop => stop
  | .error _ => a

namespace Operation

/-- The address after an instruction whose operands end at an address. -/
def stop (op : Operation) (m : Memory) (a : Nat) : Nat :=
  let b := a + op.storeWidth
  if op.control = .test then b + Branch.width m b
  else if op.prints then Text.stop m b
  else b

/-- Only reading a sibling or a child both yields a result and branches. -/
theorem stores_and_test_iff (op : Operation) :
    op.stores = true ∧ op.control = .test ↔ op = .one .getSibling ∨ op = .one .getChild := by
  cases op with
  | zero op => cases op <;> decide
  | one op => cases op <;> decide
  | two op => cases op <;> decide
  | many op => cases op <;> decide

/-- Jumping and restarting are left to one operation each. -/
theorem eq_of_control (op : Operation) : (op.control = .jump → op = .one .jump) ∧
    (op.control = .restart → op = .zero .restart) := by
  cases op with
  | zero op => cases op <;> decide
  | one op => cases op <;> decide
  | two op => cases op <;> decide
  | many op => cases op <;> decide

end Operation

/-! ## Strings -/

namespace Text

/-- The end of a string lies in memory. -/
theorem Extent.stop_le_size {m : Memory} {fuel a stop : Nat}
    (h : (Extent.ofMemory m fuel a).stop = .ok stop) : stop ≤ m.size := by
  induction fuel generalizing a with
  | zero => cases h
  | succ fuel ih =>
      rw [Extent.ofMemory] at h
      split at h
      · cases h
      · next w hw =>
          split at h
          · cases h
            have := Memory.lt_size_of_wordAt hw
            omega
          · exact ih h

/-- The address that comes with a decoded text is the end of the string. -/
theorem extent_of_decode {m : Memory} {table a stop : Nat} {text : String}
    (h : decode m table a = .ok (text, stop)) : (Extent.starting m a).stop = .ok stop := by
  unfold decode at h
  obtain ⟨⟨cs, stop'⟩, hcs, h⟩ := FailsOnly.bind_eq_ok.mp h
  cases h
  unfold maxNesting at hcs
  rw [decodeNested] at hcs
  obtain ⟨parts, -, hcs⟩ := FailsOnly.bind_eq_ok.mp hcs
  obtain ⟨stop'', hstop, hcs⟩ := FailsOnly.bind_eq_ok.mp hcs
  cases hcs
  exact hstop

end Text

namespace Session

/-- A string at the pc is read up to its end. -/
theorem inlineText_eq_ok {m m' : Machine} {text : String} (h : inlineText m = (.ok text, m')) :
    m' = { m with pc := Text.stop m.memory m.pc } ∧ m'.pc ≤ m.memory.size := by
  unfold inlineText at h
  split at h
  · next text' stop hdecode =>
      obtain ⟨-, rfl⟩ := Prod.mk.inj h
      have hstop := Text.extent_of_decode hdecode
      refine ⟨?_, Text.Extent.stop_le_size hstop⟩
      unfold Text.stop
      rw [hstop]
  · exact nomatch (Prod.mk.inj h).1

/-- The text behind an instruction is read within memory. -/
theorem obeys_inlineText : Machine.conduct.Obeys inlineText := by
  intro m
  match hm : inlineText m with
  | (.ok text, m') =>
      obtain ⟨hm', hpc⟩ := inlineText_eq_ok hm
      refine ⟨?_, fun e h => nomatch h⟩
      rw [hm'] at hpc ⊢
      exact m.within_pc hpc
  | (.error e, m') =>
      unfold inlineText at hm
      split at hm
      · exact nomatch (Prod.mk.inj hm).1
      · next e' he' =>
          obtain ⟨he, rfl⟩ := Prod.mk.inj hm
          cases he
          exact ⟨.refl m, FailsOnly.error (.inl (Text.failsOnly_decode _ _ e he'))⟩

end Session

/-! ## Branch descriptors -/

namespace Machine

theorem obeys_readBranch : conduct.Obeys readBranch := by
  unfold readBranch Branch.read
  refine moves_nextByte.obeys.bind ?_
  intro first
  split
  · exact .pure _
  · refine moves_nextByte.obeys.bind ?_
    intro second
    exact .pure _

/-- The next byte is the one at the pc, which moves past it. -/
theorem nextByte_eq_ok {m m' : Machine} {b : UInt8} :
    nextByte m = (.ok b, m') ↔ m.memory.byteAt m.pc = .ok b ∧ m' = { m with pc := m.pc + 1 } := by
  unfold nextByte
  split
  · next b' hb =>
      constructor
      · intro h
        obtain ⟨h₁, h₂⟩ := Prod.mk.inj h
        cases h₁
        exact ⟨hb, h₂.symm⟩
      · rintro ⟨h₁, h₂⟩
        cases hb.symm.trans h₁
        rw [h₂]
  · next e he =>
      constructor
      · intro h
        exact nomatch (Prod.mk.inj h).1
      · rintro ⟨h₁, -⟩
        exact nomatch he.symm.trans h₁

/-- A descriptor at the pc is read, and the pc moves by its width. -/
theorem readBranch_eq_ok {m m' : Machine} {b : Branch} (h : readBranch m = (.ok b, m')) :
    Branch.ofMemory m.memory m.pc = .ok b ∧
      m' = { m with pc := m.pc + Branch.width m.memory m.pc } := by
  unfold readBranch Branch.read at h
  obtain ⟨first, m₁, h₁, h⟩ := Action.bind_eq_ok.mp h
  obtain ⟨hfirst, rfl⟩ := nextByte_eq_ok.mp h₁
  unfold Branch.ofMemory Branch.read Branch.width
  rw [hfirst]
  dsimp only
  split at h
  · next hshort =>
      obtain ⟨hb, hm⟩ := Prod.mk.inj h
      cases hb
      refine ⟨if_pos hshort, ?_⟩
      rw [if_pos hshort, ← hm]
  · next hlong =>
      -- The second byte is read where the pc stands after the first.
      obtain ⟨second, m₂, h₂, h⟩ := Action.bind_eq_ok.mp h
      obtain ⟨hsecond, rfl⟩ := nextByte_eq_ok.mp h₂
      obtain ⟨hb, hm⟩ := Prod.mk.inj h
      cases hb
      refine ⟨?_, ?_⟩
      · show (if _ then _ else _ : Except Fault Branch) = _
        rw [if_neg hlong, hsecond]
        rfl
      · rw [if_neg hlong, ← hm]

end Machine

end ZMachine
