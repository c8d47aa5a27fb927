import ZMachine.Fault

/-! # Checked operations

    Some operations have a value under a condition only: an index must lie in
    its sequence, a difference must not be negative, a slice must lie within
    what it is cut from, and bounds must be in order. Where the condition fails
    they raise a defect, which names the place that relied on it. -/

namespace ZMachine.Checked

variable {α : Type} {cause : Defect}

/-- Goes on if a condition holds. -/
def require (cause : Defect) (p : Prop) [Decidable p] : Except Fault Unit :=
  if p then .ok () else .error (.defect cause)

/-- The difference of two numbers. -/
def sub (cause : Defect) (a b : Nat) : Except Fault Nat :=
  if b ≤ a then .ok (a - b) else .error (.defect cause)

/-- The element with an index. -/
def index (cause : Defect) (xs : List α) (i : Nat) : Except Fault α :=
  match xs[i]? with
  | some x => .ok x
  | none => .error (.defect cause)

/-- The elements from an index up to another one, which is left out. -/
def slice (cause : Defect) (xs : List α) (start stop : Nat) : Except Fault (List α) :=
  if start ≤ stop ∧ stop ≤ xs.length then .ok ((xs.take stop).drop start)
  else .error (.defect cause)

/-- The number between two bounds that is nearest to a number. -/
def clamp (cause : Defect) (x low high : Nat) : Except Fault Nat :=
  if low ≤ high then .ok (min (max x low) high) else .error (.defect cause)

theorem require_of {p : Prop} [Decidable p] (h : p) : require cause p = .ok () := if_pos h

theorem sub_of_le {a b : Nat} (h : b ≤ a) : sub cause a b = .ok (a - b) := if_pos h

theorem index_of_getElem? {xs : List α} {i : Nat} {x : α} (h : xs[i]? = some x) :
    index cause xs i = .ok x := by
  rw [index, h]

theorem slice_of_le {xs : List α} {start stop : Nat} (h : start ≤ stop) (hstop : stop ≤ xs.length) :
    slice cause xs start stop = .ok ((xs.take stop).drop start) := if_pos ⟨h, hstop⟩

theorem clamp_of_le {x low high : Nat} (h : low ≤ high) :
    clamp cause x low high = .ok (min (max x low) high) := if_pos h

end ZMachine.Checked
