import ZMachine.Fault

/-! # Actions

    An action reads and changes a state and yields a value or a fault. A fault
    does not undo anything: the state that comes with it is the one in which
    the action stopped. The same shape serves a position in memory, the memory
    itself, a device, a whole machine and the settings under construction. -/

namespace ZMachine

/-- A computation over a state that may fail and keeps the state when it does. -/
def Action (σ α : Type) : Type := σ → Except Fault α × σ

namespace Action

variable {σ τ α β : Type}

/-- The action that yields `a` and does nothing else. -/
@[always_inline, inline]
protected def pure (a : α) : Action σ α := fun s => (.ok a, s)

/-- Runs `x`, and `f` on its value if it has one. -/
@[always_inline, inline]
protected def bind (x : Action σ α) (f : α → Action σ β) : Action σ β := fun s =>
  match x s with
  | (.ok a, t) => f a t
  | (.error e, t) => (.error e, t)

instance : Monad (Action σ) where
  pure := Action.pure
  bind := Action.bind

/-- Fails with `e`. -/
def fail (e : Fault) : Action σ α := fun s => (.error e, s)

/-- Yields what `f` finds in the state. -/
def view (f : σ → α) : Action σ α := fun s => (.ok (f s), s)

/-- Yields what `f` finds in the state, or fails as it does. -/
def ask (f : σ → Except Fault α) : Action σ α := fun s => (f s, s)

/-- Changes the state by `f`. -/
def change (f : σ → σ) : Action σ Unit := fun s => (.ok (), f s)

/-- Yields the value of a result, or fails with its fault. -/
def ofExcept (r : Except Fault α) : Action σ α := fun s => (r, s)

@[simp] theorem pure_apply (a : α) (s : σ) : (pure a : Action σ α) s = (.ok a, s) := rfl

@[simp] theorem fail_apply (e : Fault) (s : σ) : (fail e : Action σ α) s = (.error e, s) := rfl

@[simp] theorem view_apply (f : σ → α) (s : σ) : view f s = (.ok (f s), s) := rfl

@[simp] theorem ask_apply (f : σ → Except Fault α) (s : σ) : ask f s = (f s, s) := rfl

@[simp] theorem change_apply (f : σ → σ) (s : σ) : change f s = (.ok (), f s) := rfl

@[simp] theorem ofExcept_apply (r : Except Fault α) (s : σ) :
    (ofExcept r : Action σ α) s = (r, s) := rfl

/-- A sequence goes on from where its first part succeeded. -/
theorem bind_of_ok {x : Action σ α} {f : α → Action σ β} {s t : σ} {a : α}
    (h : x s = (.ok a, t)) : (x >>= f) s = f a t := by
  show Action.bind x f s = f a t
  rw [Action.bind, h]

/-- A sequence stops where its first part failed. -/
theorem bind_of_error {x : Action σ α} {f : α → Action σ β} {s t : σ} {e : Fault}
    (h : x s = (.error e, t)) : (x >>= f) s = (.error e, t) := by
  show Action.bind x f s = (.error e, t)
  rw [Action.bind, h]

end Action

end ZMachine
