import ZMachine.Proofs.Activation
import ZMachine.Proofs.Bytes

/-! # Variables are cells and a stack

    Variables 1 to 255 are cells: what is written to one of them is read back
    from it, and no other is touched. Variable 0 is the evaluation stack of the
    running routine. Locals, stack and globals share one byte of numbering, but
    no two numbers share a place.

    * `Machine.cell`: the value of a variable other than 0, which reading it
      yields without any effect;
    * `writeVariable_cases`: a write fails exactly if a read does, and otherwise
      `Machine.Assigns` says all that it changes;
    * `updateVariable_of_cell`, `updateVariable_of_stack`: additions in place;
    * `Action.Spotless`: accesses that fail leave everything as it was. -/

namespace ZMachine

/-! ## Local variables -/

namespace Frame

variable {v w : UInt8} {x : UInt16} {i : Nat}

/-- A local variable that is set is read again. -/
theorem getLocal_set_self (f : Frame) (hv : v.toNat = i + 1) (hi : i < f.locals.length) :
    ({ f with locals := f.locals.set i x } : Frame).getLocal v = .ok x :=
  getLocal_of_lt _ hv (List.getElem?_set_self hi)

/-- A local variable that is set leaves the others as they are. -/
theorem getLocal_set_ne (f : Frame) (hv : v.toNat = i + 1) (hne : w ≠ v) :
    ({ f with locals := f.locals.set i x } : Frame).getLocal w = f.getLocal w := by
  have hnumber : w.toNat ≠ v.toNat := fun h => hne (UInt8.toNat.inj h)
  by_cases hw : 1 ≤ w.toNat ∧ w.toNat ≤ f.locals.length
  · obtain ⟨j, hj⟩ := Nat.exists_eq_add_of_le' hw.1
    have hx : f.locals[j]? = some _ := List.getElem?_eq_getElem (by omega)
    rw [f.getLocal_of_lt hj hx]
    refine getLocal_of_lt _ hj ?_
    rw [List.getElem?_set_ne (by omega), hx]
  · have hw' : ¬ (1 ≤ w.toNat ∧ w.toNat ≤ (f.locals.set i x).length) := by
      rwa [List.length_set]
    rw [f.getLocal_of_outside hw, getLocal_of_outside _ hw', List.length_set]

/-- A local variable can be set exactly if it can be read. -/
theorem setLocal_cases (f : Frame) (v : UInt8) (x : UInt16) :
    (∃ e, f.getLocal v = .error e ∧ f.setLocal v x = .error e) ∨
    ∃ i old, v.toNat = i + 1 ∧ f.locals[i]? = some old ∧
      f.setLocal v x = .ok { f with locals := f.locals.set i x } := by
  by_cases hv : 1 ≤ v.toNat ∧ v.toNat ≤ f.locals.length
  · obtain ⟨i, hi⟩ := Nat.exists_eq_add_of_le' hv.1
    have hlt : i < f.locals.length := by omega
    exact .inr ⟨i, _, hi, List.getElem?_eq_getElem hlt, f.setLocal_of_lt hi hlt x⟩
  · exact .inl ⟨_, f.getLocal_of_outside hv, f.setLocal_of_outside hv x⟩

/-- Setting a local variable back restores the frame. -/
theorem setLocal_set (f : Frame) {old : UInt16} (hv : v.toNat = i + 1)
    (hold : f.locals[i]? = some old) :
    ({ f with locals := f.locals.set i x } : Frame).setLocal v old = .ok f := by
  obtain ⟨hi, rfl⟩ := List.getElem?_eq_some_iff.mp hold
  rw [setLocal_of_lt _ hv ((List.length_set ..).symm ▸ hi), List.set_set, List.set_getElem_self]

end Frame

namespace Action

variable {σ α : Type}

/-- From the given state, the action either succeeds or changes nothing. -/
def Spotless (x : Action σ α) (s : σ) : Prop := ∀ e t, x s = (.error e, t) → t = s

/-- An action that succeeds leaves no trace of a fault. -/
theorem Spotless.of_ok {x : Action σ α} {s t : σ} {a : α} (h : x s = (.ok a, t)) :
    x.Spotless s := by
  intro e t' h'
  cases h.symm.trans h'

theorem Spotless.of_error {x : Action σ α} {s : σ} {e : Fault} (h : x s = (.error e, s)) :
    x.Spotless s := by
  intro e' t' h'
  cases h.symm.trans h'
  rfl

end Action

namespace Machine

variable {m m' : Machine} {v w : UInt8} {x old : UInt16}

/-! ## The evaluation stack -/

/-- The machine with another evaluation stack in the running frame. -/
def setStack (m : Machine) (stack : List UInt16) : Machine :=
  { m with calls := m.calls.withTop { m.calls.top with stack } }

@[simp] theorem setStack_stack (m : Machine) (stack : List UInt16) :
    (m.setStack stack).calls.top.stack = stack := rfl

@[simp] theorem setStack_setStack (m : Machine) (stack stack' : List UInt16) :
    (m.setStack stack).setStack stack' = m.setStack stack' := rfl

theorem setStack_eq_self {stack : List UInt16} (h : m.calls.top.stack = stack) :
    m.setStack stack = m := by
  subst h
  rfl

/-- The value on top is taken off. -/
theorem pop_of_cons {rest : List UInt16} (h : m.calls.top.stack = x :: rest) :
    pop m = (.ok x, m.setStack rest) := by
  -- The running frame decides; the machine only puts the frame that is left in its place.
  have hpop : m.calls.top.pop = .ok (x, { m.calls.top with stack := rest }) := by
    rw [Frame.pop, h]
  simp only [pop, hpop]
  rfl

/-- Nothing can be taken off an empty stack, which stays as it is. -/
theorem pop_of_nil (h : m.calls.top.stack = []) :
    pop m = (.error (.stackUnderflow m.calls.top.address), m) := by
  have hpop : m.calls.top.pop = .error (.stackUnderflow m.calls.top.address) := by
    rw [Frame.pop, h]
  simp only [pop, hpop]

theorem peek_of_cons {rest : List UInt16} (h : m.calls.top.stack = x :: rest) :
    askTop Frame.peek m = (.ok x, m) := by
  rw [askTop, Action.ask_apply, Frame.peek_of_cons _ h]

theorem peek_of_nil (h : m.calls.top.stack = []) :
    askTop Frame.peek m = (.error (.stackUnderflow m.calls.top.address), m) := by
  rw [askTop, Action.ask_apply, Frame.peek_of_nil _ h]

/-- The value on top is replaced. -/
theorem poke_of_cons {rest : List UInt16} (h : m.calls.top.stack = old :: rest) (x : UInt16) :
    changeTop (·.poke x) m = (.ok (), m.setStack (x :: rest)) := by
  have hpoke : m.calls.top.poke x = .ok { m.calls.top with stack := x :: rest } := by
    rw [Frame.poke, h]
  simp only [changeTop, hpoke]
  rfl

theorem poke_of_nil (h : m.calls.top.stack = []) (x : UInt16) :
    changeTop (·.poke x) m = (.error (.stackUnderflow m.calls.top.address), m) := by
  have hpoke : m.calls.top.poke x = .error (.stackUnderflow m.calls.top.address) := by
    rw [Frame.poke, h]
  simp only [changeTop, hpoke]

/-- By the standard rule, reading variable 0 takes a value off the stack. -/
theorem readVariable_standard (hrule : m.rules.stack = .standard) : readVariable 0 m = pop m := by
  rw [readVariable, if_pos rfl, Action.bind_of_ok (Action.view_apply _ _), hrule]

/-- By the legacy rule, it leaves the value there. -/
theorem readVariable_legacy (hrule : m.rules.stack = .legacy) :
    readVariable 0 m = askTop Frame.peek m := by
  rw [readVariable, if_pos rfl, Action.bind_of_ok (Action.view_apply _ _), hrule]

theorem writeVariable_zero (x : UInt16) (m : Machine) :
    writeVariable 0 x m = (.ok (), m.setStack (x :: m.calls.top.stack)) := rfl

/-! ## Cells -/

/-- The value of a variable other than 0. -/
def cell (m : Machine) (v : UInt8) : Except Fault UInt16 :=
  if v.toNat < 16 then m.calls.top.getLocal v else m.memory.wordAt (m.globalAddress v)

theorem cell_local (hv : v.toNat < 16) : m.cell v = m.calls.top.getLocal v := if_pos hv

theorem cell_global (hv : 16 ≤ v.toNat) : m.cell v = m.memory.wordAt (m.globalAddress v) :=
  if_neg (Nat.not_lt.mpr hv)

@[simp] theorem cell_setStack (m : Machine) (stack : List UInt16) (v : UInt8) :
    (m.setStack stack).cell v = m.cell v := rfl

/-- Reading a variable other than the stack changes nothing. -/
theorem readVariable_eq_cell (hv : v ≠ 0) (m : Machine) : readVariable v m = (m.cell v, m) := by
  rw [readVariable, if_neg hv]
  by_cases hlow : v.toNat < 16
  · rw [if_pos hlow, cell_local hlow]
    rfl
  · rw [if_neg hlow, cell_global (Nat.not_lt.mp hlow), readGlobal_eq (Nat.not_lt.mp hlow)]
    rfl

theorem readIndirect_eq_cell (hv : v ≠ 0) (m : Machine) : readIndirect v m = (m.cell v, m) := by
  rw [readIndirect, if_neg hv, readVariable_eq_cell hv]

/-- The second machine is the first one after a write to a variable other than 0: the variable
    has the value, and all else is as it was. -/
structure Assigns (m : Machine) (v : UInt8) (x : UInt16) (m' : Machine) : Prop where
  value : readVariable v m' = (.ok x, m')
  others : ∀ w, w ≠ 0 → w ≠ v → (readVariable w m').1 = (readVariable w m).1
  /-- Of memory, only the word of a global variable is written. -/
  size : m'.memory.size = m.memory.size
  bytes : ∀ a, ¬ (16 ≤ v.toNat ∧ m.globalAddress v ≤ a ∧ a < m.globalAddress v + 2) →
    m'.memory.bytes[a]? = m.memory.bytes[a]?
  /-- Beside memory, only locals of the running frame are written. -/
  rest : ∃ memory locals, m' =
    { m with memory, calls := m.calls.withTop { m.calls.top with locals } }

/-- A local variable is written in the running frame. -/
theorem writeVariable_local (hzero : v ≠ 0) (hv : v.toNat < 16) (x : UInt16) (m : Machine) :
    writeVariable v x m = changeTop (·.setLocal v x) m := by
  rw [writeVariable, if_neg hzero, if_pos hv]

/-- A global variable is written in memory. -/
theorem writeVariable_global (hv : 16 ≤ v.toNat) (x : UInt16) (m : Machine) :
    writeVariable v x m = onMemory (Memory.writeWord (m.globalAddress v) x) m := by
  have hzero : v ≠ 0 := by
    rintro rfl
    exact absurd hv (by decide)
  rw [writeVariable, if_neg hzero, if_neg (Nat.not_lt.mpr hv), writeGlobal_eq hv,
    Action.bind_of_ok (Action.view_apply _ _)]

/-- A local variable is written in the running frame. -/
theorem assigns_local {i : Nat} (hv : v.toNat = i + 1) (hlow : v.toNat < 16)
    (hi : i < m.calls.top.locals.length) : m.Assigns v x { m with
      calls := m.calls.withTop { m.calls.top with locals := m.calls.top.locals.set i x } } where
  value := by
    have hzero : v ≠ 0 := by
      rintro rfl
      cases hv
    rw [readVariable_eq_cell hzero, cell_local hlow]
    exact congrArg (·, _) (Frame.getLocal_set_self _ hv hi)
  -- Another variable is another local one, or lies in memory.
  others w hw hne := by
    rw [readVariable_eq_cell hw, readVariable_eq_cell hw]
    by_cases hlow' : w.toNat < 16
    · rw [cell_local hlow', cell_local hlow']
      exact Frame.getLocal_set_ne _ hv hne
    · rw [cell_global (Nat.not_lt.mp hlow'), cell_global (Nat.not_lt.mp hlow')]
      rfl
  size := rfl
  bytes _ _ := rfl
  rest := ⟨m.memory, _, rfl⟩

/-- A global variable is written in memory. Others have words of their own there. -/
theorem assigns_global {memory : Memory} (hv : 16 ≤ v.toNat)
    (h : m.memory.Overwritten (m.globalAddress v) [highByte x, lowByte x] memory) :
    m.Assigns v x { m with memory } where
  value := by
    rw [readVariable_global hv]
    exact congrArg (·, _) (Memory.wordAt_eq_ok.mpr h.holds)
  others w hw hne := by
    rw [readVariable_eq_cell hw, readVariable_eq_cell hw]
    by_cases hlow : w.toNat < 16
    · rw [cell_local hlow, cell_local hlow]
    · rw [cell_global (Nat.not_lt.mp hlow), cell_global (Nat.not_lt.mp hlow)]
      have hnumber : w.toNat ≠ v.toNat := fun hwv => hne (UInt8.toNat.inj hwv)
      -- Words of two bytes at even distances do not overlap.
      have hapart : ∀ a, m.globalAddress w ≤ a → a < m.globalAddress w + 2 →
          memory.bytes[a]? = m.memory.bytes[a]? := by
        intro a hlower hupper
        refine h.unchanged a ?_
        simp only [globalAddress, List.length_cons, List.length_nil] at hlower hupper ⊢
        omega
      exact Memory.wordAt_congr (a := m.globalAddress w) h.size
        (hapart _ (Nat.le_refl _) (by omega)) (hapart _ (Nat.le_succ _) (by omega))
  size := h.size
  bytes a ha := by
    refine h.unchanged a ?_
    simp only [List.length_cons, List.length_nil]
    omega
  rest := ⟨memory, m.calls.top.locals, rfl⟩

/-- What a write of `x` to a variable can do: it fails exactly as a read does and then changes
    nothing, or it assigns the value and can be undone. -/
def WritesCell (m : Machine) (v : UInt8) (x : UInt16) : Prop :=
  (∃ e, m.cell v = .error e ∧ writeVariable v x m = (.error e, m)) ∨
  ∃ old m', m.cell v = .ok old ∧ writeVariable v x m = (.ok (), m') ∧ m.Assigns v x m' ∧
    writeVariable v old m' = (.ok (), m)

/-- Writing a local variable succeeds exactly if there is one, and keeps all others. -/
theorem writesCell_local (hzero : v ≠ 0) (hlow : v.toNat < 16) (x : UInt16) (m : Machine) :
    m.WritesCell v x := by
  unfold WritesCell
  rw [cell_local hlow, writeVariable_local hzero hlow]
  rcases m.calls.top.setLocal_cases v x with ⟨e, hget, hset⟩ | ⟨i, old, hi, hold, hset⟩
  · exact .inl ⟨e, hget, by simp only [changeTop, hset]⟩
  · have hlt : i < m.calls.top.locals.length := (List.getElem?_eq_some_iff.mp hold).1
    refine .inr ⟨old, _, ?_, by simp only [changeTop, hset], assigns_local hi hlow hlt, ?_⟩
    · exact Frame.getLocal_of_lt _ hi hold
    · rw [writeVariable_local hzero hlow]
      simp only [changeTop, CallStack.withTop, Frame.setLocal_set _ hi hold]

/-- The same for a global variable. -/
theorem writesCell_global (hv : 16 ≤ v.toNat) (x : UInt16) (m : Machine) : m.WritesCell v x := by
  unfold WritesCell
  rw [cell_global hv, writeVariable_global hv, onMemory_apply]
  by_cases hfits : m.globalAddress v + 2 ≤ m.memory.size
  · obtain ⟨old, hold⟩ : ∃ old, m.memory.wordAt (m.globalAddress v) = .ok old :=
      ⟨_, dif_pos hfits⟩
    obtain ⟨memory, hwrite, hmemory⟩ := Memory.writeWord_eq hfits x
    obtain ⟨memory', hback, hmemory'⟩ :=
      Memory.writeWord_eq (m := memory) (by rw [hmemory.size]; exact hfits) old
    -- Writing the old word back restores memory.
    obtain rfl : memory' = m.memory :=
      hmemory.restores hmemory' rfl (Memory.wordAt_eq_ok.mp hold)
    rw [hwrite]
    refine .inr ⟨old, { m with memory }, hold, rfl, assigns_global hv hmemory, ?_⟩
    rw [writeVariable_global hv, onMemory_apply]
    exact congrArg (fun r => (r.1, { m with memory := r.2 })) hback
  · have hread : m.memory.wordAt (m.globalAddress v) = .error (m.memory.outside _ 2) :=
      dif_neg hfits
    have hwrite : Memory.writeWord (m.globalAddress v) x m.memory =
        (.error (m.memory.outside _ 2), m.memory) := if_neg hfits
    rw [hwrite]
    exact .inl ⟨_, hread, rfl⟩

/-- A write to a variable other than 0 fails exactly as a read does, and then changes nothing.
    One that succeeds assigns the value, and writing the old value restores the machine. -/
theorem writeVariable_cases (hzero : v ≠ 0) (x : UInt16) (m : Machine) : m.WritesCell v x := by
  by_cases hlow : v.toNat < 16
  · exact writesCell_local hzero hlow x m
  · exact writesCell_global (Nat.not_lt.mp hlow) x m

/-- The variables that can be written are those that can be read. -/
theorem exists_writeVariable_iff (hzero : v ≠ 0) :
    (∃ m', writeVariable v x m = (.ok (), m')) ↔ ∃ old, readVariable v m = (.ok old, m) := by
  rw [readVariable_eq_cell hzero]
  rcases writeVariable_cases hzero x m with ⟨e, hcell, hwrite⟩ | ⟨old, m', hcell, hwrite, -⟩
  · rw [hcell, hwrite]
    constructor
    · rintro ⟨m', ⟨⟩⟩
    · rintro ⟨old, ⟨⟩⟩
  · rw [hcell, hwrite]
    exact ⟨fun _ => ⟨old, rfl⟩, fun _ => ⟨m', rfl⟩⟩

/-- Writing a variable changes that variable only. -/
theorem assigns_of_writeVariable (hzero : v ≠ 0) (h : writeVariable v x m = (.ok (), m')) :
    m.Assigns v x m' := by
  rcases writeVariable_cases hzero x m with ⟨e, -, hwrite⟩ | ⟨old, m₁, -, hwrite, hassigns, -⟩
  · cases h.symm.trans hwrite
  · cases h.symm.trans hwrite
    exact hassigns

/-- Under the standard rule, a value that is pushed can be taken back. -/
theorem readVariable_pushed (hrule : m.rules.stack = .standard) (x : UInt16) :
    readVariable 0 (m.setStack (x :: m.calls.top.stack)) = (.ok x, m) := by
  have hrule' : (m.setStack (x :: m.calls.top.stack)).rules.stack = .standard := hrule
  rw [readVariable_standard hrule', pop_of_cons (setStack_stack _ _), setStack_setStack,
    setStack_eq_self rfl]

/-! ## Additions in place -/

/-- By the standard rule, writing variable 0 by its number replaces the value on top. -/
theorem writeIndirect_standard (hrule : m.rules.stack = .standard) (v : UInt8) (x : UInt16) :
    writeIndirect v x m = if v = 0 then changeTop (·.poke x) m else writeVariable v x m := by
  rw [writeIndirect, Action.bind_of_ok (Action.view_apply _ _), hrule]
  exact apply_ite (fun y : Action Machine Unit => y m) _ _ _

/-- By the legacy rule, it puts a value on the stack. -/
theorem writeIndirect_legacy (hrule : m.rules.stack = .legacy) (v : UInt8) (x : UInt16) :
    writeIndirect v x m = writeVariable v x m := by
  rw [writeIndirect, Action.bind_of_ok (Action.view_apply _ _), hrule]

/-- An addition to a variable other than 0 that can be read assigns the sum. -/
theorem updateVariable_of_cell (hzero : v ≠ 0) (hold : m.cell v = .ok old) (delta : UInt16)
    (hwrite : writeVariable v (old + delta) m = (.ok (), m')) :
    updateVariable v delta m = (.ok (old + delta), m') := by
  have hread : readIndirect v m = (.ok old, m) := by rw [readIndirect_eq_cell hzero, hold]
  rw [updateVariable, Action.bind_of_ok hread]
  dsimp only
  rw [if_neg hzero, Action.bind_of_ok hwrite]
  rfl

/-- A variable that cannot be read is not counted up or down. -/
theorem updateVariable_of_error {e : Fault} (hread : readIndirect v m = (.error e, m))
    (delta : UInt16) : updateVariable v delta m = (.error e, m) :=
  Action.bind_of_error hread

/-- An addition to variable 0 replaces the value on top. -/
theorem updateVariable_of_stack {rest : List UInt16} (h : m.calls.top.stack = old :: rest)
    (delta : UInt16) :
    updateVariable 0 delta m = (.ok (old + delta), m.setStack ((old + delta) :: rest)) := by
  have hread : readIndirect 0 m = (.ok old, m) := peek_of_cons h
  rw [updateVariable, Action.bind_of_ok hread]
  dsimp only
  rw [if_pos rfl, Action.bind_of_ok (poke_of_cons h _)]
  rfl

/-- What an addition to a variable can do: it fails exactly as a read in place does and then
    changes nothing, or it sets the variable to the sum and can be undone. -/
theorem updateVariable_cases (v : UInt8) (delta : UInt16) (m : Machine) :
    (∃ e, readIndirect v m = (.error e, m) ∧ updateVariable v delta m = (.error e, m)) ∨
    ∃ old m', readIndirect v m = (.ok old, m) ∧
      updateVariable v delta m = (.ok (old + delta), m') ∧
      updateVariable v (-delta) m' = (.ok old, m) ∧
      (v ≠ 0 → m.Assigns v (old + delta) m') ∧
      (v = 0 → ∃ rest, m.calls.top.stack = old :: rest ∧
        m' = m.setStack ((old + delta) :: rest)) := by
  -- Words wrap around, so that adding the negative always leads back.
  have hback : ∀ old : UInt16, old + delta + -delta = old := by
    intro old
    rw [UInt16.add_assoc, UInt16.add_right_neg, UInt16.add_zero]
  by_cases hzero : v = 0
  · subst hzero
    cases hstack : m.calls.top.stack with
    | nil =>
        have hread : readIndirect 0 m = (.error _, m) := peek_of_nil hstack
        exact .inl ⟨_, hread, updateVariable_of_error hread delta⟩
    | cons old rest =>
        refine .inr ⟨old, _, peek_of_cons hstack, updateVariable_of_stack hstack delta, ?_,
          fun hne => absurd rfl hne, fun _ => ⟨rest, rfl, rfl⟩⟩
        rw [updateVariable_of_stack (setStack_stack _ _), hback, setStack_setStack,
          setStack_eq_self hstack]
  · cases hcell : m.cell v with
    | error e =>
        have hread : readIndirect v m = (.error e, m) := by
          rw [readIndirect_eq_cell hzero, hcell]
        exact .inl ⟨e, hread, updateVariable_of_error hread delta⟩
    | ok old =>
        have hread : readIndirect v m = (.ok old, m) := by rw [readIndirect_eq_cell hzero, hcell]
        -- A variable that could be read can be written.
        rcases writeVariable_cases hzero (old + delta) m with
          ⟨e, herror, -⟩ | ⟨old', m', hok, hwrite, hassigns, hundo⟩
        · cases hcell.symm.trans herror
        · cases hcell.symm.trans hok
          have hcell' : m'.cell v = .ok (old + delta) := by
            have hvalue := hassigns.value
            rw [readVariable_eq_cell hzero] at hvalue
            exact congrArg Prod.fst hvalue
          have hsub : updateVariable v (-delta) m' = (.ok (old + delta + -delta), m) := by
            refine updateVariable_of_cell hzero hcell' (-delta) ?_
            rw [hback]
            exact hundo
          rw [hback] at hsub
          exact .inr ⟨old, m', hread, updateVariable_of_cell hzero hcell delta hwrite, hsub,
            fun _ => hassigns, fun h => absurd h hzero⟩

/-! ## Accesses that fail, and the height of the stack -/

theorem spotless_readVariable (v : UInt8) (m : Machine) : (readVariable v).Spotless m := by
  by_cases hzero : v = 0
  · subst hzero
    cases hrule : m.rules.stack with
    | legacy =>
        intro e m' h
        rw [readVariable_legacy hrule] at h
        exact (congrArg Prod.snd h).symm
    | standard =>
        cases hstack : m.calls.top.stack with
        | nil => exact .of_error ((readVariable_standard hrule).trans (pop_of_nil hstack))
        | cons x rest => exact .of_ok ((readVariable_standard hrule).trans (pop_of_cons hstack))
  · intro e m' h
    rw [readVariable_eq_cell hzero] at h
    exact (congrArg Prod.snd h).symm

theorem spotless_writeVariable (v : UInt8) (x : UInt16) (m : Machine) :
    (writeVariable v x).Spotless m := by
  by_cases hzero : v = 0
  · subst hzero
    exact .of_ok (writeVariable_zero x m)
  · rcases writeVariable_cases hzero x m with ⟨e, -, hwrite⟩ | ⟨old, m', -, hwrite, -⟩
    · exact .of_error hwrite
    · exact .of_ok hwrite

/-- A result goes to the variable that the byte at the pc names. -/
theorem storeResult_of_byte (h : m.memory.byteAt m.pc = .ok v) (x : UInt16) :
    storeResult x m = writeVariable v x { m with pc := m.pc + 1 } := by
  have hnext : nextByte m = (.ok v, { m with pc := m.pc + 1 }) := by simp only [nextByte, h]
  exact Action.bind_of_ok hnext

/-- A result without a place changes nothing. -/
theorem storeResult_of_outside {e : Fault} (h : m.memory.byteAt m.pc = .error e) (x : UInt16) :
    storeResult x m = (.error e, m) := by
  have hnext : nextByte m = (.error e, m) := by simp only [nextByte, h]
  exact Action.bind_of_error hnext

/-- A read in place changes nothing at all. -/
theorem readIndirect_snd (v : UInt8) (m : Machine) : (readIndirect v m).2 = m := by
  by_cases hzero : v = 0
  · subst hzero
    rfl
  · rw [readIndirect_eq_cell hzero]

theorem spotless_readIndirect (v : UInt8) (m : Machine) : (readIndirect v).Spotless m := by
  intro e m' h
  have hsame := readIndirect_snd v m
  rw [h] at hsame
  exact hsame

/-- Under the standard rule, a write in place keeps the height of the stack or fails and
    changes nothing. -/
theorem writeIndirect_cases (hrule : m.rules.stack = .standard) (v : UInt8) (x : UInt16) :
    (∃ e, writeIndirect v x m = (.error e, m)) ∨
    ∃ m', writeIndirect v x m = (.ok (), m') ∧
      m'.calls.top.stack.length = m.calls.top.stack.length := by
  rw [writeIndirect_standard hrule]
  by_cases hzero : v = 0
  · rw [if_pos hzero]
    cases hstack : m.calls.top.stack with
    | nil => exact .inl ⟨_, poke_of_nil hstack x⟩
    | cons old rest => exact .inr ⟨_, poke_of_cons hstack x, rfl⟩
  · rw [if_neg hzero]
    rcases writeVariable_cases hzero x m with ⟨e, -, hwrite⟩ | ⟨old, m', -, hwrite, hassigns, -⟩
    · exact .inl ⟨e, hwrite⟩
    · obtain ⟨memory, locals, rfl⟩ := hassigns.rest
      exact .inr ⟨_, hwrite, rfl⟩

theorem spotless_writeIndirect (v : UInt8) (x : UInt16) (m : Machine) :
    (writeIndirect v x).Spotless m := by
  cases hrule : m.rules.stack with
  | standard =>
      rcases writeIndirect_cases hrule v x with ⟨e, h⟩ | ⟨m', h, -⟩
      · exact .of_error h
      · exact .of_ok h
  | legacy =>
      intro e m' h
      rw [writeIndirect_legacy hrule] at h
      exact spotless_writeVariable v x m e m' h

theorem spotless_updateVariable (v : UInt8) (delta : UInt16) (m : Machine) :
    (updateVariable v delta).Spotless m := by
  rcases updateVariable_cases v delta m with ⟨e, -, h⟩ | ⟨old, m', -, h, -⟩
  · exact .of_error h
  · exact .of_ok h

/-- Variables 1 to 255 are independent cells, and variable 0 is a stack. A write to a cell
    succeeds exactly if a read does, and is then what a read finds; additions in place set the
    sum and can be undone; writing to variable 0 pushes, and under the standard rule reading it
    takes back what was pushed, while accesses in place keep the height of the stack. Whatever
    fails changes nothing. -/
theorem variables_are_cells_and_stack (m : Machine) :
    (∀ v x, v ≠ 0 →
      ((∃ m', writeVariable v x m = (.ok (), m')) ↔ ∃ old, readVariable v m = (.ok old, m)) ∧
      ∀ m', writeVariable v x m = (.ok (), m') → m.Assigns v x m') ∧
    (∀ v delta old, (readIndirect v m).1 = .ok old →
      ∃ m', updateVariable v delta m = (.ok (old + delta), m') ∧
        updateVariable v (-delta) m' = (.ok old, m) ∧
        (v ≠ 0 → m.Assigns v (old + delta) m') ∧
        (v = 0 → ∃ rest, m.calls.top.stack = old :: rest ∧
          m' = m.setStack ((old + delta) :: rest))) ∧
    (∀ x, writeVariable 0 x m = (.ok (), m.setStack (x :: m.calls.top.stack))) ∧
    (m.rules.stack = .standard →
      (∀ x, (writeVariable 0 x >>= fun _ => readVariable 0) m = (.ok x, m)) ∧
      ∀ v x, (readIndirect v m).2.calls.top.stack.length = m.calls.top.stack.length ∧
        (writeIndirect v x m).2.calls.top.stack.length = m.calls.top.stack.length) ∧
    ∀ v x, (readVariable v).Spotless m ∧ (writeVariable v x).Spotless m ∧
      (readIndirect v).Spotless m ∧ (writeIndirect v x).Spotless m ∧
      (updateVariable v x).Spotless m := by
  refine ⟨?_, ?_, fun x => writeVariable_zero x m, ?_, ?_⟩
  · intro v x hzero
    exact ⟨exists_writeVariable_iff hzero, fun m' => assigns_of_writeVariable hzero⟩
  · intro v delta old hold
    rcases updateVariable_cases v delta m with ⟨e, hread, -⟩ | ⟨old', m', hread, hrest⟩
    · rw [hread] at hold
      cases hold
    · rw [hread] at hold
      cases hold
      exact ⟨m', hrest⟩
  · intro hrule
    refine ⟨?_, ?_⟩
    · intro x
      rw [Action.bind_of_ok (writeVariable_zero x m)]
      exact readVariable_pushed hrule x
    · intro v x
      rw [readIndirect_snd]
      refine ⟨rfl, ?_⟩
      rcases writeIndirect_cases hrule v x with ⟨e, h⟩ | ⟨m', h, hheight⟩
      · rw [h]
      · rw [h]
        exact hheight
  · intro v x
    exact ⟨spotless_readVariable v m, spotless_writeVariable v x m, spotless_readIndirect v m,
      spotless_writeIndirect v x m, spotless_updateVariable v x m⟩

/-- A routine with two locals and two values on its stack. The memory ends after the second
    global variable. -/
def busy : Machine :=
  { start { (default : Story) with header := { (default : Header) with globals := 2 } } {} 0 with
    memory := ⟨#[0, 0, 0, 11, 0, 12]⟩
    calls :=
      { top := { address := 20, returnAddress := 3, locals := [5, 6], stack := [7, 8] }
        callers := [Frame.main 0] } }

/-- What the variables of the sample machine do. -/
theorem busy_cells_and_stack :
    (∃ m', writeVariable 17 500 busy = (.ok (), m') ∧ readVariable 17 m' = (.ok 500, m') ∧
      (readVariable 16 m').1 = .ok 11 ∧ (readVariable 2 m').1 = .ok 6) ∧
    (¬ ∃ m', writeVariable 18 500 busy = (.ok (), m')) ∧
    (∃ m', updateVariable 0 0xfffd busy = (.ok 4, m') ∧
      m'.calls.top.stack = [4, 8] ∧ updateVariable 0 3 m' = (.ok 7, busy)) ∧
    (writeVariable 0 9 >>= fun _ => readVariable 0) busy = (.ok 9, busy) := by
  obtain ⟨hcells, hupdates, -, hstandard, -⟩ := variables_are_cells_and_stack busy
  refine ⟨?_, ?_, ?_, (hstandard rfl).1 9⟩
  · obtain ⟨m', hwrite⟩ := (hcells 17 500 (by decide)).1.mpr ⟨12, rfl⟩
    have hassigns := (hcells 17 500 (by decide)).2 m' hwrite
    refine ⟨m', hwrite, hassigns.value, ?_, ?_⟩
    · rw [hassigns.others 16 (by decide) (by decide)]
      rfl
    · rw [hassigns.others 2 (by decide) (by decide)]
      rfl
  · rw [(hcells 18 500 (by decide)).1]
    rintro ⟨old, hread⟩
    have hfault : (readVariable 18 busy).1 = .error (.outOfBounds 6 2 6) := rfl
    rw [hread] at hfault
    cases hfault
  · obtain ⟨m', hadd, hsub, -, hstack⟩ := hupdates 0 0xfffd 7 rfl
    obtain ⟨rest, hrest, rfl⟩ := hstack rfl
    cases hrest
    exact ⟨_, hadd, rfl, hsub⟩

end Machine

end ZMachine
