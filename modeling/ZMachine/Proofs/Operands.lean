import ZMachine.Machine.Run
import ZMachine.Proofs.Variables

/-! # Values of operands

    The operands of an instruction are read from left to right, and each
    operand that is variable 0 takes its value from the evaluation stack. Under
    the standard rule it takes it off, so the first such operand has the value
    on top, the second one the value below, and so on; under the legacy rule
    all of them have the value on top. Operands of other kinds have their values
    wherever they stand among these.

    * `Machine.Resolved`: the values of a list of operands, given the values that
      the stack supplies; `Resolved.cons`: one more operand in front;
    * `resolveAll_of_height`, `resolveAll_of_short`: the standard rule, with
      enough values on the stack and with too few;
    * `resolveAll_legacy`, `resolveAll_legacy_of_nil`: the legacy rule. -/

namespace ZMachine

namespace Machine

variable {m : Machine} {x : Operand} {xs : List Operand} {vs : List UInt16}

/-- The value of an operand other than variable 0. -/
def operandValue (m : Machine) : Operand → Except Fault UInt16
  | .large w => .ok w
  | .small b => .ok b.toUInt16
  | .var v => (readVariable v m).1

/-- The operands other than variable 0 have values. -/
def Readable (m : Machine) (xs : List Operand) : Prop :=
  ∀ x ∈ xs, x ≠ .var 0 → ∃ w, m.operandValue x = .ok w

instance (m : Machine) (xs : List Operand) : Decidable (m.Readable xs) :=
  decidable_of_iff (∀ x ∈ xs, x ≠ .var 0 → (m.operandValue x).toBool = true) <| by
    constructor
    · intro h x hx hne
      have hvalue := h x hx hne
      cases hw : m.operandValue x with
      | ok w => exact ⟨w, rfl⟩
      | error e =>
          rw [hw] at hvalue
          cases hvalue
    · intro h x hx hne
      obtain ⟨w, hw⟩ := h x hx hne
      rw [hw]
      rfl

/-- The values of operands: those that are variable 0 have, in order, the values that a source
    supplies, and the others have their own. -/
structure Resolved (m : Machine) (source : Nat → Option UInt16) (xs : List Operand)
    (vs : List UInt16) : Prop where
  length : vs.length = xs.length
  stack : ∀ i : Nat, xs[i]? = some (.var 0) → vs[i]? = source ((xs.take i).count (.var 0))
  others : ∀ (i : Nat) x, xs[i]? = some x → x ≠ .var 0 →
    ∃ w, m.operandValue x = .ok w ∧ vs[i]? = some w

/-- Only operands from the stack depend on it. -/
theorem operandValue_setStack (hx : x ≠ .var 0) (m : Machine) (stack : List UInt16) :
    (m.setStack stack).operandValue x = m.operandValue x := by
  cases x with
  | large w => rfl
  | small b => rfl
  | var v =>
      have hv : v ≠ 0 := fun h => hx (congrArg Operand.var h)
      simp only [operandValue, readVariable_eq_cell hv, cell_setStack]

theorem Readable.tail (h : m.Readable (x :: xs)) : m.Readable xs :=
  fun y hy => h y (List.mem_cons_of_mem x hy)

/-- Which operands can be read does not depend on the stack. -/
theorem Readable.setStack (h : m.Readable xs) (stack : List UInt16) :
    (m.setStack stack).Readable xs := by
  intro y hy hne
  rw [operandValue_setStack hne]
  exact h y hy hne

theorem resolved_nil (m : Machine) (source : Nat → Option UInt16) : m.Resolved source [] [] where
  length := rfl
  stack i h := by cases h
  others i x h := by cases h

/-- One more operand in front. If it is variable 0, the source supplies the later ones from its
    second value on. -/
theorem Resolved.cons {m' : Machine} {source source' : Nat → Option UInt16} {v : UInt16}
    (h : m'.Resolved source' xs vs) (hm : ∀ y, y ≠ .var 0 → m'.operandValue y = m.operandValue y)
    (hstack : x = .var 0 → source 0 = some v ∧ ∀ j, source' j = source (j + 1))
    (hother : x ≠ .var 0 → m.operandValue x = .ok v ∧ ∀ j, source' j = source j) :
    m.Resolved source (x :: xs) (v :: vs) where
  length := congrArg (· + 1) h.length
  -- Operands from the stack are counted from the left, so the first one shifts the others.
  stack i hi := by
    cases i with
    | zero =>
        obtain rfl : x = .var 0 := Option.some.inj hi
        exact (hstack rfl).1.symm
    | succ i =>
        rw [List.take_succ_cons, List.getElem?_cons_succ, h.stack i hi]
        by_cases hx : x = .var 0
        · rw [(hstack hx).2, hx, List.count_cons_self]
        · rw [(hother hx).2, List.count_cons_of_ne hx]
  others i y hi hy := by
    cases i with
    | zero =>
        obtain rfl : x = y := Option.some.inj hi
        exact ⟨v, (hother hy).1, rfl⟩
    | succ i =>
        obtain ⟨w, hw, hvs⟩ := h.others i y hi hy
        exact ⟨w, (hm y hy).symm.trans hw, hvs⟩

/-! ## One operand -/

/-- An operand that is not from the stack changes nothing. -/
theorem resolve_other (hx : x ≠ .var 0) (m : Machine) : resolve x m = (m.operandValue x, m) := by
  cases x with
  | large w => rfl
  | small b => rfl
  | var v =>
      have hv : v ≠ 0 := fun h => hx (congrArg Operand.var h)
      simp only [resolve, operandValue, readVariable_eq_cell hv]

/-- An operand other than variable 0 is read without any effect. -/
theorem Readable.head (h : m.Readable (x :: xs)) (hx : x ≠ .var 0) :
    ∃ w, m.operandValue x = .ok w ∧ resolve x m = (.ok w, m) := by
  obtain ⟨w, hw⟩ := h x List.mem_cons_self hx
  exact ⟨w, hw, by rw [resolve_other hx, hw]⟩

/-- Operands are resolved from left to right. -/
theorem resolveAll_cons {v : UInt16} {m₁ m₂ : Machine} (hx : resolve x m = (.ok v, m₁))
    (hxs : resolveAll xs m₁ = (.ok vs, m₂)) : resolveAll (x :: xs) m = (.ok (v :: vs), m₂) := by
  rw [resolveAll, Action.bind_of_ok hx, Action.bind_of_ok hxs]
  rfl

/-- The first operand that fails ends the resolution. -/
theorem resolveAll_cons_error {v : UInt16} {m₁ m₂ : Machine} {e : Fault}
    (hx : resolve x m = (.ok v, m₁)) (hxs : resolveAll xs m₁ = (.error e, m₂)) :
    resolveAll (x :: xs) m = (.error e, m₂) := by
  rw [resolveAll, Action.bind_of_ok hx, Action.bind_of_error hxs]

/-! ## The standard rule -/

/-- By the standard rule, an operand from the stack is taken off it. -/
theorem resolve_pop (hrule : m.rules.stack = .standard) {v : UInt16} {rest : List UInt16}
    (hstack : m.calls.top.stack = v :: rest) : resolve (.var 0) m = (.ok v, m.setStack rest) := by
  rw [resolve, readVariable_standard hrule]
  exact pop_of_cons hstack

/-- With enough values on the stack, each operand that is variable 0 takes one off. -/
theorem resolveAll_of_height (hrule : m.rules.stack = .standard) (hread : m.Readable xs)
    (hheight : xs.count (.var 0) ≤ m.calls.top.stack.length) :
    ∃ vs, resolveAll xs m = (.ok vs, m.setStack (m.calls.top.stack.drop (xs.count (.var 0)))) ∧
      m.Resolved (m.calls.top.stack[·]?) xs vs := by
  induction xs generalizing m with
  | nil => exact ⟨[], rfl, resolved_nil m _⟩
  | cons x xs ih =>
      by_cases hx : x = .var 0
      · subst hx
        rw [List.count_cons_self] at hheight ⊢
        cases hstack : m.calls.top.stack with
        | nil =>
            rw [hstack] at hheight
            cases hheight
        | cons v rest =>
            rw [hstack] at hheight
            -- The rest of the operands find the stack one lower.
            obtain ⟨vs, hvs, hresolved⟩ := ih (m := m.setStack rest) hrule
              (hread.tail.setStack rest) (Nat.le_of_succ_le_succ hheight)
            refine ⟨v :: vs, resolveAll_cons (resolve_pop hrule hstack) hvs, ?_⟩
            exact hresolved.cons (fun y hy => operandValue_setStack hy m rest)
              (fun _ => ⟨rfl, fun _ => rfl⟩) (fun hne => absurd rfl hne)
      · rw [List.count_cons_of_ne hx] at hheight ⊢
        obtain ⟨w, hw, hx'⟩ := hread.head hx
        obtain ⟨vs, hvs, hresolved⟩ := ih hrule hread.tail hheight
        refine ⟨w :: vs, resolveAll_cons hx' hvs, ?_⟩
        exact hresolved.cons (fun _ _ => rfl) (fun h => absurd h hx) fun _ => ⟨hw, fun _ => rfl⟩

/-- With too few values on the stack, reading the operands fails once the stack is empty. -/
theorem resolveAll_of_short (hrule : m.rules.stack = .standard) (hread : m.Readable xs)
    (hheight : m.calls.top.stack.length < xs.count (.var 0)) :
    resolveAll xs m = (.error (.stackUnderflow m.calls.top.address), m.setStack []) := by
  induction xs generalizing m with
  -- The stack has been emptied by the operands before this one.
  | nil => cases hheight
  | cons x xs ih =>
      by_cases hx : x = .var 0
      · subst hx
        rw [List.count_cons_self] at hheight
        cases hstack : m.calls.top.stack with
        | nil =>
            rw [setStack_eq_self hstack, resolveAll]
            refine Action.bind_of_error ?_
            rw [resolve, readVariable_standard hrule]
            exact pop_of_nil hstack
        | cons v rest =>
            rw [hstack] at hheight
            exact resolveAll_cons_error (resolve_pop hrule hstack)
              (ih (m := m.setStack rest) hrule (hread.tail.setStack rest)
                (Nat.lt_of_succ_lt_succ hheight))
      · rw [List.count_cons_of_ne hx] at hheight
        obtain ⟨w, -, hx'⟩ := hread.head hx
        exact resolveAll_cons_error hx' (ih hrule hread.tail hheight)

/-! ## The legacy rule -/

/-- By the legacy rule, it stays there. -/
theorem resolve_peek (hrule : m.rules.stack = .legacy) {v : UInt16} {rest : List UInt16}
    (hstack : m.calls.top.stack = v :: rest) : resolve (.var 0) m = (.ok v, m) := by
  rw [resolve, readVariable_legacy hrule]
  exact peek_of_cons hstack

/-- With a value on the stack, or without an operand that asks for it, nothing changes. -/
theorem resolveAll_legacy (hrule : m.rules.stack = .legacy) (hread : m.Readable xs)
    (hheight : xs.count (.var 0) = 0 ∨ 1 ≤ m.calls.top.stack.length) :
    ∃ vs, resolveAll xs m = (.ok vs, m) ∧
      m.Resolved (fun _ => m.calls.top.stack.head?) xs vs := by
  induction xs with
  | nil => exact ⟨[], rfl, resolved_nil m _⟩
  | cons x xs ih =>
      by_cases hx : x = .var 0
      · subst hx
        rw [List.count_cons_self] at hheight
        cases hstack : m.calls.top.stack with
        | nil =>
            rw [hstack, List.length_nil] at hheight
            omega
        | cons v rest =>
            -- The stack stays as it is, so that all operands get the same value.
            rw [hstack] at ih
            obtain ⟨vs, hvs, hresolved⟩ := ih hread.tail (.inr (Nat.le_add_left 1 _))
            refine ⟨v :: vs, resolveAll_cons (resolve_peek hrule hstack) hvs, ?_⟩
            exact hresolved.cons (fun _ _ => rfl) (fun _ => ⟨rfl, fun _ => rfl⟩)
              (fun hne => absurd rfl hne)
      · rw [List.count_cons_of_ne hx] at hheight
        obtain ⟨w, hw, hx'⟩ := hread.head hx
        obtain ⟨vs, hvs, hresolved⟩ := ih hread.tail hheight
        refine ⟨w :: vs, resolveAll_cons hx' hvs, ?_⟩
        exact hresolved.cons (fun _ _ => rfl) (fun h => absurd h hx) fun _ => ⟨hw, fun _ => rfl⟩

/-- By the legacy rule, an operand from an empty stack fails and changes nothing. -/
theorem resolveAll_legacy_of_nil (hrule : m.rules.stack = .legacy) (hread : m.Readable xs)
    (hcount : xs.count (.var 0) ≠ 0) (hstack : m.calls.top.stack = []) :
    resolveAll xs m = (.error (.stackUnderflow m.calls.top.address), m) := by
  induction xs with
  | nil => exact absurd rfl hcount
  | cons x xs ih =>
      by_cases hx : x = .var 0
      · subst hx
        refine Action.bind_of_error ?_
        rw [resolve, readVariable_legacy hrule]
        exact peek_of_nil hstack
      · rw [List.count_cons_of_ne hx] at hcount
        obtain ⟨w, -, hx'⟩ := hread.head hx
        exact resolveAll_cons_error hx' (ih hread.tail hcount)

/-- Operands are read from left to right. Under the standard rule this succeeds exactly if the
    stack has a value for each operand that is variable 0; the first of these gets the value on
    top, and they are all taken off. Under the legacy rule it needs one value at most, which all
    of them get, and changes nothing. -/
theorem operands_resolved (hread : m.Readable xs) :
    (m.rules.stack = .standard →
      ((∃ vs m', resolveAll xs m = (.ok vs, m')) ↔
        xs.count (.var 0) ≤ m.calls.top.stack.length) ∧
      (xs.count (.var 0) ≤ m.calls.top.stack.length → ∃ vs,
        resolveAll xs m = (.ok vs, m.setStack (m.calls.top.stack.drop (xs.count (.var 0)))) ∧
        m.Resolved (m.calls.top.stack[·]?) xs vs) ∧
      (m.calls.top.stack.length < xs.count (.var 0) →
        resolveAll xs m = (.error (.stackUnderflow m.calls.top.address), m.setStack []))) ∧
    (m.rules.stack = .legacy →
      ((∃ vs m', resolveAll xs m = (.ok vs, m')) ↔
        xs.count (.var 0) = 0 ∨ 1 ≤ m.calls.top.stack.length) ∧
      (xs.count (.var 0) = 0 ∨ 1 ≤ m.calls.top.stack.length → ∃ vs,
        resolveAll xs m = (.ok vs, m) ∧
        m.Resolved (fun _ => m.calls.top.stack.head?) xs vs) ∧
      (xs.count (.var 0) ≠ 0 → m.calls.top.stack = [] →
        resolveAll xs m = (.error (.stackUnderflow m.calls.top.address), m))) := by
  refine ⟨fun hrule =>
      ⟨⟨?_, ?_⟩, resolveAll_of_height hrule hread, resolveAll_of_short hrule hread⟩,
    fun hrule => ⟨⟨?_, ?_⟩, resolveAll_legacy hrule hread, resolveAll_legacy_of_nil hrule hread⟩⟩
  · rintro ⟨vs, m', h⟩
    refine Nat.not_lt.mp fun hshort => ?_
    cases h.symm.trans (resolveAll_of_short hrule hread hshort)
  · intro hheight
    obtain ⟨vs, hvs, -⟩ := resolveAll_of_height hrule hread hheight
    exact ⟨vs, _, hvs⟩
  · rintro ⟨vs, m', h⟩
    by_cases hcount : xs.count (.var 0) = 0
    · exact .inl hcount
    · refine .inr (List.length_pos_iff.mpr fun hstack => ?_)
      cases h.symm.trans (resolveAll_legacy_of_nil hrule hread hcount hstack)
  · intro hheight
    obtain ⟨vs, hvs, -⟩ := resolveAll_legacy hrule hread hheight
    exact ⟨vs, m, hvs⟩

/-- Two operands that are variable 0, with a global variable and a constant between them. -/
theorem busy_operands :
    (∃ vs, resolveAll [.var 0, .var 17, .small 3, .var 0, .var 2] busy =
        (.ok vs, busy.setStack []) ∧ vs[0]? = some 7 ∧ vs[1]? = some 12 ∧ vs[3]? = some 8) ∧
    resolveAll [.var 0, .var 0, .large 1, .var 0] busy =
      (.error (.stackUnderflow 20), busy.setStack []) ∧
    ∃ vs, resolveAll [.var 0, .var 1, .var 0] { busy with rules := { stack := .legacy } } =
        (.ok vs, { busy with rules := { stack := .legacy } }) ∧
      vs[0]? = some 7 ∧ vs[1]? = some 5 ∧ vs[2]? = some 7 := by
  refine ⟨?_, ((operands_resolved (by decide)).1 rfl).2.2 (by decide), ?_⟩
  · have hread : busy.Readable [.var 0, .var 17, .small 3, .var 0, .var 2] := by decide
    obtain ⟨vs, hvs, hresolved⟩ := ((operands_resolved hread).1 rfl).2.1 (by decide)
    obtain ⟨w, hw, hvalue⟩ := hresolved.others 1 (.var 17) rfl (by decide)
    cases hw
    exact ⟨vs, hvs, hresolved.stack 0 rfl, hvalue, hresolved.stack 3 rfl⟩
  · have hread : ({ busy with rules := { stack := .legacy } } : Machine).Readable
        [.var 0, .var 1, .var 0] := by decide
    obtain ⟨vs, hvs, hresolved⟩ := ((operands_resolved hread).2 rfl).2.1 (by decide)
    obtain ⟨w, hw, hvalue⟩ := hresolved.others 1 (.var 1) rfl (by decide)
    cases hw
    exact ⟨vs, hvs, hresolved.stack 0 rfl, hvalue, hresolved.stack 2 rfl⟩

end Machine

end ZMachine
