import ZMachine.Proofs.Agreement

/-! # The two stack rules

    The standard and the legacy rule disagree in three places: where variable 0
    is read as an operand, where `pull` pops a value into a variable, and where
    `store` refers to variable 0. Everywhere else they make the same machine.
    Results are pushed alike, `ret_popped` and `pop` take the same value off,
    and `load`, `inc`, `dec`, `inc_chk` and `dec_chk` work on the top in place.

    * `Machine.rulesDiffer`: whether the next instruction is one of the three;
    * `Session.step_withStack`: every other step is the same under both rules;
    * `Session.stack_rules_interchangeable`: whole runs. -/

namespace ZMachine

open ZMachine.Action

namespace Machine

variable {m : Machine} {rule : StackRule}

/-- The machine with another rule for variable 0, and all else as it is. -/
def withStack (m : Machine) (rule : StackRule) : Machine :=
  { m with rules := { m.rules with stack := rule } }

/-- Whether the next instruction has variable 0 as an operand. -/
def readsStack (m : Machine) : Bool :=
  match (fetch m).1 with
  | .ok i => i.operands.contains (.var 0)
  | .error _ => false

/-- Whether an operation on given operands is `pull`, or `store` to variable 0. -/
def refersToStack (op : Operation) (operands : List UInt16) : Bool :=
  op == .many .pull || op == .two .store && operands.head?.any (lowByte · == 0)

/-- Whether the next instruction is one on which the stack rules differ. -/
def rulesDiffer (m : Machine) : Bool :=
  m.readsStack || m.next?.any fun r => refersToStack r.1 r.2

/-- What is aside is the same except for the rule for variable 0, which is the given one. -/
def SameButStack (rule : StackRule) (a b : Aside) : Prop :=
  b = { a with rules := { a.rules with stack := rule } }

/-- To be alike but for the rule is to be the same machine with another rule. -/
theorem alike_withStack_iff {m' : Machine} :
    m.Alike (SameButStack rule) m' ↔ m' = m.withStack rule := by
  constructor
  · rintro ⟨_, rfl, rfl⟩
    rfl
  · rintro rfl
    exact ⟨_, rfl, rfl⟩

/-- Only the three places tell the rules apart. -/
theorem steady_of_not_rulesDiffer (h : m.rulesDiffer = false) :
    m.Steady (SameButStack rule) := by
  obtain ⟨hreads, hrefers⟩ := Bool.or_eq_false_iff.mp h
  constructor
  · intro i m' hfetch hmem
    rw [readsStack, hfetch] at hreads
    exact absurd (List.contains_iff_mem.mpr hmem) (Bool.eq_false_iff.mp hreads)
  · intro op operands hnext
    rw [hnext] at hrefers
    obtain ⟨hpull, hstore⟩ := Bool.or_eq_false_iff.mp hrefers
    refine ⟨?_, ?_, ?_, ?_⟩
    · rintro - a _ rfl
      rfl
    · rintro rfl a ha hzero
      -- The operand that names the stack would have been noticed.
      have hany : operands.head?.any (lowByte · == 0) = true := by
        rw [Option.mem_def.mp ha]
        exact beq_iff_eq.mpr hzero
      rw [hany] at hstore
      cases hstore
    · rintro rfl
      cases hpull
    · rintro - -
      refine ⟨?_, ?_⟩
      · rintro a _ rfl
        rfl
      · rintro a _ e rfl
        rfl

/-- The rule for variable 0 has no part in how a story is loaded. -/
theorem load_withStack {image : Memory} {rules : Rules} {entropy : UInt64}
    (h : load image rules entropy = .ok m) (rule : StackRule) :
    load image { rules with stack := rule } entropy = .ok (m.withStack rule) := by
  obtain ⟨story, hstory, rfl⟩ := exists_story_of_load h
  exact load_of_story hstory { rules with stack := rule } entropy

end Machine

namespace Session

open Machine

variable {δ : Type}

/-- The session with another rule for variable 0, and all else as it is. -/
def withStack (s : Session δ) (rule : StackRule) : Session δ :=
  { s with machine := s.machine.withStack rule }

theorem alike_withStack_iff {s t : Session δ} {rule : StackRule} :
    Alike (SameButStack rule) Eq s t ↔ t = s.withStack rule := by
  obtain ⟨m, d⟩ := s
  obtain ⟨m', d'⟩ := t
  constructor
  · rintro ⟨hmachine, hdevice⟩
    cases Machine.alike_withStack_iff.mp hmachine
    cases hdevice
    rfl
  · intro h
    cases h
    exact ⟨Machine.alike_withStack_iff.mpr rfl, rfl⟩

variable [Device δ]

/-- A step on which the rules do not differ has the same result and effect under both. -/
theorem step_withStack {s : Session δ} (h : s.machine.rulesDiffer = false) (rule : StackRule) :
    step (s.withStack rule) = ((step s).1, (step s).2.withStack rule) := by
  have hcount (a b : Aside) (hab : SameButStack rule a b) :
      SameButStack rule { a with count := a.count + 1 } { b with count := b.count + 1 } := by
    cases hab
    rfl
  obtain ⟨hresult, hstate⟩ := agreeAt_step Device.agree_eq hcount
    (alike_withStack_iff.mpr rfl) (steady_of_not_rulesDiffer h)
  exact Prod.ext hresult.symm (alike_withStack_iff.mp hstate)

/-- As long as the rules do not differ on a step, a run under one is a run under the other. -/
theorem after_withStack {s : Session δ} {n : Nat}
    (h : ∀ k < n, (after k s).machine.rulesDiffer = false) (rule : StackRule) :
    after n (s.withStack rule) = (after n s).withStack rule := by
  induction n generalizing s with
  | zero => rfl
  | succ n ih =>
      have hstep := step_withStack (s := s) (h 0 (Nat.succ_pos n)) rule
      rw [after, after, hstep]
      refine ih ?_
      intro k hk
      exact h (k + 1) (Nat.succ_lt_succ hk)

/-- A story that loads under some rules loads under the same ones with any rule for variable 0,
    and the two sessions stay in lockstep as long as no instruction reads variable 0 as an
    operand, is `pull`, or is `store` to variable 0: each step has the same result, and after
    it the sessions are the same but for the rule. -/
theorem stack_rules_interchangeable {image : Memory} {rules : Rules} {entropy : UInt64}
    {s : Session δ} (hload : load image rules entropy = .ok s.machine) (rule : StackRule)
    {n : Nat} (h : ∀ k < n, (after k s).machine.rulesDiffer = false) :
    ∃ t : Session δ, load image { rules with stack := rule } entropy = .ok t.machine ∧
      t.device = s.device ∧
      (∀ k ≤ n, after k t = (after k s).withStack rule) ∧
      ∀ k < n, (step (after k t)).1 = (step (after k s)).1 := by
  have hafter (k : Nat) (hk : k ≤ n) :
      after k (s.withStack rule) = (after k s).withStack rule :=
    after_withStack (fun j hj => h j (Nat.lt_of_lt_of_le hj hk)) rule
  refine ⟨s.withStack rule, load_withStack hload rule, rfl, hafter, ?_⟩
  intro k hk
  rw [hafter k (Nat.le_of_lt hk), step_withStack (h k hk) rule]

/-- Under the legacy rule the nested calls end as under the standard one, with their result
    pushed on the stack. -/
theorem nested_stack_rules :
    ∃ t : Session Scripted, load nestedCalls { stack := .legacy } 0 = .ok t.machine ∧
      t.device = {} ∧ after 5 t = (after 5 nestedSession).withStack .legacy ∧
      (after 5 t).machine.quit = true ∧ (after 5 t).machine.calls.top.stack = [1] := by
  have hdiffer : ∀ k < 5, (after k nestedSession).machine.rulesDiffer = false := by
    decide +kernel
  obtain ⟨t, hload, hdevice, hafter, -⟩ :=
    stack_rules_interchangeable load_nestedCalls .legacy hdiffer
  have hend : after 5 t = (after 5 nestedSession).withStack .legacy := hafter 5 (Nat.le_refl 5)
  refine ⟨t, hload, hdevice, hend, ?_, ?_⟩
  · rw [hend]
    decide +kernel
  · rw [hend]
    decide +kernel

end Session

end ZMachine
