import ZMachine.Proofs.Outcome
import ZMachine.Proofs.Step

/-! # Calls and returns

    A routine that is called works on its own frame and on those of the
    routines that it calls in turn. However long it runs, the frames below it
    stay as they were, so that its return finds the caller where the call left
    it, and the only thing that the caller sees is the result.

    The invariant is `CallStack.Above`: the stack of the caller, with one frame
    on it that returns to the given address, and any others on top of that. A
    step keeps it as long as the stack stays higher than that of the caller. -/

namespace ZMachine

open Conduct

namespace CallStack

variable {base c c' : CallStack} {f : Frame} {r : Nat}

/-- The stack is `base` with a frame on it that returns to `r`, and others on top of that. -/
def Above (base : CallStack) (r : Nat) (c : CallStack) : Prop :=
  ∃ inner f, c.frames = inner ++ f :: base.frames ∧ f.returnAddress = r

theorem above_push (base : CallStack) (f : Frame) : Above base f.returnAddress (base.push f) :=
  ⟨[], f, rfl, rfl⟩

/-- Whatever is above has more frames. -/
theorem Above.depth_lt (h : Above base r c) : base.depth < c.depth := by
  obtain ⟨inner, f, hframes, -⟩ := h
  have hlength := congrArg List.length hframes
  simp only [frames, List.length_append, List.length_cons] at hlength
  simp only [depth]
  omega

/-- A further call stays above. -/
theorem Above.push (h : Above base r c) (f : Frame) : Above base r (c.push f) := by
  obtain ⟨inner, g, hframes, hr⟩ := h
  exact ⟨f :: inner, g, congrArg (f :: ·) hframes, hr⟩

/-- Work on the values of the running frame alone keeps the frames below it. -/
theorem Above.of_same (h : Above base r c) (hcallers : c'.callers = c.callers)
    (htop : c.top.Same c'.top) : Above base r c' := by
  obtain ⟨inner, f, hframes, hr⟩ := h
  simp only [frames] at hframes
  cases inner with
  | nil =>
      obtain ⟨rfl, hbase⟩ := List.cons.inj hframes
      exact ⟨[], c'.top, congrArg (c'.top :: ·) (hcallers.trans hbase),
        htop.returnAddress.trans hr⟩
  | cons g inner =>
      obtain ⟨rfl, hbase⟩ := List.cons.inj hframes
      exact ⟨c'.top :: inner, f, congrArg (c'.top :: ·) (hcallers.trans hbase), hr⟩

/-- Popping a frame stays above `base` or gives back exactly `base`. -/
theorem Above.pop (h : Above base r c) (hpop : c.pop = .ok (f, c')) :
    Above base r c' ∨ c' = base ∧ f.returnAddress = r := by
  obtain ⟨inner, g, hframes, hr⟩ := h
  simp only [frames] at hframes
  simp only [CallStack.pop] at hpop
  split at hpop
  · cases hpop
  · next caller rest hcallers =>
      cases hpop
      -- Without inner frames, it is the frame of the routine that was called which is taken off.
      cases inner with
      | nil =>
          obtain ⟨htop, hbase⟩ := List.cons.inj hframes
          rw [hcallers] at hbase
          obtain ⟨rfl, rfl⟩ := List.cons.inj hbase
          exact .inr ⟨rfl, htop ▸ hr⟩
      | cons k inner =>
          obtain ⟨-, hbase⟩ := List.cons.inj hframes
          exact .inl ⟨inner, g, hcallers.symm.trans hbase, hr⟩

end CallStack

namespace Machine

open CallStack (Above)

variable {base : CallStack} {m m' : Machine} {r : Nat}

theorem Within.depth (h : m.Within m') : m'.calls.depth = m.calls.depth := by
  simp only [CallStack.depth, h.callers]

/-- Work within the routine stays above. -/
theorem Within.above (h : m.Within m') (habove : Above base r m.calls) : Above base r m'.calls :=
  habove.of_same h.callers h.top

/-- A transfer of control stays above unless it leaves the routine that was called. -/
theorem Turn.above (h : m.Turn m') (habove : Above base r m.calls) :
    Above base r m'.calls ∨ m'.calls.depth ≤ base.depth := by
  cases h with
  | stay => exact .inl habove
  | jump => exact .inl habove
  | leave hpop =>
      rcases habove.pop hpop with hcalls | ⟨hcalls, -⟩
      · exact .inl hcalls
      · exact .inr (Nat.le_of_eq (congrArg CallStack.depth hcalls))
  | enter => exact .inl (habove.push _)
  | restart => exact .inr (Nat.succ_le_succ (Nat.zero_le _))

/-- A step that leaves the stack higher than `base` keeps what is below. -/
theorem Advance.above (h : m.Advance m') (habove : Above base r m.calls)
    (hdepth : base.depth < m'.calls.depth) : Above base r m'.calls := by
  obtain ⟨m₁, m₂, h₁, hturn, h₂⟩ := h
  -- Storing a result does not change the depth, so the turn itself has left enough frames.
  rw [h₂.depth] at hdepth
  rcases hturn.above (h₁.above habove) with habove₂ | hle
  · exact h₂.above habove₂
  · exact absurd hdepth (Nat.not_lt.mpr hle)

/-- Only a return and a restart take frames off. -/
theorem depth_le_of_handOver {τ : Transfer} (h : handOver τ m = (.ok (), m'))
    (hleave : ∀ x, τ ≠ .leave x) (hrestart : τ ≠ .restart) :
    m.calls.depth ≤ m'.calls.depth := by
  cases τ with
  | proceed =>
      cases h
      exact Nat.le_refl _
  | jump offset =>
      simp only [handOver, jump] at h
      split at h
      · cases h
        exact Nat.le_refl _
      · cases h
  | leave x => exact absurd rfl (hleave x)
  | enter packed arguments =>
      -- A call of routine 0 stores a result at once, any other call adds a frame.
      by_cases hpacked : packed = 0
      · subst hpacked
        have hwithin : m.Within m' := (moves_storeResult 0).obeys.keeps h
        exact Nat.le_of_eq hwithin.depth.symm
      · simp only [handOver] at h
        rw [call_eq hpacked] at h
        split at h
        · cases h
          exact Nat.le_succ _
        · cases h
  | restart => exact absurd rfl hrestart

end Machine

namespace Machine

/-- The operation at the pc, if one can be decoded there. -/
def operation? (m : Machine) : Option Operation :=
  match Instruction.scan m.memory m.pc with
  | (.ok i, _) => Operation.ofNumber? i.opClass i.number
  | (.error _, _) => none

/-- The instruction at the pc calls a routine, and `m'` is the machine once its operands have
    been read. -/
def CallsFrom (m m' : Machine) : Prop :=
  ∃ i packed arguments,
    Instruction.scan m.memory m.pc = (.ok i, m.pc + i.size) ∧
    Operation.ofNumber? i.opClass i.number = some (.many .call) ∧
    resolveAll i.operands { m with pc := m.pc + i.size } = (.ok (packed :: arguments), m') ∧
    packed ≠ 0

end Machine

/-- Reading the operands of a call is work within the caller. -/
theorem Machine.within_of_callsFrom {m m' : Machine} (h : m.CallsFrom m') : m.Within m' := by
  obtain ⟨i, packed, arguments, hscan, -, hoperands, -⟩ := h
  have hfetch : fetch m = (.ok i, { m with pc := m.pc + i.size }) := by
    simp only [fetch, hscan]
  exact .trans (obeys_fetch.keeps hfetch) ((moves_resolveAll _).obeys.keeps hoperands)

/-- Of all ways in which the work can end, one restarts the story. -/
theorem Machine.Concludes.control_of_restart {op : Operation} {operands : List UInt16}
    {m m' : Machine} {τ : Transfer} (h : m.Concludes op operands τ m') (hτ : τ = .restart) :
    op.control = .restart := by
  cases h with
  | restart hcontrol => exact hcontrol
  | test =>
      rcases Branch.transfer_cases _ _ with hb | hb | ⟨x, hb⟩
      all_goals
          rw [hb] at hτ
          cases hτ
  | plain | leave | skip | enter | jump => cases hτ

namespace Session

open CallStack (Above)

variable {δ : Type} [Device δ] {base : CallStack} {r : Nat}

/-- The second session is reached from the first one by steps that succeed and leave more
    than `d` frames. -/
inductive RunsAbove (d : Nat) (s : Session δ) : Session δ → Prop where
  | start : RunsAbove d s s
  | next {t u : Session δ} (run : RunsAbove d s t) (step : t.step = (.ok (), u))
      (depth : d < u.machine.calls.depth) : RunsAbove d s u

/-- A step stays above as long as there are more frames than at the call. -/
theorem above_of_step {s t : Session δ} (hs : Above base r s.machine.calls)
    (hstep : step s = (.ok (), t)) (hdepth : base.depth < t.machine.calls.depth) :
    Above base r t.machine.calls := by
  obtain ⟨m, hadvance, hm⟩ := step_advance s
  have hcalls : t.machine.calls = m.calls := by
    rw [hstep] at hm
    rcases hm with hm | hm
    · exact congrArg Machine.calls hm
    · have hcalls := congrArg Machine.calls hm
      exact hcalls
  rw [hcalls] at hdepth ⊢
  exact hadvance.above hs hdepth

/-- So does every run of such steps. -/
theorem RunsAbove.above {s t : Session δ} (h : RunsAbove base.depth s t)
    (hs : Above base r s.machine.calls) : Above base r t.machine.calls := by
  induction h with
  | start => exact hs
  | next _ hstep hdepth ih => exact above_of_step ih hstep hdepth

/-- A call puts one frame on the stack of the caller; it returns to the byte after the
    operands. -/
theorem calls_of_call {s t : Session δ} {m : Machine} (hcall : s.machine.CallsFrom m)
    (hstep : step s = (.ok (), t)) :
    ∃ f, t.machine.calls = m.calls.push f ∧ f.returnAddress = m.pc := by
  obtain ⟨i, packed, arguments, hscan, hop, hoperands, hpacked⟩ := hcall
  obtain ⟨τ, w, m', hw, hm', ht⟩ := step_eq_ok hstep
  obtain ⟨j, operands, m₁, hscan', hoperands', hwork⟩ := prepare_eq_ok hw
  -- Decoding and reading operands are functions, so both accounts speak of one instruction.
  cases hscan.symm.trans hscan'
  cases hoperands.symm.trans hoperands'
  simp only [work, hop, workMany, if_neg hpacked] at hwork
  cases hwork
  simp only [Machine.handOver] at hm'
  rw [Machine.call_eq hpacked] at hm'
  split at hm'
  · next f a hf =>
      cases hm'
      obtain ⟨-, hback, -⟩ := Frame.scan_eq_ok hf
      exact ⟨f.withArguments arguments, congrArg Machine.calls ht, hback⟩
  · cases hm'

/-- An instruction other than `restart` does not restart the story. -/
theorem ne_restart_of_prepare {s w : Session δ} {τ : Transfer} (h : prepare s = (.ok τ, w))
    (hop : s.machine.operation? ≠ some (.zero .restart)) : τ ≠ .restart := by
  rintro rfl
  obtain ⟨i, operands, m, hscan, -, hwork⟩ := prepare_eq_ok h
  have hoperation : s.machine.operation? = Operation.ofNumber? i.opClass i.number := by
    simp only [Machine.operation?, hscan]
  cases hnumber : Operation.ofNumber? i.opClass i.number with
  | none =>
      simp only [work, hnumber] at hwork
      cases hwork
  | some op =>
      have hcontrol := (work_concludes hnumber hwork).control_of_restart rfl
      rw [op.eq_of_control.2 hcontrol] at hnumber
      exact hop (hoperation.trans hnumber)

/-- The step that brings a stack above `base` back to the depth of `base` is a return. It
    brings back `base` itself and stores a result there. -/
theorem leave_of_depth_eq {s t : Session δ} (hs : Above base r s.machine.calls)
    (hstep : step s = (.ok (), t)) (hdepth : t.machine.calls.depth = base.depth)
    (hop : s.machine.operation? ≠ some (.zero .restart)) :
    ∃ value w v m, prepare s = (.ok (.leave value), w) ∧ w.machine.memory.byteAt r = .ok v ∧
      Machine.writeVariable v value { w.machine with calls := base, pc := r + 1 } = (.ok (), m) ∧
      t.machine = { m with count := m.count + 1 } := by
  obtain ⟨τ, w, m, hw, hm, ht⟩ := step_eq_ok hstep
  have habove : Above base r w.machine.calls := Machine.Within.above (obeys_prepare.keeps hw) hs
  have hdepth' : m.calls.depth = base.depth := by
    rw [ht] at hdepth
    exact hdepth
  by_cases hleave : ∃ value, τ = .leave value
  · obtain ⟨value, rfl⟩ := hleave
    simp only [Machine.handOver] at hm
    rw [Machine.returnWith_eq] at hm
    split at hm
    · next f calls hpop =>
        have hwithin := (Machine.moves_storeResult value).obeys.keeps hm
        -- A return from a nested routine would leave the stack above `base`.
        rcases habove.pop hpop with hcalls | ⟨rfl, rfl⟩
        · have hlt := hcalls.depth_lt
          rw [← hdepth', hwithin.depth] at hlt
          exact absurd hlt (Nat.lt_irrefl _)
        · obtain ⟨v, m₁, hv, hm⟩ := Action.bind_eq_ok.mp hm
          obtain ⟨hbyte, rfl⟩ := Machine.nextByte_eq_ok.mp hv
          exact ⟨value, w, v, m, hw, hbyte, hm, ht⟩
    · cases hm
  · have hle := Machine.depth_le_of_handOver hm (fun x hx => hleave ⟨x, hx⟩)
      (ne_restart_of_prepare hw hop)
    have hlt := habove.depth_lt
    omega

/-- A routine that is called and returns, after whatever it did and called in between, leaves
    its caller as it was once the operands of the call had been read, but for the result. -/
theorem return_restores_caller {s t u v : Session δ} {m : Machine}
    (hcall : s.machine.CallsFrom m) (hstep : step s = (.ok (), t))
    (hrun : RunsAbove s.machine.calls.depth t u) (hreturn : step u = (.ok (), v))
    (hdepth : v.machine.calls.depth = s.machine.calls.depth)
    (hop : u.machine.operation? ≠ some (.zero .restart)) :
    t.machine.calls.depth = s.machine.calls.depth + 1 ∧
    v.machine.calls.callers = s.machine.calls.callers ∧
    v.machine.pc = t.machine.calls.top.returnAddress + 1 ∧
    ∃ value w number m', prepare u = (.ok (.leave value), w) ∧
      w.machine.memory.byteAt t.machine.calls.top.returnAddress = .ok number ∧
      Machine.writeVariable number value
        { w.machine with calls := m.calls, pc := t.machine.calls.top.returnAddress + 1 } =
        (.ok (), m') ∧
      v.machine = { m' with count := m'.count + 1 } := by
  obtain ⟨f, ht, hback⟩ := calls_of_call hcall hstep
  -- Reading the operands of the call has changed the frame of the caller only.
  have hread : s.machine.Within m := Machine.within_of_callsFrom hcall
  have hbase : s.machine.calls.depth = m.calls.depth := hread.depth.symm
  rw [hbase] at hrun hdepth
  have habove : Above m.calls f.returnAddress t.machine.calls := ht ▸ CallStack.above_push _ f
  -- As the run stays above the caller, the step back to its depth returns to it.
  obtain ⟨value, w, number, m', hw, hbyte, hwrite, hv⟩ :=
    leave_of_depth_eq (hrun.above habove) hreturn hdepth hop
  have hwithin := (Machine.moves_writeVariable number value).obeys.keeps hwrite
  have hpc := (Machine.moves_writeVariable number value).moves hwrite
  have htop : t.machine.calls.top = f := congrArg CallStack.top ht
  rw [htop]
  refine ⟨?_, ?_, ?_, value, w, number, m', hw, hbyte, hwrite, hv⟩
  · rw [ht, hbase]
    rfl
  · rw [hv, ← hread.callers]
    exact hwithin.callers
  · rw [hv]
    exact hpc

/-- The small story calls a routine, which calls another one and returns. -/
theorem nested_return_restores_caller :
    ∃ t u v : Session Scripted, step nestedSession = (.ok (), t) ∧ t.machine.calls.depth = 2 ∧
      RunsAbove 1 t u ∧ u.machine.count = 3 ∧ step u = (.ok (), v) ∧
      v.machine.calls.callers = [] ∧ v.machine.pc = 69 := by
  have hcall : nestedSession.machine.CallsFrom { nestedSession.machine with pc := 68 } :=
    ⟨⟨64, .variadic, .many, 0, [.large 37], 4⟩, 37, [], rfl, rfl, rfl, by decide⟩
  have h₀ := step_of_isOk (s := nestedSession) (by decide +kernel)
  have h₁ := step_of_isOk (s := (step nestedSession).2) (by decide +kernel)
  have h₂ := step_of_isOk (s := (step (step nestedSession).2).2) (by decide +kernel)
  have h₃ := step_of_isOk (s := (step (step (step nestedSession).2).2).2) (by decide +kernel)
  have hrun : RunsAbove 1 (step nestedSession).2 (step (step (step nestedSession).2).2).2 :=
    .next (.next .start h₁ (by decide +kernel)) h₂ (by decide +kernel)
  obtain ⟨hdepth, hcallers, hpc, -⟩ := return_restores_caller hcall h₀ hrun h₃ (by decide +kernel)
    (by decide +kernel)
  have hback : (step nestedSession).2.machine.calls.top.returnAddress = 68 := by decide +kernel
  rw [hback] at hpc
  exact ⟨_, _, _, h₀, hdepth, hrun, by decide +kernel, h₃, hcallers, hpc⟩

end Session

end ZMachine
