import ZMachine.Proofs.Outcome
import ZMachine.Proofs.Step

/-! # The pc after a step

    Where execution goes on after an instruction is fixed by its bytes, by the
    values of its operands and by what it tests. `Operation.Permits` says which
    transfers of control an operation can lead to, and `Machine.Lands` where
    each of them leads, given the end of the instruction in memory. A step that
    succeeds goes on there.

    The bytes of the instruction are those in memory before the step. An
    operation may change a variable before it reads its branch descriptor, so
    the instruction must not overlap the global variables. -/

namespace ZMachine

open Conduct

/-! ## Bytes that are not written -/

/-- A branch descriptor that reads the same in two memories has the same width in both. -/
theorem Branch.ofMemory_of_agree {m m' : Memory} {a : Nat} {b : Branch}
    (h : ∀ x, a ≤ x → x < a + width m a → m'.bytes[x]? = m.bytes[x]?)
    (hb : ofMemory m' a = .ok b) : ofMemory m a = .ok b ∧ width m' a = width m a := by
  obtain ⟨first, hfirst, hb⟩ := FailsOnly.bind_eq_ok.mp hb
  -- The first byte always belongs to the descriptor, and decides whether the second does.
  have hpos : 0 < width m a := by
    simp only [width]
    split
    · split
      · exact Nat.zero_lt_one
      · exact Nat.zero_lt_two
    · exact Nat.zero_lt_two
  have hfirst' : m.byteAt a = .ok first := by
    rw [Memory.byteAt_eq_ok] at hfirst ⊢
    rw [← h a (Nat.le_refl a) (by omega)]
    exact hfirst
  have hwidth : width m' a = width m a := by
    simp only [width, hfirst, hfirst']
  refine ⟨?_, hwidth⟩
  simp only [ofMemory, read, hfirst']
  split at hb
  · next hshort =>
      cases hb
      exact if_pos hshort
  · next hlong =>
      obtain ⟨second, hsecond, hb⟩ := FailsOnly.bind_eq_ok.mp hb
      cases hb
      have hsecond' : m.byteAt (a + 1) = .ok second := by
        rw [Memory.byteAt_eq_ok] at hsecond ⊢
        rw [← h (a + 1) (Nat.le_succ a) (by simp only [width, hfirst', if_neg hlong]; omega)]
        exact hsecond
      refine (if_neg hlong).trans ?_
      rw [hsecond']
      rfl

namespace Machine

/-- Reading the operands of an instruction that end at `a` leaves memory and pc alone. -/
theorem unchanged_of_resolveAll {xs : List Operand} {m m' : Machine} {a : Nat}
    {vs : List UInt16} (h : resolveAll xs { m with pc := a } = (.ok vs, m')) :
    m'.story = m.story ∧ m'.memory = m.memory ∧ m'.pc = a := by
  obtain ⟨f, rfl⟩ := resolveAll_withTop h
  exact ⟨rfl, rfl, rfl⟩

end Machine

/-! ## What the encoding prescribes -/

/-- The transfers of control that an operation can lead to, given the values of its operands
    and the address `a` at which they end. -/
def Operation.Permits (op : Operation) (operands : List UInt16) (m : Memory) (a : Nat)
    (τ : Transfer) : Prop :=
  match op.control with
  | .plain => τ = .proceed
  | .test => ∃ b condition, Branch.ofMemory m (a + op.storeWidth) = .ok b ∧
      τ = b.transfer condition
  | .leave => ∃ x, τ = .leave x
  | .call => ∃ packed arguments, operands = packed :: arguments ∧
      τ = if packed = 0 then .proceed else .enter packed arguments
  | .jump => ∃ x rest, operands = x :: rest ∧ τ = .jump (signed x)
  | .restart => τ = .restart

namespace Machine

/-- Whether `pc` is where a transfer of control leads, after an instruction that ends at
    `stop`. -/
def Lands (m : Machine) (stop pc : Nat) : Transfer → Prop
  | .proceed => pc = stop
  | .jump offset => (pc : Int) = stop + offset - 2
  | .leave _ => pc = m.calls.top.returnAddress + 1
  | .enter packed _ => ∃ count, m.memory.byteAt (unpack packed) = .ok count ∧
      pc = unpack packed + 1 + 2 * count.toNat
  | .restart => pc = m.story.header.initialPc.toNat

variable {m m' : Machine} {op : Operation} {operands : List UInt16} {τ : Transfer}

/-- Handing over control leads where the transfer says. -/
theorem handOver_lands (h : handOver τ m = (.ok (), m'))
    (hnonzero : ∀ arguments, τ ≠ .enter 0 arguments) : m.Lands m.pc m'.pc τ := by
  cases τ with
  | proceed =>
      cases h
      rfl
  | jump offset =>
      simp only [handOver, jump] at h
      split at h
      · next htarget =>
          cases h
          exact Int.toNat_of_nonneg htarget.1
      · cases h
  | leave x =>
      simp only [handOver] at h
      rw [returnWith_eq] at h
      split at h
      · next f calls hpop =>
          -- What is taken off is the running frame, which knows where to return to.
          have htop : f = m.calls.top := by
            simp only [CallStack.pop] at hpop
            split at hpop
            · cases hpop
            · cases hpop
              rfl
          have hpc := (moves_storeResult x).moves h
          rw [htop] at hpc
          exact hpc
      · cases h
  | enter packed arguments =>
      have hpacked : packed ≠ 0 := by
        rintro rfl
        exact hnonzero arguments rfl
      simp only [handOver] at h
      rw [call_eq hpacked] at h
      split at h
      · next f a hscan =>
          cases h
          obtain ⟨-, -, -, -, -, count, hcount, -, ha⟩ := Frame.scan_eq_ok hscan
          exact ⟨count, hcount, ha⟩
      · cases h
  | restart =>
      simp only [handOver] at h
      rw [restart_eq] at h
      split at h
      · cases h
      · split at h
        · cases h
          rfl
        · cases h

/-- A branch descriptor outside the global variables is read as it was before the work. -/
theorem Spares.descriptor {m₁ : Machine} {a : Nat} {b : Branch} (h : m.Spares m₁)
    (hglobals : ∀ x, a ≤ x → x < a + Branch.width m.memory a → ¬ m.InGlobals x)
    (hb : Branch.ofMemory m₁.memory a = .ok b) :
    Branch.ofMemory m.memory a = .ok b ∧ Branch.width m₁.memory a = Branch.width m.memory a :=
  Branch.ofMemory_of_agree (fun x hx hlt => h.bytes x (hglobals x hx hlt)) hb

/-- The work of an operation ends in a transfer that the encoding permits. -/
theorem Concludes.permits (h : m.Concludes op operands τ m')
    (hglobals : ∀ x, m.pc ≤ x → x < op.stop m.memory m.pc → ¬ m.InGlobals x) :
    op.Permits operands m.memory m.pc τ := by
  cases h with
  | plain hcontrol _ => simp only [Operation.Permits, hcontrol]
  | test hcontrol hspares hpc hb =>
      simp only [Operation.Permits, hcontrol]
      simp only [Operation.stop, hcontrol, if_true] at hglobals
      rw [hpc] at hb
      -- The descriptor is read after the work, which has not written to it.
      obtain ⟨hb', -⟩ := hspares.descriptor (fun x hx hlt => hglobals x (by omega) hlt) hb
      exact ⟨_, _, hb', rfl⟩
  | leave hcontrol =>
      simp only [Operation.Permits, hcontrol]
      exact ⟨_, rfl⟩
  | skip hcontrol hgiven _ =>
      simp only [Operation.Permits, hcontrol]
      exact ⟨0, _, hgiven, rfl⟩
  | enter hcontrol hgiven hnonzero =>
      simp only [Operation.Permits, hcontrol]
      exact ⟨_, _, hgiven, (if_neg hnonzero).symm⟩
  | jump hcontrol hgiven =>
      simp only [Operation.Permits, hcontrol]
      exact ⟨_, _, hgiven, rfl⟩
  | restart hcontrol => simp only [Operation.Permits, hcontrol]

/-- The pc is at the end of the instruction when control goes on relative to it, and a routine
    is entered, at an address other than 0, before anything else has happened. -/
theorem Concludes.ends (h : m.Concludes op operands τ m')
    (hglobals : ∀ x, m.pc ≤ x → x < op.stop m.memory m.pc → ¬ m.InGlobals x) :
    (τ = .proceed ∨ (∃ offset, τ = .jump offset) → m'.pc = op.stop m.memory m.pc) ∧
      ∀ packed arguments, τ = .enter packed arguments → packed ≠ 0 ∧ m' = m := by
  cases h with
  | plain _ hpc =>
      refine ⟨fun _ => hpc, ?_⟩
      rintro _ _ ⟨⟩
  | @test m₁ b condition hcontrol hspares hpc hb =>
      simp only [Operation.stop, hcontrol, if_true] at hglobals ⊢
      -- The descriptor is read after the work, and is what it was before.
      rw [hpc] at hb
      obtain ⟨-, hwidth⟩ := hspares.descriptor (fun x hx hlt => hglobals x (by omega) hlt) hb
      refine ⟨fun _ => ?_, ?_⟩
      · rw [hpc, hwidth]
      · intro packed arguments hτ
        rcases b.transfer_cases condition with hc | hc | ⟨x, hc⟩
        all_goals
            rw [hc] at hτ
            cases hτ
  | skip _ _ hpc =>
      refine ⟨fun _ => hpc, ?_⟩
      rintro _ _ ⟨⟩
  | enter _ _ hnonzero =>
      constructor
      · rintro (h | ⟨_, h⟩) <;> cases h
      · intro packed' arguments' hτ
        cases hτ
        exact ⟨hnonzero, rfl⟩
  | jump hcontrol _ =>
      constructor
      · intro _
        rw [op.eq_of_control.1 hcontrol]
        rfl
      · rintro _ _ ⟨⟩
  | leave _ | restart _ =>
      constructor
      · rintro (h | ⟨_, h⟩) <;> cases h
      · rintro _ _ ⟨⟩

/-- A transfer leads to the same place whether it is judged before the work or after it. -/
theorem Lands.of_within {stop pc : Nat} (h : m'.Lands m'.pc pc τ) (hwithin : m.Within m')
    (hpc : τ = .proceed ∨ (∃ offset, τ = .jump offset) → m'.pc = stop)
    (hmemory : ∀ packed arguments, τ = .enter packed arguments → m'.memory = m.memory) :
    m.Lands stop pc τ := by
  cases τ with
  | proceed =>
      rw [← hpc (.inl rfl)]
      exact h
  | jump offset =>
      rw [← hpc (.inr ⟨offset, rfl⟩)]
      exact h
  | leave x =>
      simp only [Lands] at h ⊢
      rw [h, hwithin.top.returnAddress]
  | enter packed arguments =>
      simp only [Lands] at h ⊢
      rw [← hmemory packed arguments rfl]
      exact h
  | restart =>
      simp only [Lands] at h ⊢
      rw [h, hwithin.story]

end Machine

namespace Session

variable {δ : Type} [Device δ]

/-- After an instruction that does not overlap the global variables, execution goes on where
    its encoding says: the transfer of control in which its work ends is one that the operation
    permits, and the pc is where that transfer leads from the end of the instruction. -/
theorem step_lands {s t : Session δ} {i : Instruction} {op : Operation} {a : Nat}
    (hscan : Instruction.scan s.machine.memory s.machine.pc = (.ok i, a))
    (hop : Operation.ofNumber? i.opClass i.number = some op) (hstep : step s = (.ok (), t))
    (hglobals : ∀ x, i.address ≤ x → x < op.stop s.machine.memory (i.address + i.size) →
      ¬ s.machine.InGlobals x) :
    i.address = s.machine.pc ∧ (op.stores = true ∧ op.control = .test ↔
      op = .one .getSibling ∨ op = .one .getChild) ∧
    ∃ operands m τ,
      Machine.resolveAll i.operands { s.machine with pc := i.address + i.size } =
        (.ok operands, m) ∧
      (work i operands ⟨m, s.device⟩).1 = .ok τ ∧
      op.Permits operands s.machine.memory (i.address + i.size) τ ∧
      s.machine.Lands (op.stop s.machine.memory (i.address + i.size)) t.machine.pc τ := by
  obtain ⟨haddress, -⟩ := Instruction.scan_eq_ok hscan
  rw [haddress] at hglobals ⊢
  obtain ⟨τ, w, m', hw, hm', ht⟩ := step_eq_ok hstep
  obtain ⟨j, operands, m, hscan', hresolve, hwork⟩ := prepare_eq_ok hw
  cases hscan.symm.trans hscan'
  -- Reading the operands leaves memory and pc as they were, and so the bytes to come.
  obtain ⟨hstory, hmemory, hpc⟩ := Machine.unchanged_of_resolveAll hresolve
  have hglobals' : ∀ x, m.pc ≤ x → x < op.stop m.memory m.pc → ¬ m.InGlobals x := by
    intro x hx hlt
    rw [hmemory, hpc] at hlt
    rw [Machine.InGlobals, hstory]
    exact hglobals x (by omega) hlt
  have hconcludes := work_concludes hop hwork
  have hpermits := hconcludes.permits hglobals'
  obtain ⟨hends, henter⟩ := hconcludes.ends hglobals'
  have hlands : w.machine.Lands w.machine.pc m'.pc τ :=
    Machine.handOver_lands hm' fun arguments hτ => (henter 0 arguments hτ).1 rfl
  rw [hmemory, hpc] at hpermits hends
  refine ⟨rfl, op.stores_and_test_iff, operands, m, τ, hresolve, by rw [hwork], hpermits, ?_⟩
  rw [ht]
  refine hlands.of_within (obeys_prepare.keeps hw) hends ?_
  intro packed arguments hτ
  rw [(henter packed arguments hτ).2]
  exact hmemory

/-- The first call of the small story goes to the code behind the locals of its routine. -/
theorem nested_call_lands :
    Instruction.scan nestedCalls 64 = (.ok ⟨64, .variadic, .many, 0, [.large 37], 4⟩, 68) ∧
      (∀ x, 64 ≤ x → x < 69 → ¬ nestedSession.machine.InGlobals x) ∧
      step nestedSession = (.ok (), (step nestedSession).2) ∧
      (step nestedSession).2.machine.pc = unpack 37 + 1 + 2 * 1 := by
  have hscan : Instruction.scan nestedSession.machine.memory nestedSession.machine.pc =
      (.ok ⟨64, .variadic, .many, 0, [.large 37], 4⟩, 68) := rfl
  have hglobals : ∀ x, 64 ≤ x → x < 69 → ¬ nestedSession.machine.InGlobals x := by
    intro x _ hlt hin
    have hle : 4096 ≤ x := hin.1
    omega
  have hstep := step_of_isOk (s := nestedSession) (by decide +kernel)
  obtain ⟨-, -, operands, m, τ, hresolve, -, hpermits, hlands⟩ :=
    step_lands hscan rfl hstep hglobals
  cases hresolve
  obtain ⟨packed, arguments, hgiven, rfl⟩ := hpermits
  cases hgiven
  obtain ⟨count, hcount, hpc⟩ := hlands
  cases hcount
  exact ⟨hscan, hglobals, hstep, hpc⟩

end Session

end ZMachine
