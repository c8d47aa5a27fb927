import ZMachine.Proofs.Work

/-! # How the work of an instruction ends

    `Session.work` yields a transfer of control. This file says for each kind
    of operation which transfer that is and where in memory the pc stands then.
    An operation that tests something may have stored a result or changed a
    variable before it reads its branch descriptor; up to that point, memory is
    written at most in the table of global variables.

    The main result is `work_concludes`. -/

namespace ZMachine

open Conduct

namespace Machine

variable {α : Type}

/-- The number of bytes that the global variables, 16 to 255, take up. -/
def globalsSize : Nat := 480

/-- Whether an address lies in the table of global variables. -/
def InGlobals (m : Machine) (a : Nat) : Prop :=
  m.story.header.globals.toNat ≤ a ∧ a < m.story.header.globals.toNat + globalsSize

/-- The two machines run the same story and have the same bytes outside the global variables. -/
structure Spares (m m' : Machine) : Prop where
  story : m'.story = m.story
  bytes : ∀ a, ¬ m.InGlobals a → m'.memory.bytes[a]? = m.memory.bytes[a]?

theorem Spares.refl (m : Machine) : m.Spares m := ⟨rfl, fun _ _ => rfl⟩

theorem Spares.trans {m m' m'' : Machine} (h : m.Spares m') (h' : m'.Spares m'') :
    m.Spares m'' where
  story := h'.story.trans h.story
  bytes a ha := by
    have ha' : ¬ m'.InGlobals a := by
      unfold InGlobals
      rw [h.story]
      exact ha
    exact (h'.bytes a ha').trans (h.bytes a ha)

/-- What an action may do that writes at most variables. -/
def sparing : Conduct Machine where
  keeps := Spares
  mayFail _ _ := True
  position := Machine.pc
  refl := Spares.refl
  trans := Spares.trans
  mayFail_of_keeps _ _ := trivial

theorem sparing_ask (f : Machine → Except Fault α) : sparing.Obeys (Action.ask f) :=
  .ask fun _ _ _ => trivial

/-- An action that leaves the story and its memory alone. -/
theorem sparing_of_eq {x : Action Machine α}
    (hx : ∀ m, (x m).2.story = m.story ∧ (x m).2.memory = m.memory) : sparing.Obeys x := by
  intro m
  obtain ⟨hstory, hmemory⟩ := hx m
  refine ⟨⟨hstory, ?_⟩, fun _ _ => trivial⟩
  intro a _
  rw [hmemory]

theorem sparing_nextByte : sparing.Obeys nextByte := by
  refine sparing_of_eq fun m => ?_
  unfold nextByte
  split <;> exact ⟨rfl, rfl⟩

theorem sparing_changeTop (f : Frame → Except Fault Frame) : sparing.Obeys (changeTop f) := by
  refine sparing_of_eq fun m => ?_
  unfold changeTop
  split <;> exact ⟨rfl, rfl⟩

theorem sparing_pop : sparing.Obeys pop := by
  refine sparing_of_eq fun m => ?_
  unfold pop
  split <;> exact ⟨rfl, rfl⟩

/-- Reading a variable changes at most the stack. -/
theorem sparing_readVariable (v : UInt8) : sparing.Obeys (readVariable v) := by
  unfold readVariable
  split
  · refine (Moves.view _).obeys.bind ?_
    intro rule
    split
    · exact sparing_pop
    · exact sparing_ask _
  · split
    · exact sparing_ask _
    · next hv =>
        rw [readGlobal_eq (Nat.not_lt.mp hv)]
        exact sparing_ask _

/-- A global variable is written in the table of global variables. -/
theorem sparing_writeGlobal {v : UInt8} (hv : 16 ≤ v.toNat) (x : UInt16) :
    sparing.Obeys (writeGlobal v x) := by
  rw [writeGlobal_eq hv]
  intro m
  refine ⟨?_, fun _ _ => trivial⟩
  rw [Action.bind_of_ok (Action.view_apply _ _), onMemory_apply]
  refine ⟨rfl, ?_⟩
  intro a ha
  refine Memory.getElem?_writeWord x m.memory ?_
  -- Variable 255 has the last two of the 480 bytes.
  have hlast : v.toNat < 256 := v.toNat_lt
  unfold InGlobals globalsSize at ha
  unfold globalAddress
  omega

/-- Writing a variable changes at most the global ones. -/
theorem sparing_writeVariable (v : UInt8) (x : UInt16) : sparing.Obeys (writeVariable v x) := by
  unfold writeVariable
  split
  · exact sparing_changeTop _
  · split
    · exact sparing_changeTop _
    · next hv => exact sparing_writeGlobal (Nat.not_lt.mp hv) x

theorem sparing_readIndirect (v : UInt8) : sparing.Obeys (readIndirect v) := by
  unfold readIndirect
  split
  · exact sparing_ask _
  · exact sparing_readVariable v

theorem sparing_updateVariable (v : UInt8) (delta : UInt16) :
    sparing.Obeys (updateVariable v delta) := by
  refine (sparing_readIndirect v).bind ?_
  intro old
  dsimp only
  split
  · exact (sparing_changeTop _).bind fun _ => .pure _
  · exact (sparing_writeVariable v _).bind fun _ => .pure _

theorem sparing_storeResult (x : UInt16) : sparing.Obeys (storeResult x) :=
  sparing_nextByte.bind fun v => sparing_writeVariable v x

theorem sparing_writeIndirect (v : UInt8) (value : UInt16) :
    sparing.Obeys (writeIndirect v value) := by
  refine (Moves.view _).obeys.bind fun rule => ?_
  split
  · split
    · exact sparing_changeTop _
    · exact sparing_writeVariable v value
  · exact sparing_writeVariable v value

theorem sparing_pull (v : UInt16) : sparing.Obeys (pull v) := by
  refine sparing_pop.bind fun value => (Moves.view _).obeys.bind fun rule => ?_
  split
  · exact sparing_writeIndirect _ _
  · exact .pure ()

theorem sparing_jump (offset : Int) : sparing.Obeys (jump offset) := by
  refine sparing_of_eq fun m => ?_
  simp only [jump]
  split <;> exact ⟨rfl, rfl⟩

theorem sparing_returnWith (value : UInt16) : sparing.Obeys (returnWith value) := by
  refine Obeys.bind (sparing_of_eq fun m => ?_) fun _ => sparing_storeResult value
  split <;> exact ⟨rfl, rfl⟩

theorem sparing_branch (condition : Bool) : sparing.Obeys (branch condition) := by
  have hread : sparing.Obeys readBranch := by
    refine sparing_nextByte.bind fun first => ?_
    split
    · exact .pure _
    · exact sparing_nextByte.bind fun second => .pure _
  refine hread.bind fun b => ?_
  unfold follow
  split
  · split
    · exact sparing_returnWith 0
    · split
      · exact sparing_returnWith 1
      · exact sparing_jump _
  · exact .pure ()

/-- A call makes a frame, or stores a result at once. -/
theorem sparing_call (packed : UInt16) (arguments : List UInt16) :
    sparing.Obeys (call packed arguments) := by
  by_cases hpacked : packed = 0
  · have hcall : call packed arguments = storeResult 0 := if_pos hpacked
    rw [hcall]
    exact sparing_storeResult 0
  · refine sparing_of_eq fun m => ?_
    rw [call_eq hpacked]
    split <;> exact ⟨rfl, rfl⟩

/-- What is read of objects is stored as a result. -/
theorem sparing_storeObjects (f : ObjectTable → Memory → Except Fault UInt16) :
    sparing.Obeys (storeObjects f) :=
  (sparing_ask _).bind sparing_storeResult

theorem sparing_storeLink (l : Link) (o : UInt16) : sparing.Obeys (storeLink l o) :=
  (sparing_ask _).bind fun target => (sparing_storeResult target).bind fun _ => sparing_branch _

theorem sparing_storeRandom (range : UInt16) : sparing.Obeys (storeRandom range) := by
  unfold storeRandom
  split
  · refine Obeys.bind (sparing_of_eq fun m => ?_) sparing_storeResult
    unfold drawRandom
    split <;> exact ⟨rfl, rfl⟩
  · split
    · exact (sparing_of_eq fun m => ⟨rfl, rfl⟩).bind fun _ => sparing_storeResult 0
    · exact (sparing_of_eq fun m => ⟨rfl, rfl⟩).bind fun _ => sparing_storeResult 0

/-- How the work of an operation ends, as the machine `m` had read its operands: with which
    transfer of control, and in which machine. -/
inductive Concludes (op : Operation) (operands : List UInt16) (m : Machine) :
    Transfer → Machine → Prop where
  | plain {m' : Machine} (control : op.control = .plain)
      (pc : m'.pc = op.stop m.memory m.pc) : Concludes op operands m .proceed m'
  /-- In `m₁`, the pc has reached the branch descriptor. -/
  | test {m₁ : Machine} {b : Branch} {condition : Bool} (control : op.control = .test)
      (spares : m.Spares m₁) (pc : m₁.pc = m.pc + op.storeWidth)
      (descriptor : Branch.ofMemory m₁.memory m₁.pc = .ok b) :
      Concludes op operands m (b.transfer condition)
        { m₁ with pc := m₁.pc + Branch.width m₁.memory m₁.pc }
  | leave {m' : Machine} {x : UInt16} (control : op.control = .leave) :
      Concludes op operands m (.leave x) m'
  | skip {m' : Machine} {arguments : List UInt16} (control : op.control = .call)
      (given : operands = 0 :: arguments) (pc : m'.pc = op.stop m.memory m.pc) :
      Concludes op operands m .proceed m'
  | enter {packed : UInt16} {arguments : List UInt16} (control : op.control = .call)
      (given : operands = packed :: arguments) (nonzero : packed ≠ 0) :
      Concludes op operands m (.enter packed arguments) m
  | jump {x : UInt16} {rest : List UInt16} (control : op.control = .jump)
      (given : operands = x :: rest) : Concludes op operands m (.jump (signed x)) m
  | restart {m' : Machine} (control : op.control = .restart) :
      Concludes op operands m .restart m'

/-- A test ends as its descriptor has it. -/
theorem concludes_of_test {op : Operation} {operands : List UInt16} {m m₁ m' : Machine}
    {condition : Bool} {τ : Transfer} (control : op.control = .test) (spares : m.Spares m₁)
    (pc : m₁.pc = m.pc + op.storeWidth) (h : test condition m₁ = (.ok τ, m')) :
    m.Concludes op operands τ m' := by
  obtain ⟨b, m₂, hb, h⟩ := Action.bind_eq_ok.mp h
  cases h
  obtain ⟨hdescriptor, rfl⟩ := readBranch_eq_ok hb
  exact .test control spares pc hdescriptor

/-- Work that does not transfer control ends where its parts do. -/
theorem thenProceed_eq_ok {σ : Type} {C : Conduct σ} {n : Nat} {x : Action σ Unit} {s t : σ}
    {τ : Transfer} (hx : C.Moves n x) (h : thenProceed x s = (.ok τ, t)) :
    τ = .proceed ∧ C.position t = C.position s + n := by
  obtain ⟨_, s₁, hs₁, h⟩ := Action.bind_eq_ok.mp h
  cases h
  exact ⟨rfl, hx.moves hs₁⟩

/-- An instruction that neither branches nor prints goes on behind the place of its result. -/
theorem concludes_of_proceed {op : Operation} {operands : List UInt16} {m m' : Machine}
    {τ : Transfer} (control : op.control = .plain) (hprints : op.prints = false)
    (h : τ = .proceed ∧ m'.pc = m.pc + op.storeWidth) : m.Concludes op operands τ m' := by
  obtain ⟨rfl, hpc⟩ := h
  refine .plain control ?_
  simp only [Operation.stop, control, hprints]
  exact hpc

/-- How instructions with two operands conclude. -/
theorem workPair_concludes {op : TwoOp} {a b : UInt16} {m m' : Machine} {τ : Transfer}
    (h : workPair op a b m = (.ok τ, m')) : m.Concludes (.two op) [a, b] τ m' := by
  cases op
  case je | jl | jg | test => exact concludes_of_test rfl (.refl m) rfl h
  -- The variable is changed before the descriptor is read, and may be a global one.
  case decChk | incChk =>
      obtain ⟨new, m₁, hm₁, h⟩ := Action.bind_eq_ok.mp h
      have hspares := (sparing_updateVariable _ _).keeps hm₁
      exact concludes_of_test rfl hspares ((moves_updateVariable _ _).moves hm₁) h
  case jin | testAttr =>
      obtain ⟨found, m₁, hm₁, h⟩ := Action.bind_eq_ok.mp h
      obtain ⟨-, rfl⟩ := Prod.mk.inj hm₁
      exact concludes_of_test rfl (.refl m) rfl h
  all_goals exact concludes_of_proceed rfl rfl (thenProceed_eq_ok (moves_executePair rfl a b) h)

theorem workTwo_concludes {op : TwoOp} {operands : List UInt16} {m m' : Machine} {τ : Transfer}
    (h : workTwo op operands m = (.ok τ, m')) : m.Concludes (.two op) operands τ m' := by
  rcases workTwo_cases op operands with ⟨_, rfl, hwork⟩ | ⟨a, b, rfl, hwork⟩ | ⟨_, _, hwork⟩
  · rw [hwork] at h
    exact concludes_of_test rfl (.refl m) rfl h
  · rw [hwork] at h
    exact workPair_concludes h
  · rw [hwork] at h
    cases h

/-- An instruction that stores a link and tests it. -/
theorem testLink_concludes {op : OneOp} {l : Link} {o : UInt16} {operands : List UInt16}
    {m m' : Machine} {τ : Transfer} (control : (Operation.one op).control = .test)
    (stores : (Operation.one op).storeWidth = 1) (h : testLink l o m = (.ok τ, m')) :
    m.Concludes (.one op) operands τ m' := by
  obtain ⟨target, m₁, hm₁, h⟩ := Action.bind_eq_ok.mp h
  obtain ⟨-, rfl⟩ := Prod.mk.inj hm₁
  obtain ⟨_, m₂, hm₂, h⟩ := Action.bind_eq_ok.mp h
  have hspares := (sparing_storeResult _).keeps hm₂
  refine concludes_of_test control hspares ?_ h
  rw [stores]
  exact (moves_storeResult _).moves hm₂

end Machine

namespace Session

open Machine

variable {δ : Type} [Device δ]

/-- Printing the string at the pc moves the pc to its end. -/
theorem pc_of_outputInline {s t : Session δ} (h : outputInline s = (.ok (), t)) :
    t.machine.pc = Text.stop s.machine.memory s.machine.pc := by
  obtain ⟨text, s₁, hs₁, h⟩ := Action.bind_eq_ok.mp h
  obtain ⟨hm₁, -⟩ := inlineText_eq_ok (onMachine_eq_iff.mp hs₁).1
  have hpc : t.machine.pc = s₁.machine.pc := (moves_output (hosts_conduct δ) text).moves h
  rw [hpc, hm₁]

/-- How instructions without operands conclude. -/
theorem workZero_concludes {op : ZeroOp} {operands : List UInt16} {s t : Session δ}
    {τ : Transfer} (h : workZero op s = (.ok τ, t)) :
    s.machine.Concludes (.zero op) operands τ t.machine := by
  cases op
  case rtrue | rfalse =>
      cases h
      exact .leave rfl
  case restart =>
      cases h
      exact .restart rfl
  case print =>
      obtain ⟨_, s₁, hs₁, h⟩ := Action.bind_eq_ok.mp h
      cases h
      exact .plain rfl (pc_of_outputInline hs₁)
  case printRet =>
      obtain ⟨_, s₁, -, h⟩ := Action.bind_eq_ok.mp h
      obtain ⟨_, s₂, -, h⟩ := Action.bind_eq_ok.mp h
      cases h
      exact .leave rfl
  case retPopped =>
      obtain ⟨x, s₁, -, h⟩ := Action.bind_eq_ok.mp h
      cases h
      exact .leave rfl
  case save | restore =>
      simp only [workZero] at h
      exact concludes_of_test rfl (.refl _) rfl (onMachine_eq_iff.mp h).1
  case verify =>
      simp only [workZero] at h
      obtain ⟨story, m₁, hm₁, h⟩ := Action.bind_eq_ok.mp (onMachine_eq_iff.mp h).1
      cases hm₁
      exact concludes_of_test rfl (.refl _) rfl h
  -- What is left goes on with the next instruction.
  all_goals
      exact concludes_of_proceed rfl rfl
        (thenProceed_eq_ok (moves_executeZero (hosts_conduct δ) rfl (by decide)) h)

/-- How instructions with one operand conclude. -/
theorem workOne_concludes {op : OneOp} {x : UInt16} {rest : List UInt16} {s t : Session δ}
    {τ : Transfer} (h : workOne op x s = (.ok τ, t)) :
    s.machine.Concludes (.one op) (x :: rest) τ t.machine := by
  cases op
  case jz =>
      simp only [workOne] at h
      exact concludes_of_test rfl (.refl _) rfl (onMachine_eq_iff.mp h).1
  case getSibling | getChild =>
      simp only [workOne] at h
      exact testLink_concludes rfl rfl (onMachine_eq_iff.mp h).1
  case ret =>
      cases h
      exact .leave rfl
  case jump =>
      cases h
      exact .jump rfl rfl
  -- What is left goes on behind the place of its result.
  all_goals
      exact concludes_of_proceed rfl rfl
        (thenProceed_eq_ok (moves_executeOne (hosts_conduct δ) rfl x) h)

/-- How instructions with any number of operands conclude. -/
theorem workMany_concludes {op : VarOp} {operands : List UInt16} {s t : Session δ}
    {τ : Transfer} (h : workMany op operands s = (.ok τ, t)) :
    s.machine.Concludes (.many op) operands τ t.machine := by
  cases op
  case call =>
      match operands with
      | [] => cases h
      | packed :: arguments =>
          unfold workMany at h
          dsimp only at h
          split at h
          · -- routine 0 stores a result in place of a call
            next hzero =>
              subst hzero
              have hstore := (hosts_conduct δ).moves (Machine.moves_storeResult 0)
              obtain ⟨rfl, hpc⟩ := thenProceed_eq_ok hstore h
              exact .skip rfl rfl hpc
          · next hpacked =>
              cases h
              exact .enter rfl rfl hpacked
  all_goals
      exact concludes_of_proceed rfl rfl
        (thenProceed_eq_ok (moves_executeMany (hosts_conduct δ) rfl operands) h)

/-- The work of an instruction ends as the kind of its operation has it. -/
theorem work_concludes {i : Instruction} {op : Operation} {operands : List UInt16}
    {s t : Session δ} {τ : Transfer} (hop : Operation.ofNumber? i.opClass i.number = some op)
    (h : work i operands s = (.ok τ, t)) : s.machine.Concludes op operands τ t.machine := by
  simp only [work, hop] at h
  cases op with
  | zero op => exact workZero_concludes h
  | one op =>
      cases operands with
      | nil => cases h
      | cons x rest => exact workOne_concludes h
  | two op => exact workTwo_concludes (onMachine_eq_iff.mp h).1
  | many op => exact workMany_concludes h

end Session

end ZMachine
