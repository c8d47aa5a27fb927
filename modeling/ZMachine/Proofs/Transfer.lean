import ZMachine.Machine.Run
import ZMachine.Proofs.Checks
import ZMachine.Proofs.Conduct

/-! # Work and transfer of control

    An instruction first does its work, and only then hands over control. This
    file splits the execution of an instruction there. `Session.work` is all
    that happens up to that point; it yields a `Transfer`, which says how
    control goes on, and `Machine.handOver` does as it says. The main result is
    `execute_eq_work`: work and transfer together are the execution. -/

namespace ZMachine

/-- How control goes on after the work of an instruction. -/
inductive Transfer where
  /-- With what follows the instruction in memory. -/
  | proceed
  /-- At an offset, less two, from there. -/
  | jump (offset : Int)
  /-- Out of the running routine, with a value for its caller. -/
  | leave (value : UInt16)
  /-- Into a routine. -/
  | enter (packed : UInt16) (arguments : List UInt16)
  /-- At the start of the story. -/
  | restart
  deriving DecidableEq, Repr

namespace Branch

/-- Where a branch leads, given the condition that was tested. -/
def transfer (b : Branch) (condition : Bool) : Transfer :=
  if condition = b.onTrue then
    if b.offset = 0 then .leave 0
    else if b.offset = 1 then .leave 1
    else .jump b.offset
  else .proceed

/-- A branch goes on, jumps, or returns. -/
theorem transfer_cases (b : Branch) (condition : Bool) :
    b.transfer condition = .proceed ∨ b.transfer condition = .jump b.offset ∨
      ∃ x, b.transfer condition = .leave x := by
  unfold transfer
  split
  · split
    · exact .inr (.inr ⟨0, rfl⟩)
    · split
      · exact .inr (.inr ⟨1, rfl⟩)
      · exact .inr (.inl rfl)
  · exact .inl rfl

end Branch

namespace Machine

/-- Hands over control. -/
def handOver : Transfer → Action Machine Unit
  | .proceed => pure ()
  | .jump offset => jump offset
  | .leave x => returnWith x
  | .enter packed arguments => call packed arguments
  | .restart => restart

/-- Reads a branch descriptor and finds out where it leads. -/
def test (condition : Bool) : Action Machine Transfer := do
  let b ← readBranch
  pure (b.transfer condition)

/-- The work of an operation that does not transfer control. -/
def thenProceed {σ : Type} (x : Action σ Unit) : Action σ Transfer := do
  x
  pure .proceed

/-- The work of storing a link of an object. -/
def testLink (l : Link) (o : UInt16) : Action Machine Transfer := do
  let target ← askObjects fun t m => t.link m l o
  storeResult target
  test (target != 0)

/-- The work of verifying the story file. -/
def testChecksum : Action Machine Transfer := do
  let story ← .view Machine.story
  test (checksum story == story.header.checksum)

/-- The work of an operation with two operands. -/
def workPair (op : TwoOp) (a b : UInt16) : Action Machine Transfer :=
  match op with
  | .je => test (a == b)
  | .jl => test (decide (signed a < signed b))
  | .jg => test (decide (signed b < signed a))
  | .decChk => do
      let new ← updateVariable (lowByte a) (ofSigned (-1))
      test (decide (signed new < signed b))
  | .incChk => do
      let new ← updateVariable (lowByte a) 1
      test (decide (signed b < signed new))
  | .jin => do
      let parent ← askObjects fun t m => t.link m .parent a
      test (parent == b)
  | .test => test (a &&& b == b)
  | .testAttr => do
      let on ← askObjects fun t m => t.hasAttribute m a b
      test on
  | op => thenProceed (executePair op a b)

/-- The work of an operation of the two-operand class. -/
def workTwo (op : TwoOp) (operands : List UInt16) : Action Machine Transfer :=
  match op, operands with
  | .je, a :: others =>
      if others.length ≤ 3 then test (others.contains a)
      else .fail (.operandCount TwoOp.je.name "1 to 4" operands.length)
  | .je, [] => .fail (.operandCount TwoOp.je.name "1 to 4" 0)
  | op, [a, b] => workPair op a b
  | op, operands => .fail (.operandCount op.name "2" operands.length)

/-- The work of an operation of the two-operand class is a comparison with many values, that of
    a pair, or fails. -/
theorem workTwo_cases (op : TwoOp) (operands : List UInt16) :
    (∃ condition, op = .je ∧ workTwo op operands = test condition) ∨
    (∃ a b, operands = [a, b] ∧ workTwo op operands = workPair op a b) ∨
    ∃ expected got, workTwo op operands = .fail (.operandCount op.name expected got) := by
  cases op
  case je =>
      match operands with
      | [] => exact .inr (.inr ⟨_, _, rfl⟩)
      | a :: others =>
          by_cases h : others.length ≤ 3
          · exact .inl ⟨_, rfl, if_pos h⟩
          · exact .inr (.inr ⟨_, _, if_neg h⟩)
  all_goals
      match operands with
      | [a, b] => exact .inr (.inl ⟨a, b, rfl, rfl⟩)
      | [] | [_] | _ :: _ :: _ :: _ => exact .inr (.inr ⟨_, _, rfl⟩)

/-- Following a descriptor hands control over as it says. -/
theorem follow_eq (b : Branch) (condition : Bool) :
    follow b condition = handOver (b.transfer condition) := by
  unfold follow Branch.transfer
  split
  · split
    · rfl
    · split
      · rfl
      · rfl
  · rfl

/-- A branch is a test, and the transfer that it calls for. -/
theorem branch_eq (condition : Bool) : branch condition = test condition >>= handOver := by
  unfold branch test
  rw [bind_assoc]
  refine congrArg (readBranch >>= ·) ?_
  funext b
  rw [pure_bind, follow_eq]

/-- Work that transfers no control goes on with the next instruction. -/
theorem thenProceed_eq {σ : Type} (f : Transfer → Action σ Unit) (hf : f .proceed = pure ())
    (x : Action σ Unit) : x = thenProceed x >>= f := by
  unfold thenProceed
  rw [bind_assoc]
  have : (fun _ : Unit => (pure .proceed : Action σ Transfer) >>= f) = fun _ => pure () := by
    funext _
    rw [pure_bind, hf]
  rw [this]
  exact (bind_pure x).symm

theorem storeLink_eq (l : Link) (o : UInt16) :
    storeLink l o = testLink l o >>= handOver := by
  unfold storeLink testLink
  rw [bind_assoc]
  refine congrArg (_ >>= ·) ?_
  funext target
  rw [bind_assoc]
  refine congrArg (_ >>= ·) ?_
  funext _
  exact branch_eq _

theorem verify_eq : verify = testChecksum >>= handOver := by
  unfold verify testChecksum
  rw [bind_assoc]
  refine congrArg (_ >>= ·) ?_
  funext story
  exact branch_eq _

/-- An instruction with two operands is its work, and the transfer of control. -/
theorem executePair_eq (op : TwoOp) (a b : UInt16) :
    executePair op a b = workPair op a b >>= handOver := by
  cases op
  case je | jl | jg | test => exact branch_eq _
  case decChk | incChk | jin | testAttr =>
      show (_ >>= _) = (_ >>= _ >>= handOver)
      rw [bind_assoc]
      refine congrArg (_ >>= ·) ?_
      funext x
      exact branch_eq _
  all_goals exact thenProceed_eq handOver rfl _

theorem fail_eq {σ : Type} (f : Transfer → Action σ Unit) (e : Fault) :
    (Action.fail e : Action σ Unit) = Action.fail e >>= f := rfl

theorem executeTwo_eq (op : TwoOp) (operands : List UInt16) :
    executeTwo op operands = workTwo op operands >>= handOver := by
  cases op
  case je =>
      match operands with
      | [] => exact fail_eq handOver _
      | a :: others =>
          unfold executeTwo workTwo
          dsimp only
          by_cases h : others.length ≤ 3
          · rw [if_pos h, if_pos h]
            exact branch_eq _
          · rw [if_neg h, if_neg h]
            exact fail_eq handOver _
  -- All but the first take exactly two operands.
  all_goals
      match operands with
      | [a, b] =>
          unfold executeTwo workTwo
          dsimp only
          exact executePair_eq _ a b
      | [] | [_] | _ :: _ :: _ :: _ => exact fail_eq handOver _

/-- A call reads the header of the routine, and goes to its code. -/
theorem call_eq {packed : UInt16} (h : packed ≠ 0) (arguments : List UInt16) (m : Machine) :
    call packed arguments m = match Frame.scan m.pc m.memory (unpack packed) with
      | (.ok f, a) =>
          (.ok (), { m with calls := m.calls.push (f.withArguments arguments), pc := a })
      | (.error e, _) => (.error e, m) := by
  refine (congrFun (if_neg h) m).trans ?_
  cases Frame.scan m.pc m.memory (unpack packed) with
  | mk r a =>
      cases r with
      | ok f => simp only [f.applyArguments_eq]
      | error e => rfl

end Machine

namespace Session

variable {δ α β : Type}

/-- Hands over control. -/
def handOver (τ : Transfer) : Action (Session δ) Unit := onMachine (Machine.handOver τ)

theorem onMachine_apply (x : Action Machine α) (s : Session δ) :
    onMachine x s = ((x s.machine).1, ⟨(x s.machine).2, s.device⟩) := rfl

/-- The same, for a given result. -/
theorem onMachine_eq_iff {x : Action Machine α} {s t : Session δ} {r : Except Fault α} :
    onMachine x s = (r, t) ↔ x s.machine = (r, t.machine) ∧ t.device = s.device := by
  rw [onMachine_apply]
  constructor
  · intro h
    cases h
    exact ⟨rfl, rfl⟩
  · rintro ⟨h, hd⟩
    rw [h, ← hd]

theorem onDevice_eq {x : Action δ α} {s : Session δ} {r : Except Fault α} {d : δ}
    (h : x s.device = (r, d)) : onDevice x s = (r, ⟨s.machine, d⟩) := by
  show ((x s.device).1, Session.mk s.machine (x s.device).2) = (r, ⟨s.machine, d⟩)
  rw [h]

/-- Work on the machine can be done in parts. -/
theorem onMachine_bind (x : Action Machine α) (f : α → Action Machine β) :
    (onMachine (x >>= f) : Action (Session δ) β) = onMachine x >>= fun a => onMachine (f a) := by
  funext s
  rw [onMachine_apply, Action.bind_apply, Action.bind_apply, onMachine_apply]
  match x s.machine with
  | (.ok a, m) => rfl
  | (.error e, m) => rfl

theorem thenProceed_eq (x : Action (Session δ) Unit) :
    x = Machine.thenProceed x >>= handOver :=
  Machine.thenProceed_eq handOver rfl x

/-- A branch of the machine, as a part of its session. -/
theorem onMachine_branch (condition : Bool) :
    (onMachine (Machine.branch condition) : Action (Session δ) Unit) =
      onMachine (Machine.test condition) >>= handOver := by
  rw [Machine.branch_eq, onMachine_bind]
  rfl

variable [Device δ]

/-- With a table open, text goes there only. -/
theorem output_of_table {s : Session δ} {table : Nat} {rest : List Nat}
    (h : s.machine.streams.tables = table :: rest) (text : String) :
    output text s = onMachine (Machine.onMemory (Machine.appendText table text)) s := by
  obtain ⟨⟨story, rules, memory, pc, calls, ⟨screen, tables⟩, random, entropy, quit, count⟩,
    device⟩ := s
  obtain rfl : tables = table :: rest := h
  rfl

/-- Without one, it is printed if the screen is selected. -/
theorem output_of_screen {s : Session δ} (h : s.machine.streams = ⟨true, []⟩) (text : String) :
    output text s = onDevice (Device.print text) s := by
  rw [output, Action.bind_of_ok (onMachine_eq_iff.mpr ⟨Action.view_apply _ _, rfl⟩), h]

/-- Otherwise it is lost. -/
theorem output_of_none {s : Session δ} (h : s.machine.streams = ⟨false, []⟩) (text : String) :
    output text s = (.ok (), s) := by
  rw [output, Action.bind_of_ok (onMachine_eq_iff.mpr ⟨Action.view_apply _ _, rfl⟩), h]
  rfl

/-- The work of an operation without operands. -/
def workZero (op : ZeroOp) : Action (Session δ) Transfer :=
  match op with
  | .rtrue => pure (.leave 1)
  | .rfalse => pure (.leave 0)
  | .printRet => do
      outputInline
      output "\n"
      pure (.leave 1)
  | .save => onMachine (Machine.test false)
  | .restore => onMachine (Machine.test false)
  | .restart => pure .restart
  | .retPopped => do
      let x ← onMachine Machine.pop
      pure (.leave x)
  | .verify => onMachine Machine.testChecksum
  | op => Machine.thenProceed (executeZero op)

/-- The work of an operation with one operand. -/
def workOne (op : OneOp) (x : UInt16) : Action (Session δ) Transfer :=
  match op with
  | .jz => onMachine (Machine.test (x == 0))
  | .getSibling => onMachine (Machine.testLink .sibling x)
  | .getChild => onMachine (Machine.testLink .child x)
  | .ret => pure (.leave x)
  | .jump => pure (.jump (signed x))
  | op => Machine.thenProceed (executeOne op x)

/-- The work of an operation with a variable number of operands. -/
def workMany (op : VarOp) (operands : List UInt16) : Action (Session δ) Transfer :=
  match op, operands with
  | .call, packed :: arguments =>
      if packed = 0 then Machine.thenProceed (onMachine (Machine.storeResult 0))
      else pure (.enter packed arguments)
  | op, operands => Machine.thenProceed (executeMany op operands)

/-- The work of a decoded instruction on the values of its operands. -/
def work (i : Instruction) (operands : List UInt16) : Action (Session δ) Transfer :=
  match Operation.ofNumber? i.opClass i.number with
  | none => .fail (.illegalOpcode i.opClass i.number i.address)
  | some (.zero op) => workZero op
  | some (.one op) =>
      match operands with
      | x :: _ => workOne op x
      | [] => .fail (.defect .missingOperand)
  | some (.two op) => onMachine (Machine.workTwo op operands)
  | some (.many op) => workMany op operands

/-- An instruction without operands is its work, and the transfer of control. -/
theorem executeZero_eq (op : ZeroOp) :
    (executeZero op : Action (Session δ) Unit) = workZero op >>= handOver := by
  cases op
  case rtrue | rfalse | restart => rfl
  case save | restore => exact onMachine_branch false
  case printRet =>
      show _ = (outputInline >>= fun _ => output "\n" >>= fun _ => pure (.leave 1)) >>= handOver
      rw [bind_assoc]
      refine congrArg (outputInline >>= ·) ?_
      funext _
      rw [bind_assoc]
      refine congrArg (output "\n" >>= ·) ?_
      funext _
      rw [pure_bind]
      rfl
  case retPopped =>
      show onMachine (_ >>= _) = (_ >>= _ >>= handOver)
      rw [onMachine_bind, bind_assoc]
      rfl
  case verify =>
      show onMachine Machine.verify = onMachine Machine.testChecksum >>= handOver
      rw [Machine.verify_eq, onMachine_bind]
      rfl
  -- What is left transfers no control.
  all_goals exact thenProceed_eq _

theorem executeOne_eq (op : OneOp) (x : UInt16) :
    (executeOne op x : Action (Session δ) Unit) = workOne op x >>= handOver := by
  cases op
  case jz => exact onMachine_branch _
  case getSibling | getChild =>
      show onMachine (Machine.storeLink _ _) = (onMachine (Machine.testLink _ _) >>= handOver)
      rw [Machine.storeLink_eq, onMachine_bind]
      rfl
  case ret | jump => rfl
  all_goals exact thenProceed_eq _

theorem executeMany_eq (op : VarOp) (operands : List UInt16) :
    (executeMany op operands : Action (Session δ) Unit) = workMany op operands >>= handOver := by
  unfold workMany
  split
  · next packed arguments =>
      split
      · next h =>
          subst h
          exact thenProceed_eq _
      · rfl
  · exact thenProceed_eq _

/-- The execution of an instruction is its work and then a transfer of control. -/
theorem execute_eq_work (i : Instruction) (operands : List UInt16) :
    (execute i operands : Action (Session δ) Unit) = work i operands >>= handOver := by
  unfold execute work
  cases Operation.ofNumber? i.opClass i.number with
  | none => exact Machine.fail_eq handOver _
  | some op =>
      cases op with
      | zero op => exact executeZero_eq op
      | one op =>
          match operands with
          | x :: _ => exact executeOne_eq op x
          | [] => exact Machine.fail_eq handOver _
      | two op =>
          show onMachine (Machine.executeTwo op operands) = _
          rw [Machine.executeTwo_eq, onMachine_bind]
          rfl
      | many op => exact executeMany_eq op operands

end Session

end ZMachine
