import ZMachine.Proofs.Layout
import ZMachine.Proofs.Transfer

/-! # What the work of an instruction may do

    Operations that do not transfer control move the pc past the number of the
    variable for their result, if they have one, and no further; only a string
    after `print` is read as well. The work of every operation, wherever
    control goes afterwards, stays within the running routine: `obeys_work`. -/

namespace ZMachine

open Conduct

namespace Machine

theorem moves_quit : conduct.Moves 0 (.change fun m => { m with quit := true }) :=
  .change (fun _ => ⟨rfl, rfl, rfl, rfl, .refl _, Nat.le_max_left _ _, id, rfl⟩) fun _ => rfl

/-- An instruction with two operands that neither branches nor calls moves past its result. -/
theorem moves_executePair {op : TwoOp} (h : (Operation.two op).control = .plain) (a b : UInt16) :
    conduct.Moves (Operation.two op).storeWidth (executePair op a b) := by
  cases op
  -- These branch, and so are not plain.
  case je | jl | jg | decChk | incChk | jin | test | testAttr => exact nomatch h
  case or | and | add | sub | mul => exact moves_storeResult _
  case div | mod =>
      unfold executePair
      dsimp only
      split
      · exact .fail fun _ => .inl trivial
      · exact moves_storeResult _
  case setAttr | clearAttr => exact moves_onObjects fun t => t.obeys_setAttribute a b _
  case store => exact moves_writeIndirect _ b
  case insertObj => exact moves_onObjects fun t => t.relinks_conduct.insert a b
  case loadw =>
      exact (moves_askMemory fun m => m.failsOnly_wordAt _).after fun x => moves_storeResult x
  case loadb =>
      exact (moves_askMemory fun m => m.failsOnly_byteAt _).after fun x => moves_storeResult _
  case getProp => exact moves_storeObjects fun t _ => t.failsOnly_property a b
  case getPropAddr => exact moves_storeObjects fun t _ => t.failsOnly_propertyAddress a b
  case getNextProp => exact moves_storeObjects fun t _ => t.failsOnly_nextProperty a b

/-- Testing reads a descriptor within memory. -/
theorem obeys_test (condition : Bool) : conduct.Obeys (test condition) := by
  unfold test
  exact obeys_readBranch.bind fun b => .pure _

/-- Work obeys what it obeys before a transfer. -/
theorem obeys_thenProceed {σ : Type} {C : Conduct σ} {x : Action σ Unit} (hx : C.Obeys x) :
    C.Obeys (thenProceed x) := by
  unfold thenProceed
  exact hx.bind fun _ => .pure _

theorem obeys_workPair (op : TwoOp) (a b : UInt16) : conduct.Obeys (workPair op a b) := by
  cases op
  case je | jl | jg | test => exact obeys_test _
  case decChk | incChk => exact (moves_updateVariable _ _).obeys.bind fun _ => obeys_test _
  case jin =>
      refine (moves_askObjects fun t _ => ?_).obeys.bind fun _ => obeys_test _
      exact t.failsOnly_link a .parent
  case testAttr =>
      refine (moves_askObjects fun t _ => ?_).obeys.bind fun _ => obeys_test _
      exact t.failsOnly_hasAttribute a b
  all_goals exact obeys_thenProceed (moves_executePair rfl a b).obeys

theorem obeys_workTwo (op : TwoOp) (operands : List UInt16) :
    conduct.Obeys (workTwo op operands) := by
  rcases workTwo_cases op operands with ⟨_, -, h⟩ | ⟨a, b, -, h⟩ | ⟨_, _, h⟩
  · rw [h]
    exact obeys_test _
  · rw [h]
    exact obeys_workPair op a b
  · rw [h]
    exact .fail fun _ => .inl trivial

theorem obeys_testLink (l : Link) (o : UInt16) : conduct.Obeys (testLink l o) := by
  unfold testLink
  refine (moves_askObjects fun t _ => t.failsOnly_link o l).obeys.bind ?_
  intro target
  exact (moves_storeResult target).obeys.bind fun _ => obeys_test _

theorem obeys_testChecksum : conduct.Obeys testChecksum := by
  unfold testChecksum
  exact (Moves.view _).obeys.bind fun story => obeys_test _

end Machine

namespace Session

variable {δ : Type} [Device δ] {C : Conduct (Session δ)} (hC : Hosts C)

include hC

/-- Printing the text behind an instruction. -/
theorem obeys_outputInline : C.Obeys (outputInline : Action (Session δ) Unit) := by
  unfold outputInline
  exact (hC.obeys obeys_inlineText).bind fun text => (moves_output hC text).obeys

/-- An instruction without operands that neither branches nor prints does not move the pc. -/
theorem moves_executeZero {op : ZeroOp} (h : (Operation.zero op).control = .plain)
    (hp : op ≠ .print) :
    C.Moves 0 (executeZero op : Action (Session δ) Unit) := by
  cases op
  case rtrue | rfalse | printRet | save | restore | restart | retPopped | verify =>
      exact nomatch h
  case print => exact absurd rfl hp
  case nop => exact .pure ()
  case pop => exact hC.moves (Machine.moves_pop.after fun _ => .pure ())
  case quit => exact hC.moves Machine.moves_quit
  case newLine => exact moves_output hC "\n"
  case showStatus => exact moves_showStatus hC

/-- One with one operand moves past its result. -/
theorem moves_executeOne {op : OneOp} (h : (Operation.one op).control = .plain) (x : UInt16) :
    C.Moves (Operation.one op).storeWidth (executeOne op x : Action (Session δ) Unit) := by
  cases op
  case jz | getSibling | getChild | ret | jump => exact nomatch h
  case getParent =>
      exact hC.moves (Machine.moves_storeObjects fun t _ => t.failsOnly_link x .parent)
  case getPropLen =>
      exact hC.moves (Machine.moves_storeObjects fun _ _ => ObjectTable.failsOnly_lengthAt x)
  case inc | dec =>
      exact hC.moves ((Machine.moves_updateVariable _ _).after fun _ => .pure ())
  case printAddr | printPaddr => exact moves_outputAt hC _
  case removeObj => exact hC.moves (Machine.moves_onObjects fun t => t.relinks_conduct.remove x)
  case printObj => exact moves_outputName hC x
  case load =>
      exact hC.moves ((Machine.moves_readIndirect _).after Machine.moves_storeResult)
  case not => exact hC.moves (Machine.moves_storeResult _)

/-- An instruction with the wrong number of operands fails, so that it moves in no way. -/
theorem moves_wrongCount (op : VarOp) (expected : String) (operands : List UInt16) (n : Nat) :
    C.Moves n (wrongCount op expected operands : Action (Session δ) Unit) :=
  .fail fun _ => hC.mayFail (.inl trivial)

/-- One with any number of operands moves past its result. -/
theorem moves_executeMany {op : VarOp} (h : (Operation.many op).control = .plain)
    (operands : List UInt16) :
    C.Moves (Operation.many op).storeWidth
      (executeMany op operands : Action (Session δ) Unit) := by
  unfold executeMany
  split
  -- The cases are those of the definition, in its order.
  · exact nomatch h
  · exact nomatch h
  · exact hC.moves (Machine.moves_onMemory (Memory.obeys_writeWord _ _))
  · exact moves_wrongCount hC _ _ _ _
  · exact hC.moves (Machine.moves_onMemory (Memory.obeys_writeByte _ _))
  · exact moves_wrongCount hC _ _ _ _
  · exact hC.moves (Machine.moves_onObjects fun t => t.obeys_putProperty _ _ _)
  · exact moves_wrongCount hC _ _ _ _
  · exact moves_readLine hC _ _
  · exact moves_wrongCount hC _ _ _ _
  · exact moves_output hC _
  · exact moves_wrongCount hC _ _ _ _
  · exact moves_output hC _
  · exact moves_wrongCount hC _ _ _ _
  · exact hC.moves (Machine.moves_storeRandom _)
  · exact moves_wrongCount hC _ _ _ _
  · exact hC.moves (Machine.moves_push _)
  · exact moves_wrongCount hC _ _ _ _
  · exact hC.moves (Machine.moves_pull _)
  · exact moves_wrongCount hC _ _ _ _
  · exact .pure ()
  · exact .pure ()
  · exact hC.moves (Machine.moves_selectStream _)
  · exact .pure ()
  · exact .pure ()

theorem obeys_workZero (op : ZeroOp) :
    C.Obeys (workZero op : Action (Session δ) Transfer) := by
  cases op
  case rtrue | rfalse | restart => exact .pure _
  case printRet =>
      exact (obeys_outputInline hC).bind fun _ => (moves_output hC "\n").obeys.bind fun _ => .pure _
  case save | restore => exact hC.obeys (Machine.obeys_test false)
  case retPopped => exact (hC.obeys Machine.moves_pop.obeys).bind fun _ => .pure _
  case verify => exact hC.obeys Machine.obeys_testChecksum
  case print => exact Machine.obeys_thenProceed (obeys_outputInline hC)
  all_goals
      refine Machine.obeys_thenProceed (Moves.obeys (n := 0) ?_)
      exact moves_executeZero hC rfl nofun

theorem obeys_workOne (op : OneOp) (x : UInt16) :
    C.Obeys (workOne op x : Action (Session δ) Transfer) := by
  cases op
  case jz => exact hC.obeys (Machine.obeys_test _)
  case getSibling | getChild => exact hC.obeys (Machine.obeys_testLink _ x)
  case ret | jump => exact .pure _
  all_goals exact Machine.obeys_thenProceed (moves_executeOne hC rfl x).obeys

theorem obeys_workMany (op : VarOp) (operands : List UInt16) :
    C.Obeys (workMany op operands : Action (Session δ) Transfer) := by
  cases op
  case call =>
      match operands with
      | [] => exact Machine.obeys_thenProceed (moves_wrongCount hC .call "1 to 4" [] 0).obeys
      | packed :: arguments =>
          unfold workMany
          dsimp only
          split
          · exact Machine.obeys_thenProceed (hC.moves (Machine.moves_storeResult 0)).obeys
          · exact .pure _
  all_goals exact Machine.obeys_thenProceed (moves_executeMany hC rfl operands).obeys

end Session

/-- Operations of the one-operand class come from numbers of that class. -/
theorem Operation.opClass_eq_one {c : OpClass} {n : Nat} {op : OneOp}
    (h : ofNumber? c n = some (.one op)) : c = .one := by
  cases c with
  | one => rfl
  | zero | two | many => simp [ofNumber?] at h

namespace Session

variable {δ : Type} [Device δ] {C : Conduct (Session δ)}

/-- The work of an instruction stays within the running routine. An operation of the
    one-operand class relies on its operand. -/
theorem obeys_work (hC : Hosts C) {i : Instruction} {op : Operation} {operands : List UInt16}
    (hop : Operation.ofNumber? i.opClass i.number = some op)
    (h : i.opClass = .one → operands ≠ []) :
    C.Obeys (work i operands : Action (Session δ) Transfer) := by
  simp only [work, hop]
  cases op with
  | zero op => exact obeys_workZero hC op
  | one op =>
      cases operands with
      | cons x rest => exact obeys_workOne hC op x
      | nil => exact absurd rfl (h (Operation.opClass_eq_one hop))
  | two op => exact hC.obeys (Machine.obeys_workTwo op operands)
  | many op => exact obeys_workMany hC op operands

end Session

end ZMachine
