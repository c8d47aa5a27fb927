import ZMachine.Proofs.Step

/-! # Runs that agree

    Two runs of a story agree if their steps yield the same results and lead to
    states that stay related. The machines may differ in what hardly any
    operation looks at: the rules, the entropy, whether the story has quit and
    the count of instructions. The devices may be of different kinds, as long
    as they answer alike.

    * `Machine.Blind`: an action that neither looks at these four nor changes
      them;
    * `Machine.agree_readVariable`, `agree_writeIndirect`, `agree_pull`,
      `agree_storeRandom`: what the others depend on;
    * `Session.agreeAt_step`: steps agree on devices that do. -/

namespace ZMachine

/-! ## Actions that agree -/

namespace Action

variable {σ τ α β : Type} {R : σ → τ → Prop}

/-- Two actions have the same result in two states and lead to related states. -/
def AgreeAt (R : σ → τ → Prop) (x : Action σ α) (y : Action τ α) (s : σ) (t : τ) : Prop :=
  (x s).1 = (y t).1 ∧ R (x s).2 (y t).2

/-- Two actions agree in all related states. -/
def Agree (R : σ → τ → Prop) (x : Action σ α) (y : Action τ α) : Prop :=
  ∀ s t, R s t → AgreeAt R x y s t

/-- Two actions agree where their runs are known. -/
theorem AgreeAt.of_eq {x : Action σ α} {y : Action τ α} {s s' : σ} {t t' : τ}
    {r : Except Fault α} (hx : x s = (r, s')) (hy : y t = (r, t')) (h : R s' t') :
    AgreeAt R x y s t := by
  constructor
  · rw [hx, hy]
  · rw [hx, hy]
    exact h

/-- Sequences agree at related states if their first parts do, and their second parts agree at every
    state that these lead to. -/
theorem AgreeAt.bind {x : Action σ α} {y : Action τ α} {f : α → Action σ β}
    {g : α → Action τ β} {s : σ} {t : τ} (hx : AgreeAt R x y s t)
    (hf : ∀ a s' t', x s = (.ok a, s') → R s' t' → AgreeAt R (f a) (g a) s' t') :
    AgreeAt R (x >>= f) (y >>= g) s t := by
  obtain ⟨hresult, hstate⟩ := hx
  unfold AgreeAt
  rw [bind_apply, bind_apply]
  cases hxs : x s with
  | mk r s' =>
      cases hyt : y t with
      | mk r' t' =>
          rw [hxs, hyt] at hresult hstate
          obtain rfl : r = r' := hresult
          cases r with
          | ok a => exact hf a s' t' hxs hstate
          | error e => exact ⟨rfl, hstate⟩

/-- Sequences agree if their parts do. -/
theorem Agree.bind {x : Action σ α} {y : Action τ α} {f : α → Action σ β} {g : α → Action τ β}
    (hx : Agree R x y) (hf : ∀ a, Agree R (f a) (g a)) : Agree R (x >>= f) (y >>= g) := by
  intro s t h
  refine (hx s t h).bind ?_
  intro a s' t' _ h'
  exact hf a s' t' h'

/-- Yielding the same value agrees. -/
theorem Agree.pure (a : α) : Agree R (pure a : Action σ α) (pure a : Action τ α) :=
  fun _ _ h => ⟨rfl, h⟩

/-- Failing in the same way agrees. -/
theorem Agree.fail (e : Fault) : Agree R (fail e : Action σ α) (fail e : Action τ α) :=
  fun _ _ h => ⟨rfl, h⟩

/-- What is the same in related states is seen alike. -/
theorem Agree.view {f : σ → α} {g : τ → α} (h : ∀ s t, R s t → f s = g t) :
    Agree R (view f) (view g) :=
  fun s t hst => ⟨congrArg Except.ok (h s t hst), hst⟩

/-- Changes agree if they keep states related. -/
theorem Agree.change {f : σ → σ} {g : τ → τ} (h : ∀ s t, R s t → R (f s) (g t)) :
    Agree R (change f) (change g) :=
  fun s t hst => ⟨rfl, h s t hst⟩

end Action

open ZMachine.Action

/-! ## Machines that differ in little -/

namespace Machine

variable {α β : Type}

/-- What a machine has besides the story and the state of its execution. -/
structure Aside where
  rules : Rules
  entropy : UInt64
  quit : Bool
  count : Nat

/-- What is aside in a machine. -/
def aside (m : Machine) : Aside := ⟨m.rules, m.entropy, m.quit, m.count⟩

/-- The machine with something else aside. -/
def withAside (m : Machine) (a : Aside) : Machine :=
  { m with rules := a.rules, entropy := a.entropy, quit := a.quit, count := a.count }

/-- Machines that are equal but for what is aside, which is related. -/
def Alike (Q : Aside → Aside → Prop) (m m' : Machine) : Prop :=
  ∃ a, Q m.aside a ∧ m' = m.withAside a

/-- An action that neither depends on what is aside nor changes it. -/
def Blind (x : Action Machine α) : Prop :=
  ∀ m a, x (m.withAside a) = ((x m).1, (x m).2.withAside a)

variable {Q : Aside → Aside → Prop}

/-- A blind action leaves alone what it does not look at. -/
theorem Blind.aside_eq {x : Action Machine α} (hx : Blind x) (m : Machine) :
    (x m).2.aside = m.aside := by
  have h := congrArg (fun r => r.2.aside) (hx m m.aside)
  exact h

/-- Whatever the differences aside, an action that is blind to them agrees with itself. -/
theorem Blind.agree {x : Action Machine α} (hx : Blind x) : Agree (Alike Q) x x := by
  rintro m _ ⟨a, ha, rfl⟩
  unfold AgreeAt
  rw [hx m a]
  refine ⟨rfl, a, ?_, rfl⟩
  rw [hx.aside_eq m]
  exact ha

/-- A sequence of blind actions is blind. -/
theorem Blind.bind {x : Action Machine α} {f : α → Action Machine β} (hx : Blind x)
    (hf : ∀ a, Blind (f a)) : Blind (x >>= f) := by
  intro m a
  rw [bind_apply, bind_apply, hx m a]
  cases x m with
  | mk r m' =>
      cases r with
      | ok b => exact hf b m' a
      | error e => rfl

theorem Blind.pure (b : α) : Blind (pure b) := fun _ _ => rfl

theorem Blind.fail (e : Fault) : Blind (fail e : Action Machine α) := fun _ _ => rfl

theorem Blind.ofExcept (r : Except Fault α) : Blind (ofExcept r : Action Machine α) :=
  fun _ _ => rfl

/-- Reading is blind if it does not depend on what is aside. -/
theorem Blind.ask {f : Machine → Except Fault α} (hf : ∀ m a, f (m.withAside a) = f m) :
    Blind (ask f) := by
  intro m a
  rw [ask_apply, ask_apply, hf m a]

/-- Looking is blind if it does not depend on what is aside. -/
theorem Blind.view {f : Machine → α} (hf : ∀ m a, f (m.withAside a) = f m) : Blind (view f) := by
  intro m a
  rw [view_apply, view_apply, hf m a]

/-- A change is blind if it does not depend on what is aside and leaves it alone. -/
theorem Blind.change {f : Machine → Machine}
    (hf : ∀ m a, f (m.withAside a) = (f m).withAside a) : Blind (change f) := by
  intro m a
  rw [change_apply, change_apply, hf m a]

/-- Memory is not aside, so what is done to it is blind. -/
theorem blind_onMemory (x : Action Memory α) : Blind (onMemory x) := fun _ _ => rfl

theorem blind_askMemory (f : Memory → Except Fault α) : Blind (askMemory f) :=
  .ask fun _ _ => rfl

/-! ### Variables -/

/-- Reading the next byte is blind. -/
theorem blind_nextByte : Blind nextByte := by
  intro m a
  simp only [nextByte, withAside]
  cases m.memory.byteAt m.pc with
  | ok b => rfl
  | error e => rfl

theorem blind_askTop (f : Frame → Except Fault α) : Blind (askTop f) := .ask fun _ _ => rfl

/-- A change of the running frame is blind. -/
theorem blind_changeTop (f : Frame → Except Fault Frame) : Blind (changeTop f) := by
  intro m a
  simp only [changeTop, withAside]
  cases f m.calls.top with
  | ok t => rfl
  | error e => rfl

theorem blind_push (x : UInt16) : Blind (push x) := blind_changeTop _

/-- Popping is blind. -/
theorem blind_pop : Blind pop := by
  intro m a
  simp only [pop, withAside]
  cases m.calls.top.pop with
  | ok r => rfl
  | error e => rfl

/-- Reading a variable is blind, the stack apart: the rules say whether it is popped. -/
theorem blind_readVariable {v : UInt8} (hv : v ≠ 0) : Blind (readVariable v) := by
  unfold readVariable
  rw [if_neg hv]
  split
  · exact blind_askTop _
  · next hlocal =>
      rw [readGlobal_eq (Nat.not_lt.mp hlocal)]
      exact .ask fun _ _ => rfl

/-- Writing a variable is blind; on the stack it is a push under either rule. -/
theorem blind_writeVariable (v : UInt8) (x : UInt16) : Blind (writeVariable v x) := by
  unfold writeVariable
  split
  · exact blind_push x
  · split
    · exact blind_changeTop _
    · next hlocal =>
        rw [writeGlobal_eq (Nat.not_lt.mp hlocal)]
        exact (Blind.view fun _ _ => rfl).bind fun a => blind_onMemory _

/-- Reading a variable in place is blind, since the stack is not popped then. -/
theorem blind_readIndirect (v : UInt8) : Blind (readIndirect v) := by
  unfold readIndirect
  split
  · exact blind_askTop _
  · next hv => exact blind_readVariable hv

/-- Adding to a variable is blind, since it is done in place. -/
theorem blind_updateVariable (v : UInt8) (delta : UInt16) : Blind (updateVariable v delta) := by
  refine (blind_readIndirect v).bind fun old => ?_
  split
  · exact (blind_changeTop _).bind fun _ => .pure _
  · exact (blind_writeVariable v _).bind fun _ => .pure _

/-- Storing a result is blind. -/
theorem blind_storeResult (x : UInt16) : Blind (storeResult x) :=
  blind_nextByte.bind fun v => blind_writeVariable v x

/-- The rules aside treat the stack in the same way. -/
def SameStack (Q : Aside → Aside → Prop) : Prop :=
  ∀ a b, Q a b → a.rules.stack = b.rules.stack

/-- Rules that treat the stack in the same way look alike. -/
theorem SameStack.agree_view (h : SameStack Q) :
    Agree (Alike Q) (.view fun m => m.rules.stack) (.view fun m => m.rules.stack) := by
  refine .view ?_
  rintro m _ ⟨a, ha, rfl⟩
  exact h m.aside a ha

/-- Reading the stack is the one access to a variable that depends on the rules. -/
theorem agree_readVariable {v : UInt8} (h : v = 0 → SameStack Q) :
    Agree (Alike Q) (readVariable v) (readVariable v) := by
  by_cases hv : v = 0
  · unfold readVariable
    rw [if_pos hv]
    refine (h hv).agree_view.bind fun rule => ?_
    cases rule with
    | standard => exact blind_pop.agree
    | legacy => exact (blind_askTop _).agree
  · exact (blind_readVariable hv).agree

/-- Writing in place agrees if the rules treat the stack in the same way, or the variable is not the
    stack. -/
theorem agree_writeIndirect {v : UInt8} (h : v = 0 → SameStack Q) (x : UInt16) :
    Agree (Alike Q) (writeIndirect v x) (writeIndirect v x) := by
  by_cases hv : v = 0
  · refine (h hv).agree_view.bind fun rule => ?_
    cases rule with
    | standard =>
        rw [if_pos hv]
        exact (blind_changeTop _).agree
    | legacy => exact (blind_writeVariable v x).agree
  · -- both rules do the same
    have heq : writeIndirect v x = writeVariable v x := by
      funext m
      rw [writeIndirect, Action.bind_of_ok (Action.view_apply _ _)]
      cases m.rules.stack with
      | standard => exact congrFun (if_neg hv) m
      | legacy => rfl
    rw [heq]
    exact (blind_writeVariable v x).agree

/-- Pulling a value agrees if the rules treat the stack in the same way. -/
theorem agree_pull (h : SameStack Q) (v : UInt16) : Agree (Alike Q) (pull v) (pull v) := by
  refine blind_pop.agree.bind fun x => h.agree_view.bind fun rule => ?_
  cases rule with
  | standard => exact agree_writeIndirect (fun _ => h) x
  | legacy => exact .pure ()

/-! ### Control and output -/

/-- Reading a branch descriptor is blind. -/
theorem blind_readBranch : Blind readBranch := by
  refine blind_nextByte.bind fun first => ?_
  split
  · exact .pure _
  · exact blind_nextByte.bind fun second => .pure _

/-- A jump is blind. -/
theorem blind_jump (offset : Int) : Blind (jump offset) := by
  intro m a
  by_cases h : 0 ≤ (m.pc : Int) + offset - 2 ∧ (m.pc : Int) + offset - 2 < m.memory.size
  · have hm : jump offset m = (.ok (), { m with pc := _ }) := if_pos h
    rw [hm]
    exact if_pos h
  · have hm : jump offset m = (.error _, m) := if_neg h
    rw [hm]
    exact if_neg h

/-- A return is blind. -/
theorem blind_returnWith (x : UInt16) : Blind (returnWith x) := by
  refine Blind.bind ?_ fun _ => blind_storeResult x
  intro m a
  simp only [withAside]
  cases m.calls.pop with
  | ok r => rfl
  | error e => rfl

/-- A branch is blind, whichever way it goes. -/
theorem blind_branch (condition : Bool) : Blind (branch condition) := by
  refine blind_readBranch.bind fun b => ?_
  unfold follow
  split
  · split
    · exact blind_returnWith 0
    · split
      · exact blind_returnWith 1
      · exact blind_jump _
  · exact .pure ()

/-- A call is blind. -/
theorem blind_call (packed : UInt16) (arguments : List UInt16) :
    Blind (call packed arguments) := by
  by_cases h : packed = 0
  · have hcall : call packed arguments = storeResult 0 := if_pos h
    rw [hcall]
    exact blind_storeResult 0
  · intro m a
    rw [call_eq h, call_eq h]
    simp only [withAside]
    cases Frame.scan m.pc m.memory (unpack packed) with
    | mk r a =>
        cases r with
        | ok f => rfl
        | error e => rfl

theorem blind_story : Blind (.view Machine.story) := .view fun _ _ => rfl

/-- A restart is blind: what is aside survives it. -/
theorem blind_restart : Blind restart := by
  refine blind_story.bind fun story => (Blind.ofExcept _).bind fun size => ?_
  refine (Blind.ofExcept _).bind fun _ => (blind_onMemory _).bind fun _ => ?_
  exact .change fun _ _ => rfl

theorem blind_verify : Blind verify := blind_story.bind fun _ => blind_branch _

theorem blind_openTable (table : Nat) : Blind (openTable table) :=
  (blind_onMemory _).bind fun _ => .change fun _ _ => rfl

/-- Selecting a stream is blind. -/
theorem blind_selectStream (operands : List UInt16) : Blind (selectStream operands) := by
  unfold selectStream
  split
  · exact .fail _
  · split
    · exact .change fun _ _ => rfl
    · exact .change fun _ _ => rfl
    · split
      · exact .fail _
      · exact blind_openTable _
    · exact .change fun _ _ => rfl
    · exact .pure ()

/-- Making up the status line is blind; it reads global variables only. -/
theorem blind_status : Blind status :=
  (blind_readVariable (by decide)).bind fun _ => blind_story.bind fun _ =>
    (blind_readVariable (by decide)).bind fun _ =>
      (blind_readVariable (by decide)).bind fun _ => .pure _

/-- Reading the string at the pc is blind. -/
theorem blind_inlineText : Blind Session.inlineText := by
  intro m a
  simp only [Session.inlineText, withAside]
  cases Text.decode m.memory m.story.header.abbreviations.toNat m.pc with
  | ok r => rfl
  | error e => rfl

/-! ### Operations -/

theorem blind_askObjects (f : ObjectTable → Memory → Except Fault α) : Blind (askObjects f) :=
  .ask fun _ _ => rfl

theorem blind_onObjects (f : ObjectTable → Action Memory Unit) : Blind (onObjects f) :=
  blind_story.bind fun _ => blind_onMemory _

theorem blind_storeObjects (f : ObjectTable → Memory → Except Fault UInt16) :
    Blind (storeObjects f) :=
  (blind_askObjects f).bind fun x => blind_storeResult x

theorem blind_storeLink (l : Link) (o : UInt16) : Blind (storeLink l o) :=
  (blind_askObjects _).bind fun target => (blind_storeResult target).bind fun _ => blind_branch _

/-- A draw is blind, since the generator is not aside; the entropy for the next one is. -/
theorem blind_drawRandom (range : UInt16) : Blind (drawRandom range) := by
  intro m a
  simp only [drawRandom, withAside]
  cases m.random.draw? range with
  | some r => rfl
  | none => rfl

/-- What is aside gives rise to the same unpredictable numbers. -/
structure SameDraws (Q : Aside → Aside → Prop) : Prop where
  entropy : ∀ a b, Q a b → a.entropy = b.entropy
  reseed : ∀ a b e, Q a b → Q { a with entropy := e } { b with entropy := e }

/-- Only a range of 0 draws on the entropy. -/
theorem agree_storeRandom {range : UInt16} (h : range = 0 → SameDraws Q) :
    Agree (Alike Q) (storeRandom range) (storeRandom range) := by
  unfold storeRandom
  split
  · exact ((blind_drawRandom range).bind fun x => blind_storeResult x).agree
  · split
    · next hrange =>
        refine Agree.bind (.change ?_) fun _ => (blind_storeResult 0).agree
        rintro m _ ⟨a, ha, rfl⟩
        -- Only a range of 0 takes a new key, for which both machines need the same entropy.
        have hentropy : m.entropy = a.entropy := (h hrange).entropy _ _ ha
        refine ⟨{ a with entropy := Random.StreamKey.nextSeed a.entropy }, ?_, ?_⟩
        · show Q { m.aside with entropy := Random.StreamKey.nextSeed m.entropy } _
          rw [hentropy]
          exact (h hrange).reseed _ _ _ ha
        · show _ = withAside { m with
            random := .unpredictable m.entropy
            entropy := Random.StreamKey.nextSeed m.entropy } _
          rw [hentropy]
          rfl
    · exact ((Blind.change fun _ _ => rfl).bind fun _ => blind_storeResult 0).agree

/-- Instructions with two operands agree; only `store` to the stack depends on the rules. -/
theorem agree_executePair {op : TwoOp} {a b : UInt16}
    (h : op = .store → lowByte a = 0 → SameStack Q) :
    Agree (Alike Q) (executePair op a b) (executePair op a b) := by
  cases op
  case store => exact agree_writeIndirect (h rfl) b
  case je => exact (blind_branch _).agree
  -- What is left does not look at the rules at all.
  all_goals refine Blind.agree ?_
  case jl | jg | test => exact blind_branch _
  case decChk | incChk => exact (blind_updateVariable _ _).bind fun _ => blind_branch _
  case jin | testAttr => exact (blind_askObjects _).bind fun _ => blind_branch _
  case or | and | add | sub | mul => exact blind_storeResult _
  case setAttr => exact blind_onObjects fun t => t.setAttribute a b true
  case clearAttr => exact blind_onObjects fun t => t.setAttribute a b false
  case insertObj => exact blind_onObjects fun t => t.insert a b
  case loadw | loadb => exact (blind_askMemory _).bind fun _ => blind_storeResult _
  case getProp | getPropAddr | getNextProp => exact blind_storeObjects _
  case div | mod =>
      unfold executePair
      dsimp only
      split
      · exact .fail _
      · exact blind_storeResult _

/-- Executing an operation of the two-operand class is a branch, the operation on a pair, or
    fails. -/
theorem executeTwo_cases (op : TwoOp) (operands : List UInt16) :
    (∃ condition, executeTwo op operands = branch condition) ∨
    (∃ a b, operands = [a, b] ∧ executeTwo op operands = executePair op a b) ∨
    ∃ e, executeTwo op operands = .fail e := by
  cases op
  case je =>
      match operands with
      | [] => exact .inr (.inr ⟨_, rfl⟩)
      | a :: others =>
          by_cases h : others.length ≤ 3
          · exact .inl ⟨_, if_pos h⟩
          · exact .inr (.inr ⟨_, if_neg h⟩)
  all_goals
      match operands with
      | [a, b] => exact .inr (.inl ⟨a, b, rfl, rfl⟩)
      | [] | [_] | _ :: _ :: _ :: _ => exact .inr (.inr ⟨_, rfl⟩)

/-- The same for any number of operands, of which the first names the variable. -/
theorem agree_executeTwo {op : TwoOp} {operands : List UInt16}
    (h : op = .store → ∀ a ∈ operands.head?, lowByte a = 0 → SameStack Q) :
    Agree (Alike Q) (executeTwo op operands) (executeTwo op operands) := by
  obtain ⟨condition, htwo⟩ | ⟨a, b, rfl, htwo⟩ | ⟨e, htwo⟩ := executeTwo_cases op operands
  · rw [htwo]
    exact (blind_branch condition).agree
  · rw [htwo]
    exact agree_executePair fun hop => h hop a rfl
  · rw [htwo]
    exact .fail e

/-- Fetching an instruction is blind. -/
theorem blind_fetch : Blind fetch := by
  intro m a
  simp only [fetch, withAside]
  cases Instruction.scan m.memory m.pc with
  | mk r a =>
      cases r with
      | ok i => rfl
      | error e => rfl

/-- An operand has the same value unless it is popped under one rule only. -/
theorem agree_resolve {x : Operand} (h : x = .var 0 → SameStack Q) :
    Agree (Alike Q) (resolve x) (resolve x) := by
  cases x with
  | large w => exact .pure w
  | small b => exact .pure _
  | var v =>
      refine agree_readVariable ?_
      rintro rfl
      exact h rfl

theorem agree_resolveAll {xs : List Operand} (h : .var 0 ∈ xs → SameStack Q) :
    Agree (Alike Q) (resolveAll xs) (resolveAll xs) := by
  induction xs with
  | nil => exact .pure []
  | cons x xs ih =>
      refine Agree.bind (agree_resolve ?_) fun v =>
        Agree.bind (ih ?_) fun vs => .pure (v :: vs)
      · rintro rfl
        exact h List.mem_cons_self
      · intro hmem
        exact h (List.mem_cons_of_mem x hmem)

/-- The operation that the next step executes, and the values of its operands. -/
def next? (m : Machine) : Option (Operation × List UInt16) :=
  match fetch m with
  | (.ok i, m₁) =>
      match resolveAll i.operands m₁ with
      | (.ok operands, _) => (Operation.ofNumber? i.opClass i.number).map (·, operands)
      | (.error _, _) => none
  | (.error _, _) => none

/-- The operation that is executed next, from the parts of a step. -/
theorem next?_eq {m m₁ m₂ : Machine} {i : Instruction} {operands : List UInt16} {op : Operation}
    (hfetch : fetch m = (.ok i, m₁)) (hresolve : resolveAll i.operands m₁ = (.ok operands, m₂))
    (hop : Operation.ofNumber? i.opClass i.number = some op) : m.next? = some (op, operands) := by
  simp only [next?, hfetch, hresolve, hop]
  rfl

/-- The parts of a step that executes an operation. -/
theorem of_next? {m : Machine} {op : Operation} {operands : List UInt16}
    (h : m.next? = some (op, operands)) :
    ∃ i m₁ m₂, fetch m = (.ok i, m₁) ∧ resolveAll i.operands m₁ = (.ok operands, m₂) ∧
      Operation.ofNumber? i.opClass i.number = some op := by
  cases hfetch : fetch m with
  | mk r m₁ =>
      cases r with
      | error e =>
          simp only [next?, hfetch] at h
          cases h
      | ok i =>
          cases hresolve : resolveAll i.operands m₁ with
          | mk r m₂ =>
              simp only [next?, hfetch, hresolve] at h
              cases r with
              | error e => cases h
              | ok values =>
                  obtain ⟨op', hop, heq⟩ := Option.map_eq_some_iff.mp h
                  cases heq
                  exact ⟨i, m₁, m₂, rfl, hresolve, hop⟩

/-- The next step executes an operation. -/
def Executes (m : Machine) (op : Operation) : Prop :=
  ∃ operands, m.next? = some (op, operands)

/-- What is aside stays related when both stories quit. -/
def QuitsAlike (Q : Aside → Aside → Prop) : Prop :=
  ∀ a b, Q a b → Q { a with quit := true } { b with quit := true }

/-- Quitting keeps machines alike if what is aside may quit. -/
theorem QuitsAlike.agree (h : QuitsAlike Q) :
    Agree (Alike Q) (.change fun m => { m with quit := true })
      (.change fun m => { m with quit := true }) := by
  refine .change ?_
  rintro m _ ⟨a, ha, rfl⟩
  exact ⟨{ a with quit := true }, h m.aside a ha, rfl⟩

/-- An operation on given operands does not tell apart what is related aside. -/
structure Tolerates (Q : Aside → Aside → Prop) (op : Operation) (operands : List UInt16) :
    Prop where
  quit : op = .zero .quit → QuitsAlike Q
  store : op = .two .store → ∀ a ∈ operands.head?, lowByte a = 0 → SameStack Q
  pull : op = .many .pull → SameStack Q
  random : op = .many .random → operands.head? = some 0 → SameDraws Q

/-- The next step does not tell apart what is related aside. -/
structure Steady (Q : Aside → Aside → Prop) (m : Machine) : Prop where
  operands : ∀ i m', fetch m = (.ok i, m') → .var 0 ∈ i.operands → SameStack Q
  operation : ∀ op operands, m.next? = some (op, operands) → Tolerates Q op operands

/-- No step tells apart what is the same aside as far as operations look at it. -/
theorem steady_of_same (hstack : SameStack Q) (hdraws : SameDraws Q) (hquit : QuitsAlike Q)
    (m : Machine) : m.Steady Q := by
  refine ⟨fun _ _ _ _ => hstack, ?_⟩
  intro op operands _
  exact ⟨fun _ => hquit, fun _ _ _ _ => hstack, fun _ => hstack, fun _ _ => hdraws⟩

end Machine

/-! ## Sessions on devices that agree -/

/-- Devices of two kinds answer alike as long as they are related. -/
structure Device.Agree {δ ε : Type} [Device δ] [Device ε] (D : δ → ε → Prop) : Prop where
  print : ∀ text, Action.Agree D (Device.print text) (Device.print text)
  readLine : Action.Agree D Device.readLine Device.readLine
  showStatus : ∀ location right,
    Action.Agree D (Device.showStatus location right) (Device.showStatus location right)

/-- A device in one state answers as in the same state. -/
theorem Device.agree_eq {δ : Type} [Device δ] : Device.Agree (δ := δ) Eq where
  print text := by
    rintro d _ rfl
    exact ⟨rfl, rfl⟩
  readLine := by
    rintro d _ rfl
    exact ⟨rfl, rfl⟩
  showStatus location right := by
    rintro d _ rfl
    exact ⟨rfl, rfl⟩

namespace Session

open Machine

variable {δ ε α : Type} {Q : Aside → Aside → Prop} {D : δ → ε → Prop}

/-- Sessions whose machines and devices are related. -/
def Alike (Q : Aside → Aside → Prop) (D : δ → ε → Prop) (s : Session δ) (t : Session ε) : Prop :=
  s.machine.Alike Q t.machine ∧ D s.device t.device

/-- What agrees on machines agrees on sessions. -/
theorem agree_onMachine {x : Action Machine α} (hx : Agree (Machine.Alike Q) x x) :
    Agree (Alike Q D) (onMachine x) (onMachine x) := by
  rintro s t ⟨hmachine, hdevice⟩
  obtain ⟨hresult, hmachine'⟩ := hx _ _ hmachine
  exact ⟨hresult, hmachine', hdevice⟩

/-- What agrees on devices agrees on sessions. -/
theorem agree_onDevice {x : Action δ α} {y : Action ε α} (hx : Agree D x y) :
    Agree (Alike Q D) (onDevice x) (onDevice y) := by
  rintro s t ⟨hmachine, hdevice⟩
  obtain ⟨hresult, hdevice'⟩ := hx _ _ hdevice
  exact ⟨hresult, hmachine, hdevice'⟩

variable [Device δ] [Device ε] (hD : Device.Agree D)

include hD

/-- Printing agrees: the streams are the same, and the devices agree on what reaches them. -/
theorem agree_output (text : String) : Agree (Alike Q D) (output text) (output text) := by
  refine (agree_onMachine (Blind.view fun _ _ => rfl).agree).bind fun streams => ?_
  obtain ⟨screen, tables⟩ := streams
  cases tables with
  | cons table tables => exact agree_onMachine (blind_onMemory _).agree
  | nil =>
      cases screen with
      | true => exact agree_onDevice (hD.print text)
      | false => exact .pure ()

/-- Printing a string in memory agrees. -/
theorem agree_outputAt (a : Nat) : Agree (Alike Q D) (outputAt a) (outputAt a) :=
  (agree_onMachine (Blind.ask fun _ _ => rfl).agree).bind fun r => agree_output hD r.1

/-- Printing the string at the pc agrees. -/
theorem agree_outputInline : Agree (Alike Q D) outputInline outputInline :=
  (agree_onMachine blind_inlineText.agree).bind fun text => agree_output hD text

/-- Printing the name of an object agrees. -/
theorem agree_outputName (o : UInt16) : Agree (Alike Q D) (outputName o) (outputName o) := by
  refine (agree_onMachine (Blind.view fun _ _ => rfl).agree).bind fun name => ?_
  cases name with
  | some name => exact agree_output hD name
  | none => exact .fail _

/-- Showing the status line agrees. -/
theorem agree_showStatus : Agree (Alike Q D) showStatus showStatus :=
  (agree_onMachine blind_status.agree).bind fun r => agree_onDevice (hD.showStatus r.1 r.2)

/-- Reading a line agrees, since the devices yield the same line. -/
theorem agree_readLine (text parse : UInt16) :
    Agree (Alike Q D) (readLine text parse) (readLine text parse) :=
  (agree_showStatus hD).bind fun _ => (agree_onDevice hD.readLine).bind fun _ =>
    agree_onMachine (blind_story.bind fun _ => blind_onMemory _).agree

/-- Instructions without operands agree if quitting does. -/
theorem agree_executeZero {op : ZeroOp} (hquit : op = .quit → QuitsAlike Q) :
    Agree (Alike Q D) (executeZero op) (executeZero op) := by
  cases op
  case quit => exact agree_onMachine (hquit rfl).agree
  case print => exact agree_outputInline hD
  case printRet =>
      exact (agree_outputInline hD).bind fun _ => (agree_output hD "\n").bind fun _ =>
        agree_onMachine (blind_returnWith 1).agree
  case nop => exact .pure ()
  case newLine => exact agree_output hD "\n"
  case showStatus => exact agree_showStatus hD
  -- What is left is work on the machine that does not look at the rules.
  all_goals refine agree_onMachine (Blind.agree ?_)
  case rtrue | rfalse => exact blind_returnWith _
  case save | restore => exact blind_branch false
  case restart => exact blind_restart
  case retPopped => exact blind_pop.bind fun x => blind_returnWith x
  case pop => exact blind_pop.bind fun _ => .pure ()
  case verify => exact blind_verify

/-- Instructions with one operand agree. -/
theorem agree_executeOne (op : OneOp) (x : UInt16) :
    Agree (Alike Q D) (executeOne op x) (executeOne op x) := by
  cases op
  case printAddr | printPaddr => exact agree_outputAt hD _
  case printObj => exact agree_outputName hD x
  all_goals refine agree_onMachine (Blind.agree ?_)
  case jz => exact blind_branch _
  case getSibling | getChild => exact blind_storeLink _ x
  case getParent | getPropLen => exact blind_storeObjects _
  case inc | dec => exact (blind_updateVariable _ _).bind fun _ => .pure ()
  case removeObj => exact blind_onObjects fun t => t.remove x
  case ret => exact blind_returnWith x
  case jump => exact blind_jump _
  case load => exact (blind_readIndirect _).bind fun value => blind_storeResult value
  case not => exact blind_storeResult _

/-- Instructions with any number of operands agree, `pull` and `random` under a condition. -/
theorem agree_executeMany {op : VarOp} {operands : List UInt16}
    (hpull : op = .pull → SameStack Q)
    (hrandom : op = .random → operands.head? = some 0 → SameDraws Q) :
    Agree (Alike Q D) (executeMany op operands) (executeMany op operands) := by
  unfold executeMany
  split
  -- The cases are numbered in the order of the definition; the last line is for those with a
  -- wrong number of operands.
  case h_1 => exact agree_onMachine (blind_call _ _).agree
  case h_3 | h_5 => exact agree_onMachine (blind_onMemory _).agree
  case h_7 => exact agree_onMachine (blind_onObjects _).agree
  case h_9 => exact agree_readLine hD _ _
  case h_11 | h_13 => exact agree_output hD _
  case h_15 range rest =>
      refine agree_onMachine (agree_storeRandom ?_)
      rintro rfl
      exact hrandom rfl rfl
  case h_17 => exact agree_onMachine (blind_push _).agree
  case h_19 => exact agree_onMachine (agree_pull (hpull rfl) _)
  case h_23 => exact agree_onMachine (blind_selectStream _).agree
  case h_21 | h_22 | h_24 | h_25 => exact .pure ()
  all_goals exact .fail _

/-- An instruction agrees if what is aside tolerates its operation. -/
theorem agree_execute {i : Instruction} {operands : List UInt16}
    (h : ∀ op, Operation.ofNumber? i.opClass i.number = some op → Tolerates Q op operands) :
    Agree (Alike Q D) (execute i operands) (execute i operands) := by
  unfold execute
  split
  · exact .fail _
  · next op hop =>
      refine agree_executeZero hD ?_
      rintro rfl
      exact (h _ hop).quit rfl
  · split
    · exact agree_executeOne hD _ _
    · exact .fail _
  · next op hop =>
      refine agree_onMachine (agree_executeTwo ?_)
      rintro rfl
      exact (h _ hop).store rfl
  · next op hop =>
      refine agree_executeMany hD ?_ ?_
      · rintro rfl
        exact (h _ hop).pull rfl
      · rintro rfl
        exact (h _ hop).random rfl

/-- Steps of related sessions agree if they do not tell apart what the machines differ in. -/
theorem agreeAt_step
    (hcount : ∀ a b, Q a b → Q { a with count := a.count + 1 } { b with count := b.count + 1 })
    {s : Session δ} {t : Session ε} (hst : Alike Q D s t) (hs : s.machine.Steady Q) :
    AgreeAt (Alike Q D) step step s t := by
  rw [step_parts, step_parts]
  refine (agree_onMachine blind_fetch.agree s t hst).bind ?_
  intro i s₁ t₁ hfetch hst₁
  have hfetch := (onMachine_eq_iff.mp hfetch).1
  refine (agree_onMachine (agree_resolveAll (hs.operands i _ hfetch)) s₁ t₁ hst₁).bind ?_
  intro operands s₂ t₂ hresolve hst₂
  have hresolve := (onMachine_eq_iff.mp hresolve).1
  refine (agree_execute hD ?_ s₂ t₂ hst₂).bind ?_
  · intro op hnumber
    exact hs.operation op operands (next?_eq hfetch hresolve hnumber)
  · intro _ s₃ t₃ _ hst₃
    refine agree_onMachine (Agree.change ?_) s₃ t₃ hst₃
    rintro m _ ⟨a, ha, rfl⟩
    exact ⟨{ a with count := a.count + 1 }, hcount _ _ ha, rfl⟩

omit hD [Device ε] in
/-- A step that executes an operation does so after the pc has been moved past the operands and
    they have been read from the running frame. -/
theorem step_eq_execute {s : Session δ} {op : Operation} {operands : List UInt16}
    (h : s.machine.next? = some (op, operands)) :
    ∃ i f, fetch s.machine = (.ok i, { s.machine with pc := s.machine.pc + i.size }) ∧
      Operation.ofNumber? i.opClass i.number = some op ∧
      step s = (execute i operands >>= fun _ => tally)
        ⟨{ s.machine with
            pc := s.machine.pc + i.size
            calls := s.machine.calls.withTop f }, s.device⟩ := by
  obtain ⟨i, m₁, m₂, hfetch, hresolve, hop⟩ := of_next? h
  have hstep : step s = (execute i operands >>= fun _ => tally) ⟨m₂, s.device⟩ := by
    have hfetch' : onMachine fetch s = (.ok i, ⟨m₁, s.device⟩) :=
      onMachine_eq_iff.mpr ⟨hfetch, rfl⟩
    have hresolve' : onMachine (resolveAll i.operands) (⟨m₁, s.device⟩ : Session δ) =
        (.ok operands, ⟨m₂, s.device⟩) := onMachine_eq_iff.mpr ⟨hresolve, rfl⟩
    rw [step_parts, Action.bind_of_ok hfetch', Action.bind_of_ok hresolve']
  obtain ⟨-, rfl⟩ := fetch_eq_ok hfetch
  obtain ⟨f, rfl⟩ := resolveAll_withTop hresolve
  exact ⟨i, f, hfetch, hop, hstep⟩

omit hD [Device ε] in
/-- A step that executes no operation has failed, because there is no instruction, because an
    operand cannot be read, or because the instruction is illegal. The pc is past the operands
    in the latter cases. -/
theorem step_cases (s : Session δ) :
    (∃ e, fetch s.machine = (.error e, s.machine) ∧ step s = (.error e, s)) ∨
    (∃ i m e f, fetch s.machine = (.ok i, m) ∧ (resolveAll i.operands m).1 = .error e ∧
      step s = (.error e, ⟨{ m with calls := m.calls.withTop f }, s.device⟩)) ∨
    (∃ i m operands f, fetch s.machine = (.ok i, m) ∧
      (resolveAll i.operands m).1 = .ok operands ∧
      Operation.ofNumber? i.opClass i.number = none ∧
      step s = (.error (.illegalOpcode i.opClass i.number i.address),
        ⟨{ m with calls := m.calls.withTop f }, s.device⟩)) ∨
    ∃ op operands, s.machine.next? = some (op, operands) := by
  rw [step_parts]
  cases hfetch : fetch s.machine with
  | mk r m =>
      have hfetch' : onMachine fetch s = (r, ⟨m, s.device⟩) := onMachine_eq_iff.mpr ⟨hfetch, rfl⟩
      cases r with
      | error e =>
          obtain rfl := fetch_eq_error hfetch
          exact .inl ⟨e, rfl, Action.bind_of_error hfetch'⟩
      | ok i =>
          obtain ⟨f, hf⟩ := resolveAll_snd i.operands m
          cases hresolve : resolveAll i.operands m with
          | mk r m₂ =>
              rw [hresolve] at hf
              obtain rfl : m₂ = { m with calls := m.calls.withTop f } := hf
              have hresolve' := (onMachine_eq_iff (s := (⟨m, s.device⟩ : Session δ))
                (t := ⟨_, s.device⟩)).mpr ⟨hresolve, rfl⟩
              cases r with
              | error e =>
                  refine .inr (.inl ⟨i, m, e, f, rfl, by rw [hresolve], ?_⟩)
                  exact (Action.bind_of_ok hfetch').trans (Action.bind_of_error hresolve')
              | ok operands =>
                  cases hop : Operation.ofNumber? i.opClass i.number with
                  -- From here on the operation is executed.
                  | some op => exact .inr (.inr (.inr ⟨op, operands, next?_eq hfetch hresolve hop⟩))
                  | none =>
                      refine .inr (.inr (.inl ⟨i, m, operands, f, rfl, by rw [hresolve], hop, ?_⟩))
                      refine (Action.bind_of_ok hfetch').trans ?_
                      refine (Action.bind_of_ok hresolve').trans ?_
                      simp only [execute, hop]
                      rfl

omit hD in
/-- The session after some steps, whether they succeed or fail. -/
def after : Nat → Session δ → Session δ
  | 0, s => s
  | n + 1, s => after n (step s).2

omit hD in
/-- The last of some steps is a step like the others. -/
theorem after_succ (n : Nat) (s : Session δ) : after (n + 1) s = (step (after n s)).2 := by
  induction n generalizing s with
  | zero => rfl
  | succ n ih => exact ih (step s).2

/-- Related sessions stay related along steady steps. -/
theorem alike_after
    (hcount : ∀ a b, Q a b → Q { a with count := a.count + 1 } { b with count := b.count + 1 })
    {s : Session δ} {t : Session ε} (hst : Alike Q D s t) {n : Nat}
    (hs : ∀ k < n, (after k s).machine.Steady Q) : Alike Q D (after n s) (after n t) := by
  induction n generalizing s t with
  | zero => exact hst
  | succ n ih =>
      refine ih (agreeAt_step hD hcount hst (hs 0 (Nat.succ_pos n))).2 ?_
      intro k hk
      exact hs (k + 1) (Nat.succ_lt_succ hk)

end Session

end ZMachine
