import ZMachine.Device.Scripted
import ZMachine.Proofs.Decoding
import ZMachine.Proofs.Work

/-! # What a step does

    A step has two halves. In the first it decodes the instruction at the pc,
    reads the operands and does the work, all within the running routine. In
    the second it hands over control, which is the only time at which frames
    come and go.

    * `step_eq_ok`, `prepare_eq_ok`: the parts of a step that succeeds;
    * `step_advance`: what any step can do, whether it succeeds or fails. -/

namespace ZMachine

open Conduct

/-! ## Up to the transfer of control -/

namespace Machine

/-- Fetching an instruction stays within memory. -/
theorem obeys_fetch : conduct.Obeys fetch := by
  intro m
  simp only [fetch]
  split
  · next i a hscan =>
      obtain ⟨-, -, ha, -⟩ := Instruction.scan_eq_ok hscan
      exact ⟨m.within_pc ha, fun e h => nomatch h⟩
  · next e a hscan =>
      exact ⟨.refl m, FailsOnly.error (.inl (Instruction.obeys_scan.mayFail hscan m.memory.size))⟩

/-- Fetching only moves the pc. -/
theorem fetch_eq_ok {m m' : Machine} {i : Instruction} (h : fetch m = (.ok i, m')) :
    Instruction.scan m.memory m.pc = (.ok i, m.pc + i.size) ∧
      m' = { m with pc := m.pc + i.size } := by
  simp only [fetch] at h
  split at h
  · next i' a hscan =>
      cases h
      obtain ⟨-, ha, -⟩ := Instruction.scan_eq_ok hscan
      rw [← ha]
      exact ⟨hscan, rfl⟩
  · cases h

/-- An instruction that cannot be fetched changes nothing. -/
theorem fetch_eq_error {m m' : Machine} {e : Fault} (h : fetch m = (.error e, m')) : m' = m := by
  simp only [fetch] at h
  split at h
  · cases h
  · cases h
    rfl

/-- Resolving an operand does not move the pc. -/
theorem moves_resolve (x : Operand) : conduct.Moves 0 (resolve x) := by
  cases x with
  | large w => exact .pure w
  | small b => exact .pure _
  | var v => exact moves_readVariable v

theorem moves_resolveAll (xs : List Operand) : conduct.Moves 0 (resolveAll xs) := by
  induction xs with
  | nil => exact .pure []
  | cons x xs ih => exact (moves_resolve x).after fun v => ih.after fun vs => .pure (v :: vs)

/-- Reading a variable changes at most the running frame. -/
theorem readVariable_withTop (v : UInt8) (m : Machine) :
    ∃ f, (readVariable v m).2 = { m with calls := m.calls.withTop f } := by
  by_cases hzero : v = 0
  · rw [readVariable, if_pos hzero, Action.bind_of_ok (Action.view_apply _ _)]
    cases m.rules.stack with
    | legacy => exact ⟨m.calls.top, rfl⟩
    | standard =>
        simp only [pop]
        split
        · next x f _ => exact ⟨f, rfl⟩
        · exact ⟨m.calls.top, rfl⟩
  · rw [readVariable, if_neg hzero]
    split
    · exact ⟨m.calls.top, rfl⟩
    · next hlocal =>
        rw [readGlobal_eq (by omega)]
        exact ⟨m.calls.top, rfl⟩

/-- Reading operands changes at most the running frame, even if it fails. -/
theorem resolveAll_snd (xs : List Operand) (m : Machine) :
    ∃ f, (resolveAll xs m).2 = { m with calls := m.calls.withTop f } := by
  induction xs generalizing m with
  | nil => exact ⟨m.calls.top, rfl⟩
  | cons x xs ih =>
      have hx : ∃ f, (resolve x m).2 = { m with calls := m.calls.withTop f } := by
        cases x with
        | large w => exact ⟨m.calls.top, rfl⟩
        | small b => exact ⟨m.calls.top, rfl⟩
        | var v => exact readVariable_withTop v m
      obtain ⟨f, hf⟩ := hx
      rw [resolveAll, Action.bind_apply]
      cases hm : resolve x m with
      | mk r m₁ =>
          rw [hm] at hf
          cases r with
          | error e => exact ⟨f, hf⟩
          | ok v =>
              obtain rfl : m₁ = _ := hf
              obtain ⟨g, hg⟩ := ih { m with calls := m.calls.withTop f }
              refine ⟨g, ?_⟩
              dsimp only
              rw [Action.bind_apply]
              cases hvs : resolveAll xs { m with calls := m.calls.withTop f } with
              | mk r' m₂ =>
                  rw [hvs] at hg
                  cases r' with
                  | error e => exact hg
                  | ok vs => exact hg

/-- Resolving operands changes the running frame only. -/
theorem resolveAll_withTop {xs : List Operand} {m m' : Machine} {vs : List UInt16}
    (h : resolveAll xs m = (.ok vs, m')) : ∃ f, m' = { m with calls := m.calls.withTop f } := by
  obtain ⟨f, hf⟩ := resolveAll_snd xs m
  rw [h] at hf
  exact ⟨f, hf⟩

/-- Every operand has one value. -/
theorem length_of_resolveAll {xs : List Operand} {m m' : Machine} {vs : List UInt16}
    (h : resolveAll xs m = (.ok vs, m')) : vs.length = xs.length := by
  induction xs generalizing m m' vs with
  | nil =>
      cases h
      rfl
  | cons x xs ih =>
      obtain ⟨v, m₁, -, h⟩ := Action.bind_eq_ok.mp h
      obtain ⟨vs', m₂, hvs, h⟩ := Action.bind_eq_ok.mp h
      cases h
      rw [List.length_cons, List.length_cons, ih hvs]

/-- An instruction of the one-operand class was decoded with one operand, which has a value. -/
theorem ne_nil_of_resolveAll {m m₁ m₂ m₃ : Machine} {i : Instruction} {operands : List UInt16}
    (hfetch : fetch m = (.ok i, m₁)) (hresolve : resolveAll i.operands m₂ = (.ok operands, m₃))
    (hone : i.opClass = .one) : operands ≠ [] := by
  intro hnil
  obtain ⟨hscan, -⟩ := fetch_eq_ok hfetch
  obtain ⟨-, -, -, hlength⟩ := Instruction.scan_eq_ok hscan
  have hoperands := length_of_resolveAll hresolve
  rw [hlength hone, hnil] at hoperands
  exact nomatch hoperands

end Machine

namespace Session

variable {δ : Type} [Device δ]

/-- The first half of a step: all of it up to the transfer of control. -/
def prepare : Action (Session δ) Transfer := do
  let i ← onMachine Machine.fetch
  let operands ← onMachine (Machine.resolveAll i.operands)
  work i operands

/-- An instruction that stands for no operation. -/
def IllegalFault (e : Fault) : Prop := ∃ c n a, e = .illegalOpcode c n a

/-- The first half of a step stays within the running routine, and fails as work does or because
    the instruction is illegal. -/
theorem Hosts.obeys_prepare {C : Conduct (Session δ)} (hC : Hosts C) :
    (C.allowing IllegalFault).Obeys (prepare : Action (Session δ) Transfer) := by
  refine ((hC.obeys Machine.obeys_fetch).allowing _).bind_of_ok ?_
  intro i s s₁ hi
  refine ((hC.obeys (Machine.moves_resolveAll _).obeys).allowing _).bind_of_ok ?_
  intro operands s₂ s₃ hoperands
  cases hop : Operation.ofNumber? i.opClass i.number with
  | none =>
      simp only [work, hop]
      exact .fail fun _ => .inr ⟨_, _, _, rfl⟩
  | some op =>
      refine (obeys_work hC hop ?_).allowing _
      exact Machine.ne_nil_of_resolveAll (onMachine_eq_iff.mp hi).1
        (onMachine_eq_iff.mp hoperands).1

/-- A step up to its transfer of control fails with faults of work, or is illegal. -/
theorem obeys_prepare :
    ((conduct δ).allowing IllegalFault).Obeys (prepare : Action (Session δ) Transfer) :=
  (hosts_conduct δ).obeys_prepare

/-- Counts an executed instruction. -/
def tally : Action (Session δ) Unit :=
  onMachine (.change fun m => { m with count := m.count + 1 })

/-- A step fetches an instruction, reads its operands, executes it and counts it. -/
theorem step_parts : (step : Action (Session δ) Unit) =
    onMachine Machine.fetch >>= fun i =>
      onMachine (Machine.resolveAll i.operands) >>= fun operands =>
        execute i operands >>= fun _ => tally := by
  simp only [step, executeNext, bind_assoc]
  rfl

/-- A step is its first half, a transfer of control, and the count of instructions. -/
theorem step_eq :
    (step : Action (Session δ) Unit) = prepare >>= fun τ => handOver τ >>= fun _ => tally := by
  simp only [step_parts, prepare, execute_eq_work, bind_assoc]

/-- The parts of a first half that succeeds. -/
theorem prepare_eq_ok {s w : Session δ} {τ : Transfer} (h : prepare s = (.ok τ, w)) :
    ∃ i operands m,
      Instruction.scan s.machine.memory s.machine.pc = (.ok i, s.machine.pc + i.size) ∧
      Machine.resolveAll i.operands { s.machine with pc := s.machine.pc + i.size } =
        (.ok operands, m) ∧
      work i operands ⟨m, s.device⟩ = (.ok τ, w) := by
  obtain ⟨i, s₁, hi, h⟩ := Action.bind_eq_ok.mp h
  obtain ⟨operands, s₂, hoperands, h⟩ := Action.bind_eq_ok.mp h
  obtain ⟨hfetch, hd₁⟩ := onMachine_eq_iff.mp hi
  obtain ⟨hscan, hs₁⟩ := Machine.fetch_eq_ok hfetch
  obtain ⟨hresolve, hd₂⟩ := onMachine_eq_iff.mp hoperands
  rw [hs₁] at hresolve
  refine ⟨i, operands, s₂.machine, hscan, hresolve, ?_⟩
  rw [← hd₁, ← hd₂]
  exact h

/-- The parts of a step that succeeds. -/
theorem step_eq_ok {s t : Session δ} (h : step s = (.ok (), t)) :
    ∃ τ w m, prepare s = (.ok τ, w) ∧ Machine.handOver τ w.machine = (.ok (), m) ∧
      t.machine = { m with count := m.count + 1 } := by
  rw [step_eq] at h
  obtain ⟨τ, w, hw, h⟩ := Action.bind_eq_ok.mp h
  obtain ⟨_, u, hu, h⟩ := Action.bind_eq_ok.mp h
  obtain ⟨hm, -⟩ := onMachine_eq_iff.mp hu
  obtain ⟨ht, -⟩ := onMachine_eq_iff.mp h
  refine ⟨τ, w, u.machine, hw, hm, ?_⟩
  exact (Prod.mk.inj ht).2.symm

end Session

/-! ## The transfer of control -/

/-- Arguments do not change the number of locals. -/
theorem Frame.length_withArguments (f : Frame) (arguments : List UInt16) :
    (f.withArguments arguments).locals.length = f.locals.length := by
  simp only [withArguments, List.length_append, List.length_take, List.length_drop]
  omega

namespace Machine

/-- How control can turn, before a result is stored. -/
inductive Turn (m : Machine) : Machine → Prop where
  | stay : Turn m m
  | jump {a : Nat} (ha : a < m.memory.size) : Turn m { m with pc := a }
  | leave {f : Frame} {calls : CallStack} (hpop : m.calls.pop = .ok (f, calls)) :
      Turn m { m with calls, pc := f.returnAddress }
  | enter {f : Frame} {a : Nat} (even : f.address % 2 = 0) (nonzero : f.address ≠ 0)
      (locals : f.locals.length ≤ Frame.maxLocals) (back : f.returnAddress = m.pc)
      (ha : a ≤ m.memory.size) : Turn m { m with calls := m.calls.push f, pc := a }
  | restart {memory : Memory} (size : memory.size = m.memory.size) :
      Turn m { m with
        memory
        pc := m.story.header.initialPc.toNat
        calls := { top := Frame.main m.story.header.initialPc.toNat }
        streams := {} }

/-- A return takes off the frame, and stores the result for the caller. -/
theorem returnWith_eq (x : UInt16) (m : Machine) :
    returnWith x m = match m.calls.pop with
      | .ok (f, calls) => storeResult x { m with calls, pc := f.returnAddress }
      | .error e => (.error e, m) := by
  match h : m.calls.pop with
  | .ok (f, calls) =>
      refine Action.bind_of_ok (a := ()) ?_
      simp only [h]
  | .error e =>
      refine Action.bind_of_error ?_
      simp only [h]

/-- Restoring an image keeps the size of memory. -/
theorem size_restorePrefix {image : Array UInt8} {m m' : Memory} {r : Except Fault Unit}
    (h : Memory.restorePrefix image m = (r, m')) : m'.size = m.size := by
  unfold Memory.restorePrefix at h
  split at h
  · next hle =>
      cases h
      simp only [Memory.size] at hle ⊢
      simp only [Array.size_append, Array.size_extract]
      omega
  · cases h
    rfl

/-- What a restart does: it needs an image with a header and room for its dynamic part. -/
theorem restart_eq (m : Machine) :
    restart m =
      if m.story.image.size < Header.length then (.error (.defect .headerBounds), m)
      else match
          Memory.restorePrefix (m.story.image.bytes.extract 0 (dynamicSize m.story)) m.memory with
        | (.ok (), memory) => (.ok (),
            { m with
              memory
              pc := m.story.header.initialPc.toNat
              calls := { top := Frame.main m.story.header.initialPc.toNat }
              streams := {} })
        | (.error e, memory) => (.error e, { m with memory }) := by
  rw [restart, Action.bind_of_ok (Action.view_apply _ _)]
  by_cases hsize : m.story.image.size < Header.length
  · rw [if_pos hsize, Checked.clamp, if_neg (Nat.not_le.mpr hsize)]
    rfl
  · -- the bounds are in order, and what is between them ends within the image
    have hclamp : Action.ofExcept (Checked.clamp .headerBounds m.story.header.staticMemory.toNat
        Header.length m.story.image.size) m = (.ok (dynamicSize m.story), m) :=
      congrArg (Action.ofExcept · m) (Checked.clamp_of_le (Nat.not_lt.mp hsize))
    have hslice : Action.ofExcept (Checked.require .imageSlice
        (dynamicSize m.story ≤ m.story.image.size)) m = (.ok (), m) :=
      congrArg (Action.ofExcept · m) (Checked.require_of (Nat.min_le_right _ _))
    rw [if_neg hsize, Action.bind_of_ok hclamp, Action.bind_of_ok hslice, Action.bind_apply,
      onMemory_apply]
    -- The image can only fail to be restored if it is larger than memory.
    match Memory.restorePrefix (m.story.image.bytes.extract 0 (dynamicSize m.story)) m.memory with
    | (.ok (), memory) => rfl
    | (.error e, memory) => rfl

/-- A call either stores 0 at once or enters a routine. -/
theorem call_turn (packed : UInt16) (arguments : List UInt16) (m : Machine) :
    ∃ m', m.Turn m' ∧ m'.Within (call packed arguments m).2 := by
  by_cases hpacked : packed = 0
  · subst hpacked
    exact ⟨m, .stay, (moves_storeResult 0).obeys.keeps rfl⟩
  · rw [call_eq hpacked]
    match hscan : Frame.scan m.pc m.memory (unpack packed) with
    | (.error e, a) => exact ⟨m, .stay, .refl m⟩
    | (.ok f, a) =>
        obtain ⟨haddress, hback, heven, hlocals, ha, -⟩ := Frame.scan_eq_ok hscan
        refine ⟨_, .enter (f := f.withArguments arguments) ?_ ?_ ?_ hback ha, .refl _⟩
        · exact (congrArg (· % 2) haddress).trans heven
        · intro hzero
          have : 2 * packed.toNat = 0 := haddress.symm.trans hzero
          exact hpacked (UInt16.toNat.inj (show packed.toNat = 0 by omega))
        · rw [Frame.length_withArguments]
          exact hlocals

/-- Handing over control is a turn, after which at most a result is stored. -/
theorem handOver_turn (τ : Transfer) (m : Machine) :
    ∃ m', m.Turn m' ∧ m'.Within (handOver τ m).2 := by
  cases τ with
  | proceed => exact ⟨m, .stay, .refl m⟩
  | jump offset =>
      simp only [handOver, jump]
      split
      · next h =>
          refine ⟨_, .jump (a := ((m.pc : Int) + offset - 2).toNat) ?_, .refl _⟩
          omega
      · exact ⟨m, .stay, .refl m⟩
  | leave x =>
      simp only [handOver]
      rw [returnWith_eq]
      match hpop : m.calls.pop with
      | .ok (f, calls) => exact ⟨_, .leave hpop, (moves_storeResult x).obeys.keeps rfl⟩
      | .error e => exact ⟨m, .stay, .refl m⟩
  | enter packed arguments => exact call_turn packed arguments m
  | restart =>
      simp only [handOver]
      rw [restart_eq]
      split
      · exact ⟨m, .stay, .refl m⟩
      · split
        · next memory hmemory => exact ⟨_, .restart (size_restorePrefix hmemory), .refl _⟩
        · -- a restoration that fails keeps the size of memory
          next e memory hmemory =>
            exact ⟨m, .stay, m.within_memory (size_restorePrefix hmemory)⟩

/-- What a step can do to a machine, apart from counting: work within the running routine, a
    turn of control, and the storing of a result in the routine that runs then. -/
def Advance (m m' : Machine) : Prop := ∃ m₁ m₂, m.Within m₁ ∧ m₁.Turn m₂ ∧ m₂.Within m'

/-- A transfer of control changes neither the rules nor the count. -/
theorem Turn.aside_eq {m m' : Machine} (h : m.Turn m') :
    m'.rules = m.rules ∧ m'.count = m.count := by
  cases h <;> exact ⟨rfl, rfl⟩

/-- Nor does an instruction as a whole: it is counted afterwards. -/
theorem Advance.aside_eq {m m' : Machine} (h : m.Advance m') :
    m'.rules = m.rules ∧ m'.count = m.count := by
  obtain ⟨m₁, m₂, h₁, hturn, h₂⟩ := h
  obtain ⟨hrules, hcount⟩ := hturn.aside_eq
  exact ⟨h₂.rules.trans (hrules.trans h₁.rules), h₂.count.trans (hcount.trans h₁.count)⟩

end Machine

namespace Session

variable {δ : Type} [Device δ]

/-- What any step does. Only one that succeeds is counted. -/
theorem step_counts (s : Session δ) : ∃ m, s.machine.Advance m ∧
    ((step s).1 = .ok () ∧ (step s).2.machine = { m with count := m.count + 1 } ∨
      ∃ e, (step s).1 = .error e ∧ (step s).2.machine = m) := by
  rw [step_eq, Action.bind_apply]
  match hw : prepare s with
  | (.error e, w) =>
      exact ⟨w.machine, ⟨_, _, obeys_prepare.keeps hw, .stay, .refl _⟩, .inr ⟨e, rfl, rfl⟩⟩
  | (.ok τ, w) =>
      -- A step is work, a transfer of control and, after a return, one more store.
      have hwithin : s.machine.Within w.machine := obeys_prepare.keeps hw
      obtain ⟨m, hturn, hm⟩ := Machine.handOver_turn τ w.machine
      dsimp only
      rw [Action.bind_apply]
      match hu : handOver τ w with
      | (.error e, u) =>
          rw [(onMachine_eq_iff.mp hu).1] at hm
          exact ⟨u.machine, ⟨_, m, hwithin, hturn, hm⟩, .inr ⟨e, rfl, rfl⟩⟩
      | (.ok (), u) =>
          rw [(onMachine_eq_iff.mp hu).1] at hm
          exact ⟨u.machine, ⟨_, m, hwithin, hturn, hm⟩, .inl ⟨rfl, rfl⟩⟩

/-- What any step does, whether it succeeds or fails. -/
theorem step_advance (s : Session δ) : ∃ m, s.machine.Advance m ∧
    ((step s).2.machine = m ∨ (step s).2.machine = { m with count := m.count + 1 }) := by
  obtain ⟨m, hm, ⟨-, hcounted⟩ | ⟨e, -, hfailed⟩⟩ := step_counts s
  · exact ⟨m, hm, .inr hcounted⟩
  · exact ⟨m, hm, .inl hfailed⟩

/-- A step that succeeds is counted. -/
theorem count_of_ok {s t : Session δ} (h : step s = (.ok (), t)) :
    t.machine.count = s.machine.count + 1 := by
  obtain ⟨m, hm, ⟨-, ht⟩ | ⟨e, he, -⟩⟩ := step_counts s
  · rw [h] at ht
    rw [ht, hm.aside_eq.2]
  · rw [h] at he
    cases he

/-- A step that fails is not. -/
theorem count_of_error {s t : Session δ} {e : Fault} (h : step s = (.error e, t)) :
    t.machine.count = s.machine.count := by
  obtain ⟨m, hm, ⟨hok, -⟩ | ⟨e', -, ht⟩⟩ := step_counts s
  · rw [h] at hok
    cases hok
  · rw [h] at ht
    rw [ht, hm.aside_eq.2]

end Session

/-! ## Loading -/

/-- A story is loaded if each of its parts can be read from its image. -/
theorem Story.load_of_parts {s : Story} (hheader : Header.ofImage s.image = .ok s.header)
    (hobjects : ObjectTable.ofMemory s.image s.header = .ok s.objects)
    (hnames : s.objects.names s.image s.header.abbreviations.toNat = .ok s.names)
    (hdictionary : Dictionary.ofMemory s.image s.header = .ok s.dictionary) :
    load s.image = .ok s := by
  refine FailsOnly.bind_eq_ok.mpr ⟨_, hheader, ?_⟩
  refine FailsOnly.bind_eq_ok.mpr ⟨_, hobjects, ?_⟩
  refine FailsOnly.bind_eq_ok.mpr ⟨_, hnames, ?_⟩
  exact FailsOnly.bind_eq_ok.mpr ⟨_, hdictionary, rfl⟩

/-- A machine is loaded if its story is. -/
theorem Machine.load_of_story {image : Memory} {s : Story} (h : Story.load image = .ok s)
    (rules : Rules) (entropy : UInt64) : load image rules entropy = .ok (start s rules entropy) :=
  FailsOnly.bind_eq_ok.mpr ⟨s, h, rfl⟩

/-- A machine that was loaded is at the start of the story that its image holds. -/
theorem Machine.exists_story_of_load {image : Memory} {rules : Rules} {entropy : UInt64}
    {m : Machine} (h : load image rules entropy = .ok m) :
    ∃ story, Story.load image = .ok story ∧ m = start story rules entropy := by
  obtain ⟨story, hstory, h⟩ := FailsOnly.bind_eq_ok.mp h
  exact ⟨story, hstory, (Except.ok.inj h).symm⟩

/-! ## A small story

    The statements about runs are of use only if there are runs that they speak
    of. This story calls a routine with one local, which calls another one that
    returns by a branch, and returns its result. -/

/-- The header, then the main routine at 64, an empty dictionary at 70, and routines at 74
    and 84. -/
def nestedCalls : Memory :=
  ⟨#[3, 0, 0, 0, 0, 0, 0, 64, 0, 70, 16, 0, 16, 0, 0, 64, 0, 0, 56, 55, 48, 49, 48, 49,
     0, 0, 0, 0, 0, 0, 0, 0, 0, 0, 0, 0, 0, 0, 0, 0, 0, 0, 0, 0, 0, 0, 0, 0, 0, 0, 0, 0, 0, 0, 0, 0,
     0, 0, 0, 0, 0, 0, 0, 0,
     0xE0, 0x3F, 0, 37, 0, 0xBA,
     0, 0, 0, 0,
     1, 0, 5, 0xE0, 0x3F, 0, 42, 1, 0xAB, 1,
     0, 0x90, 0, 0xC1]⟩

/-- What is read from the story when it is loaded. -/
def nestedStory : Story where
  image := nestedCalls
  header :=
    { version := 3, flags := 0, release := 0, highMemory := 0, initialPc := 64, dictionary := 70
      objects := 4096, globals := 4096, staticMemory := 64, serial := "870101"
      abbreviations := 0, fileLength := 0, checksum := 0 }
  objects := { defaults := 4096, count := 0 }
  names := []
  dictionary :=
    { address := 70, separators := [], entryLength := 0, entryCount := 0, entries := 74 }

/-- The story at its start, on a device without input. -/
def nestedSession : Session Scripted := ⟨Machine.start nestedStory {} 0, {}⟩

/-- The small story loads. -/
theorem load_nestedCalls : Machine.load nestedCalls {} 0 = .ok nestedSession.machine :=
  Machine.load_of_story (Story.load_of_parts (s := nestedStory) rfl rfl rfl rfl) {} 0

theorem Session.step_of_isOk {δ : Type} [Device δ] {s : Session δ}
    (h : (step s).1.isOk = true) : step s = (.ok (), (step s).2) := by
  match hs : step s with
  | (.ok (), t) => rfl
  | (.error e, t) =>
      rw [hs] at h
      cases h

end ZMachine
