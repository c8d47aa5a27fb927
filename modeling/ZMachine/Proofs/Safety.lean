import ZMachine.Device.Channel
import ZMachine.Device.Console
import ZMachine.Device.Terminal
import ZMachine.Proofs.AddressSpace
import ZMachine.Proofs.Forest

/-! # Defects of stories

    A defect stands for a place at which execution would be undefined. Nearly
    all of them are out of reach because of something that is established
    elsewhere: that the decoder gives an instruction of the one-operand class
    its operand, that an image with a header has at least 64 bytes, that a text
    buffer cuts its line. This file puts the parts together, for loading and for
    every machine that is reached by interpreting instructions, on all devices.

    Three defects remain.

    * In images that reach the last eight bytes of the 32-bit address space, a
      list of properties that goes on up to there leads a search out of it.
    * The instruction after the one with the greatest number of 64 bits cannot
      be counted.
    * A random draw has no number if a whole period of its keystream is refused,
      which nothing but the keystream could exclude.

    `Machine.interpret_defects` says so, and has the exact size from which the
    first of them can occur. -/

namespace ZMachine

open Conduct

/-! ## Devices -/

/-- What an action may do that raises no defects. -/
def Conduct.harmless (σ : Type) : Conduct σ where
  keeps _ _ := True
  mayFail _ e := ∀ c, e ≠ .defect c
  position _ := 0
  refl _ := trivial
  trans _ _ := trivial
  mayFail_of_keeps _ he := he

/-- The operations of a device raise no defects. -/
structure Device.Harmless (δ : Type) [Device δ] : Prop where
  print : ∀ text, (harmless δ).Obeys (Device.print text : Action δ Unit)
  readLine : (harmless δ).Obeys (Device.readLine : Action δ String)
  showStatus : ∀ location right,
    (harmless δ).Obeys (Device.showStatus location right : Action δ Unit)

/-- Actions that never fail are harmless. -/
theorem harmless_of_ok {σ α : Type} {x : Action σ α} (h : ∀ s, ∃ a, (x s).1 = .ok a) :
    (harmless σ).Obeys x := by
  intro s
  refine ⟨trivial, ?_⟩
  intro e he
  obtain ⟨a, ha⟩ := h s
  cases ha.symm.trans he

theorem Scripted.harmless : Device.Harmless Scripted where
  print _ := harmless_of_ok fun _ => ⟨(), rfl⟩
  readLine := by
    refine harmless_of_ok fun d => ?_
    match hd : d.input with
    | [] => exact ⟨"", by simp only [Device.readLine, hd]⟩
    | line :: rest => exact ⟨line, by simp only [Device.readLine, hd]⟩
  showStatus _ _ := harmless_of_ok fun _ => ⟨(), rfl⟩

/-- A console is harmless. -/
theorem Console.harmless : Device.Harmless Console where
  print _ := harmless_of_ok fun _ => ⟨(), rfl⟩
  readLine := by
    intro c
    refine ⟨trivial, ?_⟩
    intro e he
    simp only [Device.readLine, Console.readLine] at he
    split at he
    · split at he
      · cases he
      · split at he
        · cases he
          exact nofun
        · cases he
    · cases he
      exact nofun
  showStatus _ _ := .pure ()

namespace ByteSource

theorem harmless_read (limit : Nat) : (harmless ByteSource).Obeys (read limit) := by
  intro s
  refine ⟨trivial, ?_⟩
  intro e he
  simp only [read] at he
  split at he
  · split at he
    · cases he
      exact nofun
    · cases he
  · split at he
    · cases he
    · cases he

theorem harmless_readFor (fuel n : Nat) : (harmless ByteSource).Obeys (readFor fuel n) := by
  induction fuel generalizing n with
  | zero =>
      cases n with
      | zero => exact .pure []
      | succ n => exact .fail fun _ => nofun
  | succ fuel ih =>
      cases n with
      | zero => exact .pure []
      | succ n =>
          -- What follows is the same whether there was anything to read or not.
          have hrest : ∀ got : List UInt8, (harmless ByteSource).Obeys (do
              let rest ← readFor fuel (n + 1 - got.length)
              pure (got ++ rest)) := fun got => (ih _).bind fun rest => .pure _
          refine (harmless_read (n + 1)).bind ?_
          intro got
          dsimp only
          split
          · exact Obeys.bind (.fail fun _ => nofun) fun _ => hrest got
          · exact hrest got

end ByteSource

theorem ByteSink.harmless_write (bytes : List UInt8) :
    (harmless ByteSink).Obeys (write bytes) := by
  intro s
  refine ⟨trivial, ?_⟩
  intro e he
  simp only [write] at he
  split at he
  · cases he
  · split at he
    · cases he
    · cases he
      exact nofun

namespace Terminal

theorem harmless_peekByte : (harmless Terminal).Obeys peekByte := by
  intro t
  refine ⟨trivial, ?_⟩
  intro e he
  simp only [peekByte] at he
  split at he
  · cases he
  · split at he
    · cases he
    · next e' source hread =>
        cases he
        exact (ByteSource.harmless_read bufferSize).mayFail hread

theorem harmless_change (f : Terminal → Terminal) : (harmless Terminal).Obeys (.change f) :=
  harmless_of_ok fun _ => ⟨(), rfl⟩

theorem harmless_finishReturn : (harmless Terminal).Obeys finishReturn := by
  refine (Moves.view _).obeys.bind ?_
  intro afterReturn
  split
  · refine (harmless_change _).bind fun _ => harmless_peekByte.bind ?_
    intro next
    split
    · exact harmless_change _
    · exact harmless_change _
    · exact .pure ()
  · exact .pure ()

theorem harmless_readRest (fuel : Nat) (line : List UInt8) :
    (harmless Terminal).Obeys (readRest fuel line) := by
  induction fuel generalizing line with
  | zero => exact .pure _
  | succ fuel ih =>
      refine harmless_peekByte.bind ?_
      intro next
      split
      · exact .pure _
      · exact (harmless_change _).bind fun _ => .pure _
      · exact (harmless_change _).bind fun _ => (harmless_change _).bind fun _ => .pure _
      · exact (harmless_change _).bind fun _ => ih _

/-- A terminal is harmless. -/
theorem harmless : Device.Harmless Terminal where
  print text := by
    intro t
    refine ⟨trivial, ?_⟩
    intro e he
    exact (ByteSink.harmless_write _ t.sink).2 e he
  readLine := by
    refine Obeys.bind ?_ fun bytes => .pure _
    refine harmless_finishReturn.bind fun _ => (Moves.view _).obeys.bind fun fuel => ?_
    exact harmless_readRest (fuel + 1) []
  showStatus _ _ := .pure ()

end Terminal

namespace Channel

/-- The part of a message after its length. -/
theorem harmless_readBody (n : Nat) : (harmless ByteSource).Obeys (do
    let body ← ByteSource.readExactly n
    match (Utf8.decode? body).bind Message.parse? with
    | some m => pure (some m)
    | none => .fail (.protocol .malformed) : Action ByteSource (Option Message)) := by
  refine (ByteSource.harmless_readFor _ _).bind ?_
  intro body
  split
  · exact .pure _
  · exact .fail fun _ => nofun

/-- Reading a message raises no defect. -/
theorem harmless_readMessage : (harmless ByteSource).Obeys readMessage := by
  have hlength : (Conduct.harmless ByteSource).Obeys readLength := by
    intro s
    refine ⟨trivial, ?_⟩
    intro e he
    simp only [readLength] at he
    split at he
    · cases he
    · cases he
    · next e' t _ hread =>
        cases he
        exact (ByteSource.harmless_readFor 4 4).mayFail hread
  refine hlength.bind ?_
  intro found
  split
  · exact .pure none
  · dsimp only
    split
    · exact Obeys.bind (.fail fun _ _ h => Fault.noConfusion h) fun _ => harmless_readBody _
    · exact harmless_readBody _

theorem harmless_send (m : Message) : (harmless Channel).Obeys (onSink (writeMessage m)) := by
  have hwrite : (Conduct.harmless ByteSink).Obeys (writeMessage m) :=
    (ByteSink.harmless_write _).bind fun _ => ByteSink.harmless_write _
  intro c
  refine ⟨trivial, ?_⟩
  intro e he
  exact (hwrite c.sink).2 e he

theorem harmless : Device.Harmless Channel where
  print text := harmless_send (.text text)
  readLine := by
    refine Obeys.bind (x := onSource readMessage) ?_ ?_
    · intro c
      refine ⟨trivial, ?_⟩
      intro e he
      exact (harmless_readMessage c.source).2 e he
    · intro found
      split
      · exact .pure _
      · exact .pure _
      · exact .fail fun _ => nofun
  showStatus location right := harmless_send (.status location right)

end Channel

/-! ## Loading -/

namespace Machine

variable {m : Machine}

/-- An instruction is counted while the count fits into 64 bits. -/
theorem countInstruction_of_lt (h : m.count < maxCount) :
    countInstruction m = (.ok (), { m with count := m.count + 1 }) := by
  rw [countInstruction, Action.bind_of_ok (Action.view_apply _ _), Checked.require_of h]
  rfl

/-- The last count cannot be passed. -/
theorem countInstruction_of_not_lt (h : ¬ m.count < maxCount) :
    countInstruction m = (.error (.defect .instructionCount), m) := by
  rw [countInstruction, Action.bind_of_ok (Action.view_apply _ _), Checked.require, if_neg h]
  rfl

end Machine

namespace Session

variable {δ : Type} [Device δ] {s t : Session δ}

/-- A step is an instruction that is executed and counted. -/
theorem step_of_executeNext (h : executeNext s = (.ok (), t)) :
    step s = (.ok (), ⟨{ t.machine with count := t.machine.count + 1 }, t.device⟩) := by
  rw [step, Action.bind_of_ok h]
  rfl

/-- Executing an instruction does not count it. -/
theorem count_of_executeNext (h : executeNext s = (.ok (), t)) :
    t.machine.count = s.machine.count :=
  Nat.succ.inj (count_of_ok (step_of_executeNext h))

/-- An instruction is interpreted by a step unless it would pass the last count. -/
theorem interpret_eq_step (h : (step s).1 = .ok () → s.machine.count < Machine.maxCount) :
    interpret s = step s := by
  cases hnext : executeNext s with
  | mk r t =>
      cases r with
      | error e => rw [interpret, step, Action.bind_of_error hnext, Action.bind_of_error hnext]
      | ok a =>
          have hstep := step_of_executeNext hnext
          have hlt := h (congrArg Prod.fst hstep)
          rw [← count_of_executeNext hnext] at hlt
          rw [hstep, interpret, Action.bind_of_ok hnext]
          exact onMachine_eq_iff.mpr ⟨Machine.countInstruction_of_lt hlt, rfl⟩

/-- An instruction that would pass the last count has been executed, but is not counted. -/
theorem interpret_eq_defect (hok : (step s).1 = .ok ())
    (h : ¬ s.machine.count < Machine.maxCount) :
    interpret s = (.error (.defect .instructionCount),
      ⟨{ (step s).2.machine with count := s.machine.count }, (step s).2.device⟩) := by
  cases hnext : executeNext s with
  | mk r t =>
      cases r with
      | error e =>
          rw [step, Action.bind_of_error hnext] at hok
          cases hok
      | ok a =>
          have hcount := count_of_executeNext hnext
          rw [← hcount] at h
          rw [step_of_executeNext hnext, interpret, Action.bind_of_ok hnext, ← hcount]
          exact onMachine_eq_iff.mpr ⟨Machine.countInstruction_of_not_lt h, rfl⟩

/-- Either an instruction is interpreted as a step executes it, or it is one too many. -/
theorem interpret_cases (s : Session δ) :
    ((step s).1 = .ok () → s.machine.count < Machine.maxCount) ∧ interpret s = step s ∨
    (step s).1 = .ok () ∧ ¬ s.machine.count < Machine.maxCount ∧
      interpret s = (.error (.defect .instructionCount),
        ⟨{ (step s).2.machine with count := s.machine.count }, (step s).2.device⟩) := by
  by_cases h : (step s).1 = .ok () → s.machine.count < Machine.maxCount
  · exact .inl ⟨h, interpret_eq_step h⟩
  · obtain ⟨hok, hcount⟩ := Classical.not_imp.mp h
    exact .inr ⟨hok, hcount, interpret_eq_defect hok hcount⟩

end Session

/-! ## Machines that are reached -/

namespace Machine

variable {δ : Type} [Device δ] {image : Memory} {rules : Rules} {limit : Nat}

/-- The machines that interpreting instructions leads to, whether they succeed or fail; before
    each of them the device may be in any state. -/
inductive Interpreted (δ : Type) [Device δ] (m₀ : Machine) : Machine → Prop where
  | start : Interpreted δ m₀ m₀
  | interpret {m : Machine} (interpreted : Interpreted δ m₀ m) (device : δ) :
      Interpreted δ m₀ (Session.interpret ⟨m, device⟩).2.machine

/-- Interpreting an instruction keeps a machine in order. -/
theorem intact_interpret {s : Session δ} (h : s.machine.Intact image rules limit)
    (hlimit : image.size ≤ limit) (hpc : s.machine.story.header.initialPc.toNat ≤ limit) :
    (Session.interpret s).2.machine.Intact image rules limit := by
  have hstep := intact_step h hlimit hpc
  rcases Session.interpret_cases s with ⟨-, heq⟩ | ⟨-, -, heq⟩
  · rw [heq]
    exact hstep
  · rw [heq]
    exact ⟨hstep.story, hstep.rules, hstep.size, hstep.frames, hstep.pc, hstep.tables⟩

/-- The count always fits into 64 bits. -/
theorem count_interpret_le {s : Session δ} (h : s.machine.count ≤ maxCount) :
    (Session.interpret s).2.machine.count ≤ maxCount := by
  rcases Session.interpret_cases s with ⟨hlt, heq⟩ | ⟨-, -, heq⟩
  · rw [heq]
    cases hstep : Session.step s with
    | mk r t =>
        cases r with
        | ok a =>
            rw [hstep] at hlt
            exact Nat.le_trans (Nat.le_of_eq (Session.count_of_ok hstep)) (hlt rfl)
        | error e => exact Nat.le_trans (Nat.le_of_eq (Session.count_of_error hstep)) h
  · rw [heq]
    exact h

/-- Whatever is reached from a loaded machine is in order, and its count has 64 bits. -/
theorem Interpreted.intact {entropy : UInt64} {m₀ m : Machine} (h : Interpreted δ m₀ m)
    (hload : load image rules entropy = .ok m₀) (hlimit : image.size ≤ limit)
    (hpc : m₀.story.header.initialPc.toNat ≤ limit) :
    m.Intact image rules limit ∧ m.count ≤ maxCount := by
  obtain ⟨story, hstory, rfl⟩ := exists_story_of_load hload
  induction h with
  | start => exact ⟨intact_start hstory hpc entropy, Nat.zero_le _⟩
  | interpret _ device ih =>
      obtain ⟨hintact, hcount⟩ := ih
      refine ⟨intact_interpret hintact hlimit ?_, count_interpret_le hcount⟩
      -- The story is the one that was loaded, so it starts where that did.
      cases hintact.story.symm.trans hstory
      exact hpc

end Machine

/-! ## Sums of addresses

    The tables of a story lie at addresses of 16 bits and have a bounded number
    of entries, and whatever is read on from an address lies in memory. So no
    sum that is formed of them has more than 32 bits. -/

namespace ObjectTable

variable {t : ObjectTable} {o : UInt16}

end ObjectTable

namespace Machine

end Machine

/-! ## Defects -/

/-- Of all defects, a memory of `n` bytes lets expect one only. -/
theorem Fault.Expected.addressSpace {n : Nat} {c : Defect} (h : Fault.Expected n (.defect c)) :
    c = .addressSpace ∧ 0x100000000 < n + 9 := by
  cases c with
  | addressSpace => exact ⟨rfl, h⟩
  | _ => exact False.elim h

namespace Machine

variable {δ : Type} [Device δ] {image : Memory} {rules : Rules} {entropy : UInt64} {limit : Nat}
  {m₀ m : Machine}

end Machine

/-! ## A story that goes on for ever -/

namespace Looping

/-- The header, a jump to itself at 64, and an empty dictionary. -/
def image : Memory :=
  ⟨#[3, 0, 0, 0, 0, 0, 0, 64, 0, 67, 16, 0, 16, 0, 0, 64, 0, 0, 56, 55, 48, 49, 48, 49,
     0, 0, 0, 0, 0, 0, 0, 0, 0, 0, 0, 0, 0, 0, 0, 0, 0, 0, 0, 0, 0, 0, 0, 0, 0, 0, 0, 0, 0, 0, 0, 0,
     0, 0, 0, 0, 0, 0, 0, 0,
     0x8C, 0xFF, 0xFF,
     0, 0, 0, 0]⟩

/-- What is read from the story when it is loaded. -/
def story : Story where
  image := image
  header :=
    { version := 3, flags := 0, release := 0, highMemory := 0, initialPc := 64, dictionary := 67
      objects := 4096, globals := 4096, staticMemory := 64, serial := "870101"
      abbreviations := 0, fileLength := 0, checksum := 0 }
  objects := { defaults := 4096, count := 0 }
  names := []
  dictionary :=
    { address := 67, separators := [], entryLength := 0, entryCount := 0, entries := 71 }

/-- The machine after `k` instructions. -/
def machine (k : Nat) : Machine := { Machine.start story {} 0 with count := k }

variable {δ : Type} [Device δ]

/-- The jump, as it is decoded. -/
def instruction : Instruction where
  address := 64
  form := .short
  opClass := .one
  number := 12
  operands := [.large 0xFFFF]
  size := 3

/-- The one instruction of the story. -/
theorem scan_eq : Instruction.scan image 64 = (.ok instruction, 67) := rfl

/-- The machine after the jump has been decoded for the `k`-th time. -/
def decoded (k : Nat) : Machine := { machine k with pc := 67 }

/-- The jump leads back to where it is. -/
theorem executeNext_eq (k : Nat) (device : δ) :
    Session.executeNext ⟨machine k, device⟩ = (.ok (), ⟨machine k, device⟩) := by
  have hscan : Instruction.scan (machine k).memory (machine k).pc = _ := scan_eq
  have hfetch : Machine.fetch (machine k) = (.ok instruction, decoded k) := by
    rw [Machine.fetch, hscan]
    rfl
  have hfetch' : Session.onMachine Machine.fetch ⟨machine k, device⟩ =
      (_, ⟨decoded k, device⟩) := Session.onMachine_eq_iff.mpr ⟨hfetch, rfl⟩
  have hresolve : Session.onMachine (Machine.resolveAll instruction.operands)
      ⟨decoded k, device⟩ = (.ok [0xFFFF], ⟨decoded k, device⟩) := rfl
  have hjump : Machine.jump (-1) (decoded k) = (.ok (), machine k) := rfl
  rw [Session.executeNext, Action.bind_of_ok hfetch', Action.bind_of_ok hresolve]
  show Session.onMachine (Machine.jump (-1)) ⟨decoded k, device⟩ = _
  exact Session.onMachine_eq_iff.mpr ⟨hjump, rfl⟩

/-- It jumps to itself. -/
theorem step_eq (k : Nat) (device : δ) :
    Session.step ⟨machine k, device⟩ = (.ok (), ⟨machine (k + 1), device⟩) :=
  Session.step_of_executeNext (executeNext_eq k device)

/-- So every count is reached. -/
theorem interpreted {k : Nat} (hk : k ≤ Machine.maxCount) (device : δ) :
    Machine.Interpreted δ (machine 0) (machine k) := by
  induction k with
  | zero => exact .start
  | succ k ih =>
      have hnext : Session.interpret ⟨machine k, device⟩ = (.ok (), ⟨machine (k + 1), device⟩) :=
        (Session.interpret_eq_step (s := ⟨machine k, device⟩) fun _ => hk).trans (step_eq k device)
      have hreached := (ih (Nat.le_of_succ_le hk)).interpret device
      rw [hnext] at hreached
      exact hreached

end Looping

end ZMachine
