import ZMachine.Device.Scripted
import ZMachine.Machine.Execute
import ZMachine.Proofs.Memory

/-! # Work within a routine

    Most of what an instruction does concerns the running routine alone: it
    reads and writes variables and memory, takes bytes at the pc and talks to
    the device. This file says once what such work leaves alone: the story and
    the rules, the size of memory, the frames of the callers, and of the
    running frame all but the values in it. The pc stays in memory if it was
    there, and so do the tables that are open for text.

    `Machine.conduct` puts this together with the faults that may occur and
    with the pc as position, so that each part of an instruction has one lemma
    that says by how many bytes it moves the pc. -/

namespace ZMachine

open Conduct

/-! ## Frames -/

namespace Frame

/-- Two states of one activation of a routine. -/
structure Same (f g : Frame) : Prop where
  address : g.address = f.address
  returnAddress : g.returnAddress = f.returnAddress
  locals : g.locals.length = f.locals.length

variable {f g : Frame}

/-- A frame is the same activation as itself. -/
theorem Same.refl (f : Frame) : f.Same f := ⟨rfl, rfl, rfl⟩

/-- Being the same activation is transitive. -/
theorem Same.trans {h : Frame} (hfg : f.Same g) (hgh : g.Same h) : f.Same h :=
  ⟨hgh.address.trans hfg.address, hgh.returnAddress.trans hfg.returnAddress,
    hgh.locals.trans hfg.locals⟩

/-- Pushing a value stays within the activation. -/
theorem same_push (f : Frame) (x : UInt16) : f.Same (f.push x) := ⟨rfl, rfl, rfl⟩

/-- Setting a local variable stays within the activation, since locals are replaced and not added.
    -/
theorem same_of_setLocal {v : UInt8} {x : UInt16} (h : f.setLocal v x = .ok g) : f.Same g := by
  by_cases hv : 1 ≤ v.toNat ∧ v.toNat ≤ f.locals.length
  · obtain ⟨i, hi⟩ := Nat.exists_eq_add_of_le' hv.1
    rw [f.setLocal_of_lt hi (by omega)] at h
    cases h
    exact ⟨rfl, rfl, List.length_set⟩
  · rw [f.setLocal_of_outside hv] at h
    exact nomatch h

/-- Popping a value stays within the activation. -/
theorem same_of_pop {x : UInt16} (h : f.pop = .ok (x, g)) : f.Same g := by
  unfold pop at h
  split at h
  · exact nomatch h
  · cases h
    exact ⟨rfl, rfl, rfl⟩

/-- Replacing the value on top stays within the activation. -/
theorem same_of_poke {x : UInt16} (h : f.poke x = .ok g) : f.Same g := by
  unfold poke at h
  split at h
  · exact nomatch h
  · cases h
    exact ⟨rfl, rfl, rfl⟩

/-- Reading a local variable fails only where there is no such variable. -/
theorem failsOnly_getLocal (f : Frame) (v : UInt8) (n : Nat) :
    FailsOnly (Fault.OfWork n) (f.getLocal v) := by
  by_cases hv : 1 ≤ v.toNat ∧ v.toNat ≤ f.locals.length
  · obtain ⟨i, hi⟩ := Nat.exists_eq_add_of_le' hv.1
    rw [f.getLocal_of_lt hi (List.getElem?_eq_getElem (by omega))]
    exact .ok _
  · rw [f.getLocal_of_outside hv]
    exact .error trivial

/-- Setting a local variable fails only where there is no such variable. -/
theorem failsOnly_setLocal (f : Frame) (v : UInt8) (x : UInt16) (n : Nat) :
    FailsOnly (Fault.OfWork n) (f.setLocal v x) := by
  by_cases hv : 1 ≤ v.toNat ∧ v.toNat ≤ f.locals.length
  · obtain ⟨i, hi⟩ := Nat.exists_eq_add_of_le' hv.1
    rw [f.setLocal_of_lt hi (by omega)]
    exact .ok _
  · rw [f.setLocal_of_outside hv]
    exact .error trivial

/-- Popping fails only on an empty stack. -/
theorem failsOnly_pop (f : Frame) (n : Nat) : FailsOnly (Fault.OfWork n) f.pop := by
  unfold pop
  split
  · exact .error trivial
  · exact .ok _

/-- Looking at the value on top fails only on an empty stack. -/
theorem failsOnly_peek (f : Frame) (n : Nat) : FailsOnly (Fault.OfWork n) f.peek := by
  cases hstack : f.stack with
  | nil =>
      rw [f.peek_of_nil hstack]
      exact .error trivial
  | cons x rest =>
      rw [f.peek_of_cons hstack]
      exact .ok x

/-- Replacing the value on top fails only on an empty stack. -/
theorem failsOnly_poke (f : Frame) (x : UInt16) (n : Nat) :
    FailsOnly (Fault.OfWork n) (f.poke x) := by
  unfold poke
  split
  · exact .error trivial
  · exact .ok _

end Frame

namespace Machine

variable {α : Type}

/-- The tables that are open for text have 16-bit addresses and the word that counts their
    characters in memory. -/
def TablesInMemory (m : Machine) : Prop :=
  ∀ a ∈ m.streams.tables, a < 0x10000 ∧ a + 2 ≤ m.memory.size

/-- The second machine is one that work within the running routine of the first can lead to. -/
structure Within (m m' : Machine) : Prop where
  story : m'.story = m.story
  rules : m'.rules = m.rules
  size : m'.memory.size = m.memory.size
  callers : m'.calls.callers = m.calls.callers
  top : m.calls.top.Same m'.calls.top
  pc : m'.pc ≤ max m.pc m.memory.size
  tables : m.TablesInMemory → m'.TablesInMemory
  count : m'.count = m.count

/-- Doing nothing is work within the routine. -/
theorem Within.refl (m : Machine) : m.Within m :=
  ⟨rfl, rfl, rfl, rfl, .refl _, Nat.le_max_left _ _, id, rfl⟩

/-- Work within the routine can be done in parts. The pc is bounded by the memory, whose size stays.
    -/
theorem Within.trans {m m' m'' : Machine} (h : m.Within m') (h' : m'.Within m'') :
    m.Within m'' where
  story := h'.story.trans h.story
  rules := h'.rules.trans h.rules
  size := h'.size.trans h.size
  callers := h'.callers.trans h.callers
  top := h.top.trans h'.top
  pc := by
    have h₁ := h.pc
    have h₂ := h'.pc
    rw [h.size] at h₂
    omega
  tables := h'.tables ∘ h.tables
  count := h'.count.trans h.count

/-- The fault of a random draw that finds no word in a whole period of its keystream. -/
def DrawFault (e : Fault) : Prop :=
  e = .defect .keystreamExhausted ∧
    ∃ (random : Random.Generator) (range : UInt16), random.draw? range = none

/-- What work within the running routine may do. -/
def conduct : Conduct Machine where
  keeps := Within
  mayFail m e := e.OfWork m.memory.size ∨ DrawFault e
  position := Machine.pc
  refl := Within.refl
  trans := Within.trans
  mayFail_of_keeps h he := h.size ▸ he

/-- Reading what the machine holds moves nothing. -/
theorem moves_ask {f : Machine → Except Fault α}
    (hf : ∀ m, FailsOnly (Fault.OfWork m.memory.size) (f m)) :
    conduct.Moves 0 (Action.ask f) :=
  .ask fun m e h => .inl (hf m e h)

/-- Reading memory moves nothing. -/
theorem moves_askMemory {f : Memory → Except Fault α}
    (hf : ∀ m, FailsOnly (Fault.OfWork m.size) (f m)) : conduct.Moves 0 (askMemory f) :=
  moves_ask fun m => hf m.memory

/-- A change of memory that keeps its size is work within the routine. -/
theorem within_memory (m : Machine) {memory : Memory} (h : memory.size = m.memory.size) :
    m.Within { m with memory } where
  story := rfl
  rules := rfl
  size := h
  callers := rfl
  top := .refl _
  pc := Nat.le_max_left _ _
  tables ht a ha := ⟨(ht a ha).1, Nat.le_trans (ht a ha).2 (Nat.le_of_eq h.symm)⟩
  count := rfl

/-- What an action on memory does to the machine. -/
theorem onMemory_apply (x : Action Memory α) (m : Machine) :
    onMemory x m = ((x m.memory).1, { m with memory := (x m.memory).2 }) := rfl

/-- An action on memory that keeps its size moves nothing else. -/
theorem moves_onMemory {x : Action Memory α} (hx : Memory.conduct.Obeys x) :
    conduct.Moves 0 (onMemory x) := by
  constructor
  · intro m
    rw [onMemory_apply]
    exact ⟨m.within_memory (hx m.memory).1, fun e h => .inl ((hx m.memory).2 e h)⟩
  · intro m m' a h
    rw [onMemory_apply] at h
    obtain ⟨-, rfl⟩ := Prod.mk.inj h
    rfl

/-! ## Bytes at the pc -/

/-- A pc that is not past the end of memory is one that work can lead to. -/
theorem within_pc (m : Machine) {a : Nat} (h : a ≤ m.memory.size) : m.Within { m with pc := a } :=
  ⟨rfl, rfl, rfl, rfl, .refl _, Nat.le_trans h (Nat.le_max_right _ _), id, rfl⟩

/-- Reading the next byte moves the pc by one; a byte that can be read lies in memory. -/
theorem moves_nextByte : conduct.Moves 1 nextByte := by
  refine .of_cases fun m => ?_
  unfold nextByte
  split
  · next b hb => exact .inl ⟨b, _, rfl, m.within_pc (Memory.lt_size_of_byteAt hb), rfl⟩
  · next e he => exact .inr ⟨e, rfl, .inl (m.memory.failsOnly_byteAt _ e he)⟩

/-! ## The running frame -/

/-- A change of the running frame that keeps all but its values is work within the routine. -/
theorem within_withTop (m : Machine) {t : Frame} (h : m.calls.top.Same t) :
    m.Within { m with calls := m.calls.withTop t } :=
  ⟨rfl, rfl, rfl, rfl, h, Nat.le_max_left _ _, id, rfl⟩

/-- Reading the running frame moves nothing. -/
theorem moves_askTop {f : Frame → Except Fault α}
    (hf : ∀ t n, FailsOnly (Fault.OfWork n) (f t)) : conduct.Moves 0 (askTop f) :=
  moves_ask fun m => hf m.calls.top m.memory.size

/-- A change of the running frame within its activation moves nothing else. -/
theorem moves_changeTop {f : Frame → Except Fault Frame}
    (hf : ∀ t n, FailsOnly (Fault.OfWork n) (f t)) (hs : ∀ t t', f t = .ok t' → t.Same t') :
    conduct.Moves 0 (changeTop f) := by
  refine .of_cases fun m => ?_
  unfold changeTop
  split
  · next t ht => exact .inl ⟨(), _, rfl, m.within_withTop (hs _ t ht), rfl⟩
  · next e he => exact .inr ⟨e, rfl, .inl (hf _ _ e he)⟩

/-- Pushing moves no pc. -/
theorem moves_push (x : UInt16) : conduct.Moves 0 (push x) :=
  moves_changeTop (fun _ _ => .ok _) fun t _ h => Except.ok.inj h ▸ t.same_push x

/-- Replacing the value on top moves no pc. -/
theorem moves_poke (x : UInt16) : conduct.Moves 0 (changeTop (·.poke x)) :=
  moves_changeTop (fun t n => t.failsOnly_poke x n) fun _ _ h => Frame.same_of_poke h

/-- Popping moves no pc. -/
theorem moves_pop : conduct.Moves 0 pop := by
  refine .of_cases fun m => ?_
  unfold pop
  split
  · next x t ht => exact .inl ⟨x, _, rfl, m.within_withTop (Frame.same_of_pop ht), rfl⟩
  · next e he => exact .inr ⟨e, rfl, .inl (m.calls.top.failsOnly_pop _ e he)⟩

/-! ## Variables -/

/-- Reading a variable moves no pc, whichever of the three kinds it is. -/
theorem moves_readVariable (v : UInt8) : conduct.Moves 0 (readVariable v) := by
  unfold readVariable
  split
  · refine (Moves.view _).after ?_
    intro rule
    split
    · exact moves_pop
    · exact moves_askTop Frame.failsOnly_peek
  · split
    · exact moves_askTop fun t n => t.failsOnly_getLocal v n
    · next hv =>
        rw [readGlobal_eq (Nat.not_lt.mp hv)]
        exact moves_ask fun m => m.memory.failsOnly_wordAt _

/-- A variable from 16 up is a word of memory. -/
theorem readVariable_global {v : UInt8} (hv : 16 ≤ v.toNat) (m : Machine) :
    readVariable v m = (m.memory.wordAt (m.globalAddress v), m) := by
  have hzero : v ≠ 0 := by
    rintro rfl
    exact absurd hv (by decide)
  rw [readVariable, if_neg hzero, if_neg (Nat.not_lt.mpr hv), readGlobal_eq hv, Action.ask_apply]

/-- Writing a variable moves no pc, whichever of the three kinds it is. -/
theorem moves_writeVariable (v : UInt8) (x : UInt16) : conduct.Moves 0 (writeVariable v x) := by
  unfold writeVariable
  split
  · exact moves_push x
  · split
    · exact moves_changeTop (fun t n => t.failsOnly_setLocal v x n) fun _ _ h =>
        Frame.same_of_setLocal h
    · next hv =>
        rw [writeGlobal_eq (Nat.not_lt.mp hv)]
        exact (Moves.view _).after fun a => moves_onMemory (Memory.obeys_writeWord a x)

/-- Reading a variable in place moves no pc. -/
theorem moves_readIndirect (v : UInt8) : conduct.Moves 0 (readIndirect v) := by
  unfold readIndirect
  split
  · exact moves_askTop Frame.failsOnly_peek
  · exact moves_readVariable v

/-- Writing a variable in place moves no pc. -/
theorem moves_writeIndirect (v : UInt8) (x : UInt16) : conduct.Moves 0 (writeIndirect v x) := by
  unfold writeIndirect
  refine (Moves.view _).after ?_
  intro rule
  split
  · split
    · exact moves_poke x
    · exact moves_writeVariable v x
  · exact moves_writeVariable v x

/-- Adding to a variable moves no pc. -/
theorem moves_updateVariable (v : UInt8) (delta : UInt16) :
    conduct.Moves 0 (updateVariable v delta) := by
  unfold updateVariable
  refine (moves_readIndirect v).after ?_
  intro old
  dsimp only
  split
  · exact (moves_poke _).after fun _ => .pure _
  · exact (moves_writeVariable v _).after fun _ => .pure _

/-- A result takes up one byte: the number of the variable that receives it. -/
theorem moves_storeResult (x : UInt16) : conduct.Moves 1 (storeResult x) := by
  unfold storeResult
  exact moves_nextByte.bind fun v => moves_writeVariable v x

/-- Pulling a value into a variable moves no pc. -/
theorem moves_pull (v : UInt16) : conduct.Moves 0 (pull v) := by
  unfold pull
  refine moves_pop.after ?_
  intro x
  refine (Moves.view _).after ?_
  intro rule
  split
  · exact moves_writeIndirect _ _
  · exact .pure ()

/-! ## Objects and random numbers -/

/-- Reading objects moves nothing. -/
theorem moves_askObjects {f : ObjectTable → Memory → Except Fault α}
    (hf : ∀ t m, FailsOnly (Fault.OfWork m.size) (f t m)) : conduct.Moves 0 (askObjects f) :=
  moves_ask fun m => hf m.story.objects m.memory

/-- An action on objects that keeps the size of memory moves nothing else. -/
theorem moves_onObjects {f : ObjectTable → Action Memory Unit}
    (hf : ∀ t, Memory.conduct.Obeys (f t)) : conduct.Moves 0 (onObjects f) := by
  unfold onObjects
  exact (Moves.view _).after fun story => moves_onMemory (hf story.objects)

/-- Storing what is read from objects moves the pc past the byte for the variable. -/
theorem moves_storeObjects {f : ObjectTable → Memory → Except Fault UInt16}
    (hf : ∀ t m, FailsOnly (Fault.OfWork m.size) (f t m)) :
    conduct.Moves 1 (storeObjects f) := by
  unfold storeObjects
  exact (moves_askObjects hf).after moves_storeResult

/-- Drawing numbers is work within the routine. -/
theorem within_random (m : Machine) (random : Random.Generator) (entropy : UInt64) :
    m.Within { m with random, entropy } :=
  ⟨rfl, rfl, rfl, rfl, .refl _, Nat.le_max_left _ _, id, rfl⟩

/-- A draw moves no pc; it fails only where the keystream has no word for it. -/
theorem moves_drawRandom (range : UInt16) : conduct.Moves 0 (drawRandom range) := by
  refine .of_cases fun m => ?_
  unfold drawRandom
  split
  · next x random _ => exact .inl ⟨x, _, rfl, m.within_random random m.entropy, rfl⟩
  · next hnone => exact .inr ⟨_, rfl, .inr ⟨rfl, m.random, range, hnone⟩⟩

/-- Storing a random number moves the pc past the byte for the variable. -/
theorem moves_storeRandom (range : UInt16) : conduct.Moves 1 (storeRandom range) := by
  unfold storeRandom
  split
  · exact (moves_drawRandom range).after moves_storeResult
  · split
    · refine Moves.after (.change ?_ fun _ => rfl) fun _ => moves_storeResult 0
      exact fun m => m.within_random _ _
    · refine Moves.after (.change ?_ fun _ => rfl) fun _ => moves_storeResult 0
      exact fun m => m.within_random _ _

/-! ## Output streams -/

/-- A change of the streams that opens tables in memory only is work within the routine. -/
theorem within_streams (m : Machine) {streams : Streams}
    (h : ∀ a ∈ streams.tables, a ∈ m.streams.tables ∨ a < 0x10000 ∧ a + 2 ≤ m.memory.size) :
    m.Within { m with streams } where
  story := rfl
  rules := rfl
  size := rfl
  callers := rfl
  top := .refl _
  pc := Nat.le_max_left _ _
  tables ht a ha := (h a ha).elim (ht a) id
  count := rfl

/-- Once a word has been written at an address, a table there has its count in memory. -/
theorem moves_openTable {table : Nat} (hlow : table < 0x10000) :
    conduct.Moves 0 (openTable table) := by
  have hwrite := moves_onMemory (Memory.obeys_writeWord table 0)
  constructor
  · intro m
    unfold openTable
    rw [Action.bind_apply]
    match hm : onMemory (Memory.writeWord table 0) m with
    | (.error e, m') => exact ⟨hwrite.obeys.keeps hm, FailsOnly.error (hwrite.obeys.mayFail hm)⟩
    | (.ok (), m') =>
        have hin := hwrite.obeys.keeps hm
        -- The count could be written, so the table lies in memory from now on.
        have htable : table + 2 ≤ m'.memory.size := by
          rw [hin.size]
          rw [onMemory_apply] at hm
          have hok := congrArg Prod.fst hm
          unfold Memory.writeWord at hok
          split at hok
          · assumption
          · exact nomatch hok
        refine ⟨hin.trans (m'.within_streams ?_), fun e h => nomatch h⟩
        intro a ha
        rcases List.mem_cons.mp ha with rfl | ha
        · exact .inr ⟨hlow, htable⟩
        · exact .inl ha
  · intro m m'' a h
    unfold openTable at h
    obtain ⟨a', m', hm, h⟩ := Action.bind_eq_ok.mp h
    have hpc := hwrite.moves hm
    obtain ⟨-, rfl⟩ := Prod.mk.inj h
    exact hpc

/-- Closing a table opens none. -/
theorem moves_closeTable : conduct.Moves 0 closeTable :=
  .change (fun m => m.within_streams fun _ ha => .inl (List.mem_of_mem_tail ha)) fun _ => rfl

/-- Turning the screen on or off opens no table. -/
theorem moves_setScreen (on : Bool) : conduct.Moves 0 (setScreen on) :=
  .change (fun m => m.within_streams fun _ ha => .inl ha) fun _ => rfl

/-- Selecting a stream moves no pc. A table that is opened has the address of an operand. -/
theorem moves_selectStream (operands : List UInt16) : conduct.Moves 0 (selectStream operands) := by
  unfold selectStream
  split
  · exact .fail fun _ => .inl trivial
  · split
    · exact moves_setScreen true
    · exact moves_setScreen false
    · split
      · exact .fail fun _ => .inl trivial
      · next table _ => exact moves_openTable table.toNat_lt
    · exact moves_closeTable
    · exact .pure ()

/-- Making up the status line moves no pc. -/
theorem moves_status : conduct.Moves 0 status := by
  unfold status
  refine (moves_readVariable _).after fun location => (Moves.view _).after fun story => ?_
  exact (moves_readVariable _).after fun first => (moves_readVariable _).after fun second => .pure _

end Machine

/-! ## Sessions -/

/-- From states of the given kind, the operations of a device succeed and lead to such states. -/
structure Device.Reliable {δ : Type} [Device δ] (good : δ → Prop) : Prop where
  print : ∀ text d, good d → ∃ d', Device.print text d = (.ok (), d') ∧ good d'
  readLine : ∀ d, good d → ∃ line d', Device.readLine d = (.ok line, d') ∧ good d'
  showStatus : ∀ location right d, good d →
    ∃ d', Device.showStatus location right d = (.ok (), d') ∧ good d'

/-- A scripted device never fails. -/
theorem Scripted.reliable : Device.Reliable fun _ : Scripted => True where
  print _ _ _ := ⟨_, rfl, trivial⟩
  readLine := by
    rintro ⟨input, output, status⟩ -
    cases input with
    | nil => exact ⟨"", _, rfl, trivial⟩
    | cons line rest => exact ⟨line, _, rfl, trivial⟩
  showStatus _ _ _ _ := ⟨_, rfl, trivial⟩

namespace Session

variable {δ α : Type} [Device δ]

/-- A fault that an operation of the device raises. -/
def DeviceFault (δ : Type) [Device δ] (e : Fault) : Prop :=
  (∃ text d, (Device.print text d : Except Fault Unit × δ).1 = .error e) ∨
    (∃ d : δ, (Device.readLine d).1 = .error e) ∨
    ∃ location right d, (Device.showStatus location right d : Except Fault Unit × δ).1 = .error e

/-- What work within the running routine may do, together with the device. -/
def conduct (δ : Type) [Device δ] : Conduct (Session δ) where
  keeps s t := s.machine.Within t.machine
  mayFail s e := Machine.conduct.mayFail s.machine e ∨ DeviceFault δ e
  position s := s.machine.pc
  refl s := .refl s.machine
  trans := .trans
  mayFail_of_keeps h he := he.imp_left (Machine.conduct.mayFail_of_keeps h)

/-- A conduct that allows what a machine may do within a routine, and the use of the device. -/
structure Hosts (C : Conduct (Session δ)) : Prop where
  mayFail : ∀ {s e}, Machine.conduct.mayFail s.machine e → C.mayFail s e
  moves : ∀ {α n} {x : Action Machine α}, Machine.conduct.Moves n x → C.Moves n (onMachine x)
  obeys : ∀ {α} {x : Action Machine α}, Machine.conduct.Obeys x → C.Obeys (onMachine x)
  print : ∀ text, C.Moves 0 (onDevice (Device.print text))
  readLine : C.Moves 0 (onDevice Device.readLine)
  showStatus : ∀ location right, C.Moves 0 (onDevice (Device.showStatus location right))

omit [Device δ] in
/-- What an action on the machine does, it does in a session. -/
theorem moves_of_machine {C : Conduct (Session δ)} {n : Nat} {x : Action Machine α}
    (hposition : ∀ s, C.position s = s.machine.pc) (hobeys : C.Obeys (onMachine x))
    (hx : Machine.conduct.Moves n x) : C.Moves n (onMachine x) := by
  refine ⟨hobeys, ?_⟩
  rintro ⟨m, d⟩ ⟨m', d'⟩ a h
  rw [hposition, hposition]
  refine hx.moves (s := m) (a := a) ?_
  show x m = (.ok a, m')
  have h₁ := congrArg Prod.fst h
  have h₂ := congrArg (fun p => p.2.machine) h
  exact Prod.ext h₁ h₂

omit [Device δ] in
/-- What a device does moves no pc. -/
theorem moves_of_device {C : Conduct (Session δ)} {x : Action δ α}
    (hposition : ∀ s, C.position s = s.machine.pc) (hobeys : C.Obeys (onDevice x)) :
    C.Moves 0 (onDevice x) := by
  refine ⟨hobeys, ?_⟩
  rintro ⟨m, d⟩ ⟨m', d'⟩ a h
  rw [hposition, hposition]
  have h₂ := congrArg (fun p => p.2.machine) h
  exact congrArg Machine.pc h₂.symm

/-- Sessions with any device can host work within the routine. -/
theorem hosts_conduct (δ : Type) [Device δ] : Hosts (conduct δ) := by
  have hmachine : ∀ {α} {x : Action Machine α}, Machine.conduct.Obeys x →
      (conduct δ).Obeys (onMachine x) := by
    rintro α x hx ⟨m, d⟩
    exact ⟨(hx m).1, fun e h => .inl ((hx m).2 e h)⟩
  have hdevice : ∀ {α} {x : Action δ α}, (∀ d e, (x d).1 = .error e → DeviceFault δ e) →
      (conduct δ).Moves 0 (onDevice x) := by
    intro α x hx
    refine moves_of_device (fun _ => rfl) ?_
    rintro ⟨m, d⟩
    exact ⟨.refl m, fun e h => .inr (hx d e h)⟩
  exact
    { mayFail := .inl
      moves := fun hx => moves_of_machine (fun _ => rfl) (hmachine hx.obeys) hx
      obeys := hmachine
      print := fun text => hdevice fun d e h => .inl ⟨text, d, h⟩
      readLine := hdevice fun d e h => .inr (.inl ⟨d, h⟩)
      showStatus := fun location right =>
        hdevice fun d e h => .inr (.inr ⟨location, right, d, h⟩) }

variable {C : Conduct (Session δ)} (hC : Hosts C)

include hC

/-- Printing moves no pc, whether the text goes to a table, to the screen or nowhere. -/
theorem moves_output (text : String) : C.Moves 0 (output text) := by
  unfold output
  refine (hC.moves (.view _)).after ?_
  rintro ⟨screen, tables⟩
  match screen, tables with
  | _, table :: _ =>
      exact hC.moves (Machine.moves_onMemory (Machine.obeys_appendText table text))
  | true, [] => exact hC.print text
  | false, [] => exact .pure ()

/-- Printing a string in memory moves no pc. -/
theorem moves_outputAt (a : Nat) : C.Moves 0 (outputAt a) := by
  unfold outputAt
  refine (hC.moves (Machine.moves_ask fun m => Text.failsOnly_decode _ a)).after ?_
  rintro ⟨text, stop⟩
  exact moves_output hC text

/-- Printing the name of an object moves no pc. -/
theorem moves_outputName (o : UInt16) : C.Moves 0 (outputName o) := by
  unfold outputName
  refine (hC.moves (.view _)).after ?_
  intro name
  split
  · exact moves_output hC _
  · exact .fail fun _ => hC.mayFail (.inl trivial)

/-- Showing the status line moves no pc. -/
theorem moves_showStatus : C.Moves 0 (showStatus : Action (Session δ) Unit) := by
  unfold showStatus
  refine (hC.moves Machine.moves_status).after ?_
  rintro ⟨location, right⟩
  exact hC.showStatus location right

/-- Reading a line of input moves no pc. -/
theorem moves_readLine (text parse : UInt16) :
    C.Moves 0 (readLine text parse : Action (Session δ) Unit) := by
  unfold readLine
  refine (moves_showStatus hC).after fun _ => ?_
  refine hC.readLine.after ?_
  intro line
  refine hC.moves ((Moves.view _).after ?_)
  intro story
  exact Machine.moves_onMemory (Machine.obeys_storeLine _ _ _ _)

end Session

end ZMachine
