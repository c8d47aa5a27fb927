import ZMachine.Proofs.Step

/-! # What holds of every machine that is reached

    A machine that has been loaded and stepped any number of times, whether the
    steps succeeded or failed and whatever the device did, still runs the story
    that was loaded, in a memory of the same size; its frames are those of
    routines above that of the main routine, and its pc, the places where
    routines return to and the tables that are open for text lie in memory.

    `Machine.Intact` states this, relative to a limit for addresses that are
    executed. Each part of a step keeps it (`intact_within`, `intact_turn`), and
    so does every sequence of steps (`Reached.intact`). -/

namespace ZMachine

open Conduct

/-! ## What loading a story establishes -/

/-- A list of results that all succeed is as long as the list that they come from. -/
theorem length_of_mapM {α β : Type} {f : α → Except Fault β} {xs : List α} {ys : List β}
    (h : xs.mapM f = .ok ys) : ys.length = xs.length := by
  induction xs generalizing ys with
  | nil =>
      cases h
      rfl
  | cons x xs ih =>
      rw [List.mapM_cons] at h
      obtain ⟨y, -, h⟩ := FailsOnly.bind_eq_ok.mp h
      obtain ⟨ys', hys, h⟩ := FailsOnly.bind_eq_ok.mp h
      cases h
      rw [List.length_cons, List.length_cons, ih hys]

/-- An image whose header can be read holds all of it. -/
theorem Header.length_le_of_ofImage {image : Memory} {h : Header}
    (hh : ofImage image = .ok h) : length ≤ image.size := by
  by_cases hsize : image.size < length
  · rw [ofImage, if_pos hsize] at hh
    cases hh
  · exact Nat.not_lt.mp hsize

namespace Story

variable {image : Memory} {story : Story}

/-- A loaded story keeps its image, which has room for a header, and has a name for each
    object. -/
theorem of_load (h : load image = .ok story) :
    story.image = image ∧ Header.length ≤ image.size ∧
      story.names.length = story.objects.count := by
  obtain ⟨header, hheader, h⟩ := FailsOnly.bind_eq_ok.mp h
  obtain ⟨objects, -, h⟩ := FailsOnly.bind_eq_ok.mp h
  obtain ⟨names, hnames, h⟩ := FailsOnly.bind_eq_ok.mp h
  obtain ⟨dictionary, -, h⟩ := FailsOnly.bind_eq_ok.mp h
  cases h
  refine ⟨rfl, Header.length_le_of_ofImage hheader, ?_⟩
  exact (length_of_mapM hnames).trans List.length_range

end Story

/-! ## Frames -/

namespace Frame

variable {f g : Frame}

/-- The frame of the main routine. -/
structure IsMain (initialPc : Nat) (f : Frame) : Prop where
  address : f.address = initialPc
  returnAddress : f.returnAddress = 0
  locals : f.locals = []

/-- The frame of a routine that was called, with a place to return to up to a limit. -/
structure IsCalled (limit : Nat) (f : Frame) : Prop where
  even : f.address % 2 = 0
  nonzero : f.address ≠ 0
  locals : f.locals.length ≤ maxLocals
  values : f.locals.length ≤ f.values.length
  returnAddress : f.returnAddress ≤ limit

theorem IsMain.of_same {a : Nat} (h : f.IsMain a) (hs : f.Same g) : g.IsMain a where
  address := hs.address.trans h.address
  returnAddress := hs.returnAddress.trans h.returnAddress
  locals := List.eq_nil_of_length_eq_zero (by rw [hs.locals, h.locals, List.length_nil])

theorem IsCalled.of_same {limit : Nat} (h : f.IsCalled limit) (hs : f.Same g) :
    g.IsCalled limit where
  even := (congrArg (· % 2) hs.address).trans h.even
  nonzero := hs.address ▸ h.nonzero
  locals := Nat.le_trans (Nat.le_of_eq hs.locals) h.locals
  values := g.length_locals_le_values
  returnAddress := Nat.le_trans (Nat.le_of_eq hs.returnAddress) h.returnAddress

end Frame

/-- The main routine at the bottom, and above it routines that were called. -/
def CallStack.Grounded (initialPc limit : Nat) (c : CallStack) : Prop :=
  ∃ called main, c.frames = called ++ [main] ∧ main.IsMain initialPc ∧
    ∀ f ∈ called, f.IsCalled limit

namespace CallStack

variable {initialPc limit : Nat} {c c' : CallStack} {f : Frame}

/-- The call stack of a new machine stands on the main frame. -/
theorem grounded_main (initialPc limit : Nat) :
    Grounded initialPc limit { top := Frame.main initialPc } :=
  ⟨[], Frame.main initialPc, rfl, ⟨rfl, rfl, rfl⟩, nofun⟩

/-- Work in the running routine keeps the call stack grounded. -/
theorem Grounded.of_same (h : c.Grounded initialPc limit) (hcallers : c'.callers = c.callers)
    (htop : c.top.Same c'.top) : c'.Grounded initialPc limit := by
  obtain ⟨called, main, hframes, hmain, hcalled⟩ := h
  cases called with
  | nil =>
      obtain ⟨rfl, hnil⟩ := List.cons.inj hframes
      refine ⟨[], c'.top, congrArg (c'.top :: ·) (hcallers.trans hnil), ?_, nofun⟩
      exact hmain.of_same htop
  | cons g called =>
      obtain ⟨rfl, hrest⟩ := List.cons.inj hframes
      refine ⟨c'.top :: called, main, congrArg (c'.top :: ·) (hcallers.trans hrest), hmain, ?_⟩
      intro f hf
      rcases List.mem_cons.mp hf with rfl | hf
      · exact (hcalled _ List.mem_cons_self).of_same htop
      · exact hcalled f (List.mem_cons_of_mem _ hf)

theorem Grounded.push (h : c.Grounded initialPc limit) (hf : f.IsCalled limit) :
    (c.push f).Grounded initialPc limit := by
  obtain ⟨called, main, hframes, hmain, hcalled⟩ := h
  refine ⟨f :: called, main, congrArg (f :: ·) hframes, hmain, ?_⟩
  intro g hg
  rcases List.mem_cons.mp hg with rfl | hg
  · exact hf
  · exact hcalled g hg

/-- The main routine cannot be left, so a frame that is popped was called. -/
theorem Grounded.pop (h : c.Grounded initialPc limit) (hpop : c.pop = .ok (f, c')) :
    c'.Grounded initialPc limit ∧ f.IsCalled limit := by
  obtain ⟨called, main, hframes, hmain, hcalled⟩ := h
  simp only [CallStack.pop] at hpop
  split at hpop
  · cases hpop
  · next caller rest hcallers =>
      cases hpop
      cases called with
      | nil =>
          -- The main frame has no caller to return to.
          obtain ⟨-, hnil⟩ := List.cons.inj hframes
          rw [hcallers] at hnil
          cases hnil
      | cons g called =>
          obtain ⟨htop, hrest⟩ := List.cons.inj hframes
          refine ⟨⟨called, main, hcallers.symm.trans hrest, hmain, ?_⟩, ?_⟩
          · intro f hf
            exact hcalled f (List.mem_cons_of_mem _ hf)
          · rw [htop]
            exact hcalled g List.mem_cons_self

end CallStack

/-! ## Machines -/

namespace Machine

/-- A machine that runs the given image under the given rules and is in order; addresses that
    are executed go up to a limit. -/
structure Intact (image : Memory) (rules : Rules) (limit : Nat) (m : Machine) : Prop where
  /-- What was read when the story was loaded has not changed. -/
  story : Story.load image = .ok m.story
  rules : m.rules = rules
  size : m.memory.size = image.size
  frames : m.calls.Grounded m.story.header.initialPc.toNat limit
  pc : m.pc ≤ limit
  tables : m.TablesInMemory

variable {image : Memory} {rules : Rules} {limit : Nat} {m m' : Machine}

/-- A new machine is intact. -/
theorem intact_start {story : Story} (hload : Story.load image = .ok story)
    (hpc : story.header.initialPc.toNat ≤ limit) (entropy : UInt64) :
    (start story rules entropy).Intact image rules limit where
  story := hload
  rules := rfl
  size := congrArg Memory.size (Story.of_load hload).1
  frames := CallStack.grounded_main _ _
  pc := hpc
  tables := nofun

/-- Work within a routine keeps a machine intact. -/
theorem intact_within (h : m.Intact image rules limit) (hlimit : image.size ≤ limit)
    (hm : m.Within m') : m'.Intact image rules limit where
  story := by rw [hm.story, h.story]
  rules := hm.rules.trans h.rules
  size := hm.size.trans h.size
  frames := by
    rw [hm.story]
    exact h.frames.of_same hm.callers hm.top
  pc := by
    have hpc := hm.pc
    rw [h.size] at hpc
    exact Nat.le_trans hpc (Nat.max_le.mpr ⟨h.pc, hlimit⟩)
  tables := hm.tables h.tables

/-- So do the transfers of control. -/
theorem intact_turn (h : m.Intact image rules limit) (hlimit : image.size ≤ limit)
    (hpc : m.story.header.initialPc.toNat ≤ limit) (hm : m.Turn m') :
    m'.Intact image rules limit := by
  cases hm with
  | stay => exact h
  | jump ha =>
      refine ⟨h.story, h.rules, h.size, h.frames, ?_, h.tables⟩
      rw [h.size] at ha
      exact Nat.le_trans (Nat.le_of_lt ha) hlimit
  -- The place to return to was the pc of a machine in order when the routine was called.
  | leave hpop =>
      obtain ⟨hframes, hcalled⟩ := h.frames.pop hpop
      exact ⟨h.story, h.rules, h.size, hframes, hcalled.returnAddress, h.tables⟩
  | enter heven hnonzero hlocals hback ha =>
      refine ⟨h.story, h.rules, h.size, h.frames.push ?_, ?_, h.tables⟩
      · exact ⟨heven, hnonzero, hlocals, Frame.length_locals_le_values _, hback ▸ h.pc⟩
      · rw [h.size] at ha
        exact Nat.le_trans ha hlimit
  | restart hsize =>
      exact ⟨h.story, h.rules, hsize.trans h.size, CallStack.grounded_main _ _, hpc, nofun⟩

end Machine

/-! ## Runs -/

namespace Machine

variable {δ : Type} [Device δ] {image : Memory} {rules : Rules} {limit : Nat}

/-- The machines that steps lead to, whether they succeed or fail; before each of them the
    device may be in any state. -/
inductive Reached (δ : Type) [Device δ] (m₀ : Machine) : Machine → Prop where
  | start : Reached δ m₀ m₀
  | step {m : Machine} (reached : Reached δ m₀ m) (device : δ) :
      Reached δ m₀ (Session.step ⟨m, device⟩).2.machine

/-- A step keeps a machine in order. -/
theorem intact_step {s : Session δ} (h : s.machine.Intact image rules limit)
    (hlimit : image.size ≤ limit) (hpc : s.machine.story.header.initialPc.toNat ≤ limit) :
    (Session.step s).2.machine.Intact image rules limit := by
  obtain ⟨m', ⟨m₁, m₂, h₁, hturn, h₂⟩, hm'⟩ := Session.step_advance s
  have hm₁ := intact_within h hlimit h₁
  have hm₂ := intact_turn hm₁ hlimit (h₁.story ▸ hpc) hturn
  have hm := intact_within hm₂ hlimit h₂
  rcases hm' with hm' | hm'
  · rw [hm']
    exact hm
  · rw [hm']
    exact ⟨hm.story, hm.rules, hm.size, hm.frames, hm.pc, hm.tables⟩

/-- Whatever is reached from a loaded machine is in order. -/
theorem Reached.intact {entropy : UInt64} {m₀ m : Machine} (h : Reached δ m₀ m)
    (hload : load image rules entropy = .ok m₀) (hlimit : image.size ≤ limit)
    (hpc : m₀.story.header.initialPc.toNat ≤ limit) : m.Intact image rules limit := by
  obtain ⟨story, hstory, rfl⟩ := exists_story_of_load hload
  induction h with
  | start => exact intact_start hstory hpc entropy
  | step _ device ih =>
      refine intact_step ih hlimit ?_
      -- The story is the one that was loaded, so it starts where that did.
      cases ih.story.symm.trans hstory
      exact hpc

/-- Every machine that is reached from a loaded one runs the story that was loaded under the
    rules that were given, and its frames, its pc and its tables are in order. -/
theorem reached_in_order {entropy : UInt64} {m₀ m : Machine}
    (hload : load image rules entropy = .ok m₀)
    (hpc : m₀.story.header.initialPc.toNat ≤ image.size) (h : Reached δ m₀ m) :
    m.story = m₀.story ∧ m.story.image = image ∧ m.rules = rules ∧
    m.story.names.length = m.story.objects.count ∧
    m.memory.size = image.size ∧ m.pc ≤ m.memory.size ∧
    (∀ table ∈ m.streams.tables, table + 2 ≤ m.memory.size) ∧
    ∃ called main, m.calls.frames = called ++ [main] ∧
      main.IsMain m₀.story.header.initialPc.toNat ∧ ∀ f ∈ called, f.IsCalled m.memory.size := by
  have hm := h.intact hload (Nat.le_refl image.size) hpc
  have hm₀ := Reached.start.intact (δ := δ) hload (Nat.le_refl image.size) hpc
  have hstory : m.story = m₀.story := Except.ok.inj (hm.story.symm.trans hm₀.story)
  obtain ⟨himage, -, hnames⟩ := Story.of_load hm.story
  have hframes := hm.frames
  rw [hstory, ← hm.size] at hframes
  refine ⟨hstory, himage, hm.rules, hnames, hm.size, ?_, fun t ht => (hm.tables t ht).2, hframes⟩
  rw [hm.size]
  exact hm.pc

/-- Two steps of the small story make two calls. -/
theorem nested_reached_in_order :
    let m := (Session.step (Session.step nestedSession).2).2.machine
    m.calls.depth = 3 ∧ m.memory.size = 88 ∧ m.pc ≤ m.memory.size ∧
      ∃ called main, m.calls.frames = called ++ [main] ∧ main.IsMain 64 ∧
        ∀ f ∈ called, f.IsCalled m.memory.size := by
  obtain ⟨-, -, -, -, hsize, hpc, -, hframes⟩ := reached_in_order load_nestedCalls (by decide)
    (.step (.step .start nestedSession.device) (Session.step nestedSession).2.device)
  exact ⟨by decide +kernel, hsize, hpc, hframes⟩

end Machine

end ZMachine
