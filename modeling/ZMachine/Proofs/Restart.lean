import ZMachine.Proofs.Agreement
import ZMachine.Proofs.Bytes
import ZMachine.Proofs.Invariant

/-! # Restarts

    A restart puts the dynamic part of memory back as it was loaded, the pc to
    where the story starts, the frames to the main routine alone and the
    streams to the screen. What it leaves alone is the memory above, the
    generator and the count of instructions, and that a story has quit. So if a
    story has not quit and has written no static memory, a restart leaves the
    machine that was loaded, and all that follows is what a new machine does.

    * `step_of_restart`: the step that executes a restart;
    * `not_quit_of_after`: only `quit` makes a story quit;
    * `Session.repeats`: machines that differ in the count alone run alike;
    * `restart_starts_again`: whole runs. -/

namespace ZMachine

open ZMachine.Action

/-- An image that is not larger than memory can be restored. -/
theorem Memory.restorePrefix_eq_ok {image : Array UInt8} {m : Memory} (h : image.size ≤ m.size) :
    ∃ m', restorePrefix image m = (.ok (), m') ∧
      ∀ a, m'.bytes[a]? = if a < image.size then image[a]? else m.bytes[a]? := by
  obtain ⟨m', hrestore, hwritten⟩ := restorePrefix_eq h
  refine ⟨m', hrestore, ?_⟩
  intro a
  by_cases ha : a < image.size
  · have hbyte : image.toList[a]? = some image[a] := by
      rw [Array.getElem?_toList, Array.getElem?_eq_getElem ha]
    have hheld := byteAt_eq_ok.mp (hwritten.holds a _ hbyte)
    rw [Nat.zero_add] at hheld
    rw [if_pos ha, Array.getElem?_eq_getElem ha, hheld]
  · rw [if_neg ha]
    refine hwritten.unchanged a (.inr ?_)
    rw [Array.length_toList, Nat.zero_add]
    exact Nat.le_of_not_lt ha

namespace Machine

variable {m : Machine} {image : Memory} {rules : Rules} {entropy : UInt64}

/-- The machine in a given memory at the start of its story, whatever it was doing. -/
def rewound (m : Machine) (memory : Memory) : Machine :=
  { m with
    memory
    pc := m.story.header.initialPc.toNat
    calls := { top := Frame.main m.story.header.initialPc.toNat }
    streams := {} }

/-- A restart takes the dynamic part of memory from the image and leaves the rest. -/
theorem restart_eq_ok (hheader : Header.length ≤ m.story.image.size)
    (hsize : m.memory.size = m.story.image.size) :
    ∃ memory, restart m = (.ok (), m.rewound memory) ∧
      ∀ a, memory.bytes[a]? =
        if a < dynamicSize m.story then m.story.image.bytes[a]? else m.memory.bytes[a]? := by
  -- Dynamic memory is a part of the image, so that all of it is copied.
  have hdynamic : (m.story.image.bytes.extract 0 (dynamicSize m.story)).size =
      dynamicSize m.story := by
    rw [Array.size_extract, Nat.sub_zero]
    exact Nat.min_eq_left (Nat.min_le_right _ _)
  have hfits : (m.story.image.bytes.extract 0 (dynamicSize m.story)).size ≤ m.memory.size := by
    rw [hdynamic, hsize]
    exact Nat.min_le_right _ _
  obtain ⟨memory, hrestore, hbytes⟩ := Memory.restorePrefix_eq_ok hfits
  refine ⟨memory, ?_, ?_⟩
  · rw [restart_eq, if_neg (Nat.not_lt.mpr hheader), hrestore]
    rfl
  · intro a
    rw [hbytes a, hdynamic]
    by_cases ha : a < dynamicSize m.story
    · rw [Array.size_extract] at hdynamic
      rw [if_pos ha, if_pos ha, Array.getElem?_extract, hdynamic, if_pos ha, Nat.zero_add]
    · rw [if_neg ha, if_neg ha]

/-- The machine is at the start of the story of an image, whatever its generator. -/
structure AtStart (image : Memory) (rules : Rules) (m : Machine) : Prop where
  story : Story.load image = .ok m.story
  rules : m.rules = rules
  memory : m.memory = image
  pc : m.pc = m.story.header.initialPc.toNat
  calls : m.calls = { top := Frame.main m.story.header.initialPc.toNat }
  streams : m.streams = {}
  quit : m.quit = false
  count : m.count = 0

/-- A new machine is at its start. -/
theorem atStart_of_load (h : load image rules entropy = .ok m) : m.AtStart image rules := by
  obtain ⟨story, hstory, rfl⟩ := exists_story_of_load h
  exact ⟨hstory, rfl, (Story.of_load hstory).1, rfl, rfl, rfl, rfl, rfl⟩

/-- A machine that has not quit is at the start once it is rewound in the memory of the image. -/
theorem rewound_eq {m₀ : Machine} (h₀ : m₀.AtStart image rules) (hstory : m.story = m₀.story)
    (hrules : m.rules = rules) (hquit : m.quit = false) :
    m.rewound image =
      { m₀ with random := m.random, entropy := m.entropy, count := m.count } := by
  simp only [rewound, hstory, hrules, hquit, h₀.rules, h₀.memory, h₀.pc, h₀.calls, h₀.streams,
    h₀.quit]

/-- What is aside is the same, and the story has not quit. -/
structure BothRunning (a b : Aside) : Prop where
  same : a = b
  running : a.quit = false

/-- Only one instruction makes a machine quit. -/
theorem steady_of_not_quit (h : ¬ m.Executes (.zero .quit)) : m.Steady BothRunning := by
  have hstack : SameStack BothRunning := by
    rintro a _ ⟨rfl, -⟩
    rfl
  have hdraws : SameDraws BothRunning := by
    constructor
    · rintro a _ ⟨rfl, -⟩
      rfl
    · rintro a _ e ⟨rfl, hrunning⟩
      exact ⟨rfl, hrunning⟩
  refine ⟨fun _ _ _ _ => hstack, ?_⟩
  intro op operands hnext
  refine ⟨?_, fun _ _ _ _ => hstack, fun _ => hstack, fun _ _ => hdraws⟩
  rintro rfl
  exact absurd ⟨operands, hnext⟩ h

/-- What is aside is the same except for the count, which is ahead in the first. -/
def AheadBy (n : Nat) (a b : Aside) : Prop := a = { b with count := b.count + n }

/-- No instruction looks at the count. -/
theorem steady_aheadBy (n : Nat) (m : Machine) : m.Steady (AheadBy n) := by
  refine steady_of_same ?_ ⟨?_, ?_⟩ ?_ m
  · rintro _ b rfl
    rfl
  · rintro _ b rfl
    rfl
  · rintro _ b e rfl
    rfl
  · rintro _ b rfl
    rfl

/-- To be ahead is to be the same but for the count. -/
theorem alike_aheadBy_iff {m' : Machine} {n : Nat} :
    m.Alike (AheadBy n) m' ↔ m = { m' with count := m'.count + n } := by
  constructor
  · rintro ⟨b, hb, rfl⟩
    have hrules : m.rules = b.rules := congrArg Aside.rules hb
    have hentropy : m.entropy = b.entropy := congrArg Aside.entropy hb
    have hquit : m.quit = b.quit := congrArg Aside.quit hb
    have hcount : m.count = b.count + n := congrArg Aside.count hb
    show m = { m with
      rules := b.rules, entropy := b.entropy, quit := b.quit, count := b.count + n }
    rw [← hrules, ← hentropy, ← hquit, ← hcount]
  · rintro rfl
    exact ⟨m'.aside, rfl, rfl⟩

end Machine

namespace Session

open Machine

variable {δ ε : Type} [Device δ] [Device ε] {image : Memory} {rules : Rules} {entropy : UInt64}
  {s s₀ : Session δ}

/-- The step that executes a restart. -/
theorem step_of_restart (h : s.machine.Executes (.zero .restart))
    (hheader : Header.length ≤ s.machine.story.image.size)
    (hsize : s.machine.memory.size = s.machine.story.image.size) :
    ∃ memory, step s = (.ok (),
        ⟨{ s.machine.rewound memory with count := s.machine.count + 1 }, s.device⟩) ∧
      ∀ a, memory.bytes[a]? = if a < dynamicSize s.machine.story then
        s.machine.story.image.bytes[a]? else s.machine.memory.bytes[a]? := by
  obtain ⟨operands, hnext⟩ := h
  -- Decoding moves the pc and reading operands touches the running frame: a restart resets both.
  obtain ⟨i, f, -, hop, hstep⟩ := step_eq_execute hnext
  obtain ⟨memory, hrestart, hbytes⟩ := restart_eq_ok
    (m := { s.machine with pc := s.machine.pc + i.size, calls := s.machine.calls.withTop f })
    hheader hsize
  refine ⟨memory, ?_, hbytes⟩
  have hexecute : (execute i operands : Action (Session δ) Unit) = onMachine restart := by
    simp only [execute, hop, executeZero]
  have hmachine : onMachine restart (⟨_, s.device⟩ : Session δ) =
      (.ok (), ⟨s.machine.rewound memory, s.device⟩) := onMachine_eq_iff.mpr ⟨hrestart, rfl⟩
  rw [hstep, hexecute]
  exact Action.bind_of_ok hmachine

/-- Steps lead to states that can be reached. -/
theorem reached_after (s₀ : Session δ) (n : Nat) :
    Machine.Reached δ s₀.machine (after n s₀).machine := by
  induction n with
  | zero => exact .start
  | succ n ih =>
      rw [after_succ]
      exact .step ih (after n s₀).device

/-- Along a run the story and the rules are those that were loaded, and so is the size of
    memory. -/
theorem loaded_of_after (hload : load image rules entropy = .ok s₀.machine) (n : Nat) :
    (after n s₀).machine.story = s₀.machine.story ∧ (after n s₀).machine.rules = rules ∧
      (after n s₀).machine.memory.size = image.size := by
  have hm := (reached_after s₀ n).intact hload (Nat.le_max_left image.size _)
    (Nat.le_max_right _ _)
  exact ⟨Except.ok.inj (hm.story.symm.trans (atStart_of_load hload).story), hm.rules, hm.size⟩

/-- A restart that a run comes to. -/
theorem step_of_restart_after (hload : load image rules entropy = .ok s₀.machine) {n : Nat}
    (hrestart : (after n s₀).machine.Executes (.zero .restart)) :
    ∃ memory, step (after n s₀) = (.ok (),
        ⟨{ (after n s₀).machine.rewound memory with count := (after n s₀).machine.count + 1 },
          (after n s₀).device⟩) ∧
      ∀ a, memory.bytes[a]? = if a < dynamicSize s₀.machine.story then image.bytes[a]?
        else (after n s₀).machine.memory.bytes[a]? := by
  obtain ⟨hstory, -, hsize⟩ := loaded_of_after hload n
  obtain ⟨himage, hheader, -⟩ := Story.of_load (atStart_of_load hload).story
  have h := step_of_restart hrestart
  rw [hstory, himage, hsize] at h
  exact h hheader rfl

/-- A story that has not executed `quit` has not quit. -/
theorem not_quit_of_after {n : Nat} (hs : s.machine.quit = false)
    (h : ∀ k < n, ¬ (after k s).machine.Executes (.zero .quit)) :
    (after n s).machine.quit = false := by
  have hcount (a b : Aside) (hab : BothRunning a b) :
      BothRunning { a with count := a.count + 1 } { b with count := b.count + 1 } := by
    obtain ⟨rfl, hrunning⟩ := hab
    exact ⟨rfl, hrunning⟩
  have hself : Alike BothRunning Eq s s := ⟨⟨s.machine.aside, ⟨rfl, hs⟩, rfl⟩, rfl⟩
  have hsteady (k : Nat) (hk : k < n) := steady_of_not_quit (h k hk)
  obtain ⟨⟨a, hrunning, -⟩, -⟩ := alike_after Device.agree_eq hcount hself hsteady
  exact hrunning.running

/-- The first session goes on as the second one does: each step has the same result, and after
    it the machines are the same but for a count that is ahead by `n`. -/
def Repeats (D : δ → ε → Prop) (n : Nat) (s : Session δ) (t : Session ε) : Prop :=
  ∀ k, (step (after k s)).1 = (step (after k t)).1 ∧
    (after k s).machine =
      { (after k t).machine with count := (after k t).machine.count + n } ∧
    D (after k s).device (after k t).device

/-- Nothing that a step does depends on the count of instructions. -/
theorem repeats {D : δ → ε → Prop} (hD : Device.Agree D) {t : Session ε} {n : Nat}
    (hmachine : s.machine = { t.machine with count := t.machine.count + n })
    (hdevice : D s.device t.device) : Repeats D n s t := by
  have hcount (a b : Aside) (hab : AheadBy n a b) :
      AheadBy n { a with count := a.count + 1 } { b with count := b.count + 1 } := by
    cases hab
    show Aside.mk b.rules b.entropy b.quit (b.count + n + 1) = ⟨_, _, _, b.count + 1 + n⟩
    rw [Nat.add_right_comm]
  have hst : Alike (AheadBy n) D s t := ⟨alike_aheadBy_iff.mpr hmachine, hdevice⟩
  intro k
  have hk : Alike (AheadBy n) D (after k s) (after k t) :=
    alike_after hD hcount hst fun j _ => steady_aheadBy n _
  exact ⟨(agreeAt_step hD hcount hk (steady_aheadBy n _)).1, alike_aheadBy_iff.mp hk.1, hk.2⟩

/-- Bytes that no step changes are as they were at the start. -/
theorem getElem?_of_after {n low : Nat}
    (h : ∀ k < n, ∀ a, low ≤ a → (after (k + 1) s).machine.memory.bytes[a]? =
      (after k s).machine.memory.bytes[a]?) {a : Nat} (ha : low ≤ a) :
    (after n s).machine.memory.bytes[a]? = s.machine.memory.bytes[a]? := by
  induction n with
  | zero => rfl
  | succ n ih =>
      rw [h n (Nat.lt_succ_self n) a ha]
      exact ih fun k hk => h k (Nat.lt_succ_of_lt hk)

/-- A restart that a run from the start of a story comes to puts pc, frames and streams back to
    the start, and memory below the static part, whatever the run has done. If the run has not
    executed `quit` and no step of it has changed static memory, the machine is the one that
    was loaded, but for the generator and the count, and it goes on as a new machine does that
    is given a generator in that state and a device that answers as the present one. -/
theorem restart_starts_again (hload : load image rules entropy = .ok s₀.machine) {n : Nat}
    (hrestart : (after n s₀).machine.Executes (.zero .restart)) :
    let s := after n s₀
    let t := (step s).2
    ((step s).1 = .ok () ∧ t.device = s.device ∧ t.machine.pc = s₀.machine.pc ∧
      t.machine.calls = s₀.machine.calls ∧ t.machine.streams = s₀.machine.streams ∧
      ∀ a, t.machine.memory.bytes[a]? = if a < dynamicSize s₀.machine.story then image.bytes[a]?
        else s.machine.memory.bytes[a]?) ∧
    ((∀ k < n, ¬ (after k s₀).machine.Executes (.zero .quit)) →
      (∀ k < n, ∀ a, dynamicSize s₀.machine.story ≤ a →
        (after (k + 1) s₀).machine.memory.bytes[a]? = (after k s₀).machine.memory.bytes[a]?) →
      let fresh : Machine :=
        { s₀.machine with random := s.machine.random, entropy := s.machine.entropy }
      t.machine = { fresh with count := s.machine.count + 1 } ∧
      ∀ (ε : Type) [Device ε] (D : δ → ε → Prop) (device : ε), Device.Agree D →
        D s.device device → Repeats D t.machine.count t ⟨fresh, device⟩) := by
  intro s t
  obtain ⟨memory, hstep, hbytes⟩ := step_of_restart_after hload hrestart
  obtain ⟨hstory, hrules, -⟩ := loaded_of_after hload n
  have h₀ := atStart_of_load hload
  have ht : t = ⟨{ s.machine.rewound memory with count := s.machine.count + 1 }, s.device⟩ :=
    congrArg Prod.snd hstep
  refine ⟨⟨congrArg Prod.fst hstep, ?_⟩, ?_⟩
  · rw [ht, rewound, show s.machine.story = s₀.machine.story from hstory]
    exact ⟨rfl, h₀.pc.symm, h₀.calls.symm, h₀.streams.symm, hbytes⟩
  · intro hquit hstatic fresh
    -- Dynamic memory is restored, and the rest has not been written to since the start.
    have hmemory : memory = image := by
      refine Memory.eq_of_getElem? fun a => ?_
      rw [hbytes a]
      split
      · rfl
      · next ha =>
          rw [← h₀.memory]
          exact getElem?_of_after hstatic (Nat.not_lt.mp ha)
    have hmachine : t.machine = { fresh with count := s.machine.count + 1 } := by
      rw [ht, hmemory, rewound_eq h₀ hstory hrules (not_quit_of_after h₀.quit hquit)]
    refine ⟨hmachine, ?_⟩
    intro ε _ D device hD hdevice
    -- The count is all that the two machines differ in.
    refine repeats hD ?_ ?_
    · show t.machine = { fresh with count := s₀.machine.count + t.machine.count }
      rw [h₀.count, Nat.zero_add, hmachine]
    · rw [ht]
      exact hdevice

end Session

/-! ## A story that restarts -/

/-- The first device is as far as the second, except that it had printed something before. -/
structure Scripted.Resumes (printed : String) (d d' : Scripted) : Prop where
  input : d.input = d'.input
  output : d.output = printed ++ d'.output

/-- A script goes on alike, whatever has been printed before. -/
theorem Scripted.agree_resumes (printed : String) : Device.Agree (Resumes printed) where
  print text := by
    rintro d d' ⟨hinput, houtput⟩
    refine ⟨rfl, hinput, ?_⟩
    show d.output ++ text = printed ++ (d'.output ++ text)
    rw [houtput, String.append_assoc]
  readLine := by
    rintro ⟨input, output, status⟩ ⟨_, output', status'⟩ ⟨rfl, houtput⟩
    cases input with
    | nil => exact ⟨rfl, rfl, houtput⟩
    | cons line rest => exact ⟨rfl, rfl, houtput⟩
  showStatus location right := by
    rintro d d' ⟨hinput, houtput⟩
    exact ⟨rfl, hinput, houtput⟩

namespace Session

open Machine

/-- A story whose main routine calls another one, which prints a line feed, counts it in a
    global variable, opens a table for text over that and restarts. The global variable is at 64.
    Static memory begins at 66 with the main routine, and has an empty dictionary at 72 and the
    other routine at 76. -/
def again : Memory :=
  ⟨#[3, 0, 0, 0, 0, 0, 0, 66, 0, 72, 16, 0, 0, 64, 0, 66, 0, 0, 56, 55, 48, 49, 48, 49,
     0, 0, 0, 0, 0, 0, 0, 0, 0, 0, 0, 0, 0, 0, 0, 0, 0, 0, 0, 0, 0, 0, 0, 0, 0, 0, 0, 0, 0, 0, 0, 0,
     0, 0, 0, 0, 0, 0, 0, 0,
     0, 0,
     0xE0, 0x3F, 0, 38, 0, 0xBA,
     0, 0, 0, 0,
     0, 0xBB, 0x95, 16, 0xF3, 0x5F, 3, 64, 0xB7]⟩

/-- What is read from the story when it is loaded. -/
def againStory : Story where
  image := again
  header :=
    { version := 3, flags := 0, release := 0, highMemory := 0, initialPc := 66, dictionary := 72
      objects := 4096, globals := 64, staticMemory := 66, serial := "870101"
      abbreviations := 0, fileLength := 0, checksum := 0 }
  objects := { defaults := 4096, count := 0 }
  names := []
  dictionary :=
    { address := 72, separators := [], entryLength := 0, entryCount := 0, entries := 76 }

/-- The story at its start, on a device without input. -/
def againSession : Session Scripted := ⟨start againStory {} 0, {}⟩

/-- The sample story loads. -/
theorem load_again : load again {} 0 = .ok againSession.machine :=
  load_of_story (Story.load_of_parts (s := againStory) rfl rfl rfl rfl) {} 0

/-- The fifth step of the story is a restart, before which a routine was running, a table was
    open and a line feed had been printed. After it the story prints what a new machine prints. -/
theorem again_starts_again :
    (after 4 againSession).machine.calls.depth = 2 ∧
      (after 4 againSession).machine.streams.tables = [64] ∧
      ∃ fresh : Session Scripted,
        fresh = ⟨{ againSession.machine with
          random := (after 4 againSession).machine.random
          entropy := (after 4 againSession).machine.entropy }, {}⟩ ∧
        Repeats (Scripted.Resumes "\n") (step (after 4 againSession)).2.machine.count
          (step (after 4 againSession)).2 fresh := by
  have hrestart : (after 4 againSession).machine.Executes (.zero .restart) :=
    ⟨[], by decide +kernel⟩
  have hquit : ∀ k < 4, ¬ (after k againSession).machine.Executes (.zero .quit) := by
    have hnext : ∀ k < 4, ((after k againSession).machine.next?.all
        fun r => r.1 != .zero .quit) = true := by decide +kernel
    rintro k hk ⟨operands, hoperands⟩
    have hk := hnext k hk
    rw [hoperands] at hk
    cases hk
  -- Nothing from byte 66 on changes; the bytes before it are dynamic.
  have hstatic : ∀ k < 4, ∀ a, 66 ≤ a →
      (after (k + 1) againSession).machine.memory.bytes[a]? =
        (after k againSession).machine.memory.bytes[a]? := by
    have hdrop : ∀ k < 4, (after (k + 1) againSession).machine.memory.bytes.toList.drop 66 =
        (after k againSession).machine.memory.bytes.toList.drop 66 := by decide +kernel
    intro k hk a ha
    have hbyte := congrArg (·[a - 66]?) (hdrop k hk)
    rw [List.getElem?_drop, List.getElem?_drop, Nat.add_sub_cancel' ha] at hbyte
    rw [← Array.getElem?_toList, ← Array.getElem?_toList]
    exact hbyte
  obtain ⟨-, hagain⟩ := restart_starts_again load_again hrestart
  obtain ⟨-, hrepeats⟩ := hagain hquit hstatic
  have hresumes : Scripted.Resumes "\n" (after 4 againSession).device {} :=
    ⟨by decide +kernel, by decide +kernel⟩
  have hdepth : (after 4 againSession).machine.calls.depth = 2 := by decide +kernel
  have htables : (after 4 againSession).machine.streams.tables = [64] := by decide +kernel
  exact ⟨hdepth, htables, _, rfl,
    hrepeats Scripted _ {} (Scripted.agree_resumes "\n") hresumes⟩

end Session

end ZMachine
