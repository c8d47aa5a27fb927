import ZMachine.Device.Scripted
import ZMachine.Proofs.Agreement
import ZMachine.Proofs.Wire

/-! # Devices are interchangeable

    A story runs alike on a scripted device, on a remote terminal and on a
    framed channel that are given the same lines: the machines go through the
    same states, and what is printed is the same text, which the terminal sends
    with a carriage return before every line feed and the channel in messages.

    * `Terminal.agree`, `Channel.agree`: the two devices answer as a scripted
      device does;
    * `Session.devices_interchangeable`: whole runs. -/

namespace ZMachine

/-- A line has no endings that could be cut off. -/
theorem Terminal.IsLine.trimLineEnding_eq {line : String} (h : IsLine line) :
    trimLineEnding line = line := by
  have hkeep : line.toList.reverse.dropWhile isLineEnding = line.toList.reverse := by
    cases hline : line.toList.reverse with
    | nil => rfl
    | cons c cs =>
        have hc : c ∈ line.toList := by
          rw [← List.mem_reverse, hline]
          exact List.mem_cons_self
        have hfeed : c ≠ '\n' := fun heq => h.noFeed (heq ▸ hc)
        have hreturn : c ≠ '\r' := fun heq => h.noReturn (heq ▸ hc)
        have hending : ¬ isLineEnding c = true := by
          simp only [isLineEnding, Bool.or_eq_true, beq_iff_eq]
          exact fun h => h.elim hfeed hreturn
        rw [List.dropWhile_cons, if_neg hending]
  rw [trimLineEnding, hkeep, List.reverse_reverse, String.ofList_toList]

/-! ## The terminal -/

namespace Terminal

/-- The bytes of lines as they are typed, each with a carriage return and a line feed. -/
def typing (lines : List String) : List UInt8 :=
  lines.flatMap fun line => Utf8.encode line.toList ++ [13, 10]

/-- A terminal that has the same input before it as a scripted device, and has sent the same
    text. After a line the line feed that belongs to it is still to come. -/
structure Follows (d : Scripted) (t : Terminal) : Prop where
  lines : ∀ line ∈ d.input, Terminal.IsLine line
  flows : t.source.Flows
  pending : t.buffer ++ t.source.bytes =
    (if t.afterReturn then [10] else []) ++ typing d.input
  unlimited : t.sink.limit = none
  written : t.sink.written.toList = insertReturns (Utf8.encode d.output.toList)

/-- Printed text keeps a device in step with the script. -/
theorem Follows.agree_print (text : String) :
    Action.Agree Follows (Device.print text) (Device.print text) := by
  intro d t h
  obtain ⟨k, hwrite, hk, hwritten⟩ :=
    ByteSink.write_of_unlimited h.unlimited (Utf8.encode (withReturns text))
  have hsend : (Device.print text : Action Terminal Unit) t = (.ok (), { t with sink := k }) := by
    show send (Utf8.encode (withReturns text)) t = _
    simp only [send, hwrite]
  refine .of_eq rfl hsend ⟨h.lines, h.flows, h.pending, hk, ?_⟩
  show k.written.toList = insertReturns (Utf8.encode (d.output ++ text).toList)
  rw [hwritten, h.written, encode_withReturns, String.toList_append, Utf8.encode_append,
    insertReturns_append]

/-- A line feed that is still to be skipped does not belong to the next line. -/
theorem finishLine_pending (r : Bool) (bs : List UInt8) :
    finishLine r ((if r then [10] else []) ++ bs) = bs := by
  cases r with
  | false => rfl
  | true => rfl

/-- A line that is read is the next line of the script. -/
theorem Follows.agree_readLine : Action.Agree Follows Device.readLine Device.readLine := by
  intro d t h
  have hholds : t.Holds ((if t.afterReturn then [10] else []) ++ typing d.input)
      t.afterReturn t.sink := ⟨h.flows, h.pending, rfl, rfl⟩
  obtain ⟨t', hread, h'⟩ := readBytes_eq hholds
  rw [finishLine_pending] at hread h'
  -- Whatever the script holds, a line is cut off what has been typed.
  have hline : (Device.readLine : Action Terminal String) t =
      (.ok (Utf8.decodeLossy ((cutLine (typing d.input)).1.take maxLine)), t') :=
    Action.bind_of_ok hread
  have hwritten := h.written
  have hunlimited := h.unlimited
  rw [← h'.sink] at hwritten hunlimited
  obtain ⟨input, output, status⟩ := d
  cases input with
  | nil =>
      refine .of_eq rfl hline ⟨h.lines, h'.flows, ?_, hunlimited, hwritten⟩
      rw [h'.afterReturn]
      exact h'.bytes
  | cons line rest =>
      have htyped := h.lines line List.mem_cons_self
      -- The line feed is left behind, to be skipped by the next read.
      have hcut : cutLine (typing (line :: rest)) =
          (Utf8.encode line.toList, true, 10 :: typing rest) := by
        have hbytes : typing (line :: rest) =
            Utf8.encode line.toList ++ 13 :: (10 :: typing rest) := by
          simp only [typing, List.flatMap_cons, List.append_assoc, List.cons_append,
            List.nil_append]
        rw [hbytes, cutLine_append (fun b hb => htyped.ne_ending hb), cutLine, if_neg (by decide),
          if_pos rfl, List.append_nil]
      rw [hcut] at h'
      rw [hcut, List.take_of_length_le htyped.short, Utf8.decodeLossy_encode,
        String.ofList_toList] at hline
      refine .of_eq rfl hline ⟨fun l hl => h.lines l (List.mem_cons_of_mem line hl), h'.flows, ?_,
        hunlimited, hwritten⟩
      rw [h'.afterReturn]
      exact h'.bytes

/-- A terminal answers as a scripted device does. -/
theorem agree : Device.Agree Follows where
  print := Follows.agree_print
  readLine := Follows.agree_readLine
  showStatus _ _ := by
    intro d t h
    exact ⟨rfl, h.lines, h.flows, h.pending, h.unlimited, h.written⟩

end Terminal

/-! ## The channel -/

namespace Message

/-- The characters that a message prints. -/
def printed : Message → List Char
  | text data => data.toList
  | status _ _ => []
  | close => []

end Message

namespace Channel

/-- An escaped character takes up at most six times its bytes. -/
theorem length_encode_escapeChar (c : Char) :
    (Utf8.encode (Json.escapeChar c)).length ≤ 6 * (String.utf8EncodeChar c).length := by
  have hpos : 0 < (String.utf8EncodeChar c).length := by
    rw [String.length_utf8EncodeChar]
    exact c.utf8Size_pos
  unfold Json.escapeChar
  -- Seven characters are escaped by a letter, in two bytes.
  iterate 7
    split
    · show 2 ≤ _
      omega
  split
  · next hcontrol =>
      have hall : ∀ n < 32,
          (Utf8.encode (['\\', 'u', '0', '0'] ++ Json.hexPair n)).length = 6 := by decide
      rw [hall _ hcontrol]
      omega
  · rw [Utf8.encode_cons, Utf8.encode_nil, List.append_nil]
    omega

/-- Escaping makes a text at most six times as long. -/
theorem length_encode_escape (cs : List Char) :
    (Utf8.encode (cs.flatMap Json.escapeChar)).length ≤ 6 * (Utf8.encode cs).length := by
  induction cs with
  | nil => exact Nat.zero_le _
  | cons c cs ih =>
      have hchar := length_encode_escapeChar c
      rw [List.flatMap_cons, Utf8.encode_append, Utf8.encode_cons, List.length_append,
        List.length_append]
      omega

/-- So a message takes up at most six times the bytes of its text, and its frame. -/
theorem length_encode_text (data : String) :
    (Utf8.encode (Message.text data).render).length ≤
      6 * (Utf8.encode data.toList).length + 25 := by
  have hescape := length_encode_escape data.toList
  rw [length_encode_render_text]
  omega

/-- The bytes of lines as they are sent, each in a message of its own. -/
def sending (lines : List String) : List UInt8 :=
  lines.flatMap fun line => frame (.text line)

/-- A channel that has the same input before it as a scripted device, and has sent the same
    text. -/
structure Follows (d : Scripted) (c : Channel) : Prop where
  lines : ∀ line ∈ d.input, Terminal.IsLine line
  flows : c.source.Flows
  pending : c.source.bytes = sending d.input
  unlimited : c.sink.limit = none
  written : ∃ messages : List Message, c.sink.written.toList = messages.flatMap frame ∧
    d.output.toList = messages.flatMap Message.printed

/-- A message that is sent adds what it prints. -/
theorem Follows.send {d : Scripted} {c : Channel} (h : Follows d c) (m : Message) (output : String)
    (houtput : output.toList = d.output.toList ++ m.printed) (status : Option (String × String)) :
    ∃ c', onSink (writeMessage m) c = (.ok (), c') ∧ Follows ⟨d.input, output, status⟩ c' := by
  obtain ⟨k, hwrite, hk, hwritten⟩ := writeMessage_eq h.unlimited m
  obtain ⟨messages, hmessages, hprinted⟩ := h.written
  refine ⟨{ c with sink := k }, ?_, h.lines, h.flows, h.pending, hk, messages ++ [m], ?_, ?_⟩
  · simp only [onSink, hwrite]
  · show k.written.toList = _
    rw [hwritten, hmessages, List.flatMap_append, List.flatMap_singleton]
  · show output.toList = _
    rw [houtput, hprinted, List.flatMap_append, List.flatMap_singleton]

theorem Follows.agree_readLine : Action.Agree Follows Device.readLine Device.readLine := by
  intro d c h
  obtain ⟨input, output, status⟩ := d
  cases input with
  | nil =>
      obtain ⟨source, hread, hflows, hbytes⟩ := readMessage_nil h.flows h.pending
      have hsource : onSource readMessage c = (.ok none, { c with source }) := by
        simp only [onSource, hread]
      have hline : (Device.readLine : Action Channel String) c = (.ok "", { c with source }) :=
        Action.bind_of_ok hsource
      exact .of_eq rfl hline ⟨h.lines, hflows, hbytes, h.unlimited, h.written⟩
  | cons line rest =>
      have htyped := h.lines line List.mem_cons_self
      -- Even if every byte of the line is escaped, the message is not too long.
      have hbound : (Utf8.encode (Message.text line).render).length ≤ maxMessage := by
        have hlength := length_encode_text line
        have hshort : (Utf8.encode line.toList).length ≤ 1024 := htyped.short
        show _ ≤ 0x100000
        omega
      obtain ⟨source, hread, hflows, hbytes⟩ :=
        readMessage_frame h.flows (h.pending.trans List.flatMap_cons) hbound
      have hsource : onSource readMessage c = (.ok (some (.text line)), { c with source }) := by
        simp only [onSource, hread]
      have hline : (Device.readLine : Action Channel String) c =
          (.ok (trimLineEnding line), { c with source }) :=
        Action.bind_of_ok hsource
      rw [htyped.trimLineEnding_eq] at hline
      exact .of_eq rfl hline ⟨fun l hl => h.lines l (List.mem_cons_of_mem line hl), hflows, hbytes,
        h.unlimited, h.written⟩

/-- A channel answers as a scripted device does. -/
theorem agree : Device.Agree Follows where
  print text := by
    intro d c h
    obtain ⟨c', hsend, h'⟩ := h.send (.text text) (d.output ++ text)
      String.toList_append d.status
    exact .of_eq rfl hsend h'
  readLine := Follows.agree_readLine
  showStatus location right := by
    intro d c h
    obtain ⟨c', hsend, h'⟩ := h.send (.status location right) d.output
      (List.append_nil _).symm (some (location, right))
    exact .of_eq rfl hsend h'

end Channel

/-! ## Whole runs -/

namespace Machine

variable {m m' : Machine}

/-- The next step makes the random numbers unpredictable. -/
def DrawsEntropy (m : Machine) : Prop :=
  ∃ rest, m.next? = some (.many .random, 0 :: rest)

/-- What is aside is the same except for the entropy. -/
structure SameButEntropy (a b : Aside) : Prop where
  rules : a.rules = b.rules
  quit : a.quit = b.quit
  count : a.count = b.count

/-- An instruction that draws no entropy does not look at it. -/
theorem steady_of_not_drawsEntropy (h : ¬ m.DrawsEntropy) : m.Steady SameButEntropy := by
  have hstack : SameStack SameButEntropy := fun a b hab => congrArg Rules.stack hab.rules
  have hquit : QuitsAlike SameButEntropy := fun a b hab => ⟨hab.rules, rfl, hab.count⟩
  refine ⟨fun _ _ _ _ => hstack, ?_⟩
  intro op operands hnext
  refine ⟨fun _ => hquit, fun _ _ _ _ => hstack, fun _ => hstack, ?_⟩
  rintro rfl hhead
  cases operands with
  | nil => cases hhead
  | cons x rest =>
      cases hhead
      exact absurd ⟨rest, hnext⟩ h

/-- Machines that differ in entropy only are equal but for it. -/
theorem Alike.eq_withEntropy (h : m.Alike SameButEntropy m') :
    m' = { m with entropy := m'.entropy } := by
  obtain ⟨a, ⟨hrules, hquit, hcount⟩, rfl⟩ := h
  show m.withAside a = { m with entropy := a.entropy }
  rw [withAside, ← hrules, ← hquit, ← hcount]
  rfl

theorem Alike.isStopped_eq (h : m.Alike SameButEntropy m') : m'.isStopped = m.isStopped := by
  rw [h.eq_withEntropy]
  rfl

/-- With a seed, the entropy has no part in how a story starts. -/
theorem alike_of_load {image : Memory} {rules : Rules} {seed e e' : UInt64}
    (hseed : rules.seed = some seed) (hm : load image rules e = .ok m)
    (hm' : load image rules e' = .ok m') : m.Alike SameButEntropy m' := by
  obtain ⟨story, hstory, hm⟩ := FailsOnly.bind_eq_ok.mp hm
  obtain ⟨story', hstory', hm'⟩ := FailsOnly.bind_eq_ok.mp hm'
  cases Except.ok.inj (hstory.symm.trans hstory')
  cases Except.ok.inj hm
  cases Except.ok.inj hm'
  refine ⟨⟨rules, Random.StreamKey.nextSeed e', false, 0⟩, ⟨rfl, rfl, rfl⟩, ?_⟩
  simp only [start, firstGenerator, hseed, withAside]

end Machine

namespace Session

open Machine

variable {δ ε : Type} [Device δ] [Device ε] {D : δ → ε → Prop} {s : Session δ} {t : Session ε}

theorem sameButEntropy_count (a b : Aside) (h : SameButEntropy a b) :
    SameButEntropy { a with count := a.count + 1 } { b with count := b.count + 1 } :=
  ⟨h.rules, h.quit, congrArg (· + 1) h.count⟩

/-- Runs on devices that agree end alike. -/
theorem run_agree (hD : Device.Agree D) (hst : Alike SameButEntropy D s t) {n : Nat}
    (hs : ∀ k < n, ¬ (after k s).machine.DrawsEntropy) :
    (run n s).1 = (run n t).1 ∧ Alike SameButEntropy D (run n s).2 (run n t).2 := by
  induction n generalizing s t with
  | zero =>
      rw [run, run, hst.1.isStopped_eq]
      exact ⟨rfl, hst⟩
  | succ n ih =>
      rw [run, run, hst.1.isStopped_eq]
      by_cases hstopped : s.machine.isStopped = true
      · rw [if_pos hstopped, if_pos hstopped]
        exact ⟨rfl, hst⟩
      · rw [if_neg hstopped, if_neg hstopped]
        -- a step that fails ends both runs, with the same fault
        have hsteady := steady_of_not_drawsEntropy (hs 0 (Nat.succ_pos n))
        obtain ⟨hresult, hst'⟩ := agreeAt_step hD sameButEntropy_count hst hsteady
        have hs' (k : Nat) (hk : k < n) : ¬ (after k (step s).2).machine.DrawsEntropy :=
          hs (k + 1) (Nat.succ_lt_succ hk)
        cases hstep : step s with
        | mk r s' =>
            cases hstep' : step t with
            | mk r' t' =>
                rw [hstep, hstep'] at hresult hst'
                rw [hstep] at hs'
                obtain rfl : r = r' := hresult
                cases r with
                | ok _ => exact ih hst' hs'
                | error e => exact ⟨rfl, hst'⟩

/-- Three sessions have gone through the same states and have printed the same text. -/
structure InStep (scripted : Session Scripted) (terminal : Session Terminal)
    (channel : Session Channel) : Prop where
  atTerminal : terminal.machine = { scripted.machine with entropy := terminal.machine.entropy }
  onChannel : channel.machine = { scripted.machine with entropy := channel.machine.entropy }
  /-- The terminal has sent the text with a carriage return before every line feed. -/
  typed : terminal.device.sink.written.toList =
    Terminal.insertReturns (Utf8.encode scripted.device.output.toList)
  /-- The channel has sent messages, of which those with text make up the text. -/
  sent : ∃ messages : List Message,
    channel.device.sink.written.toList = messages.flatMap Channel.frame ∧
      messages.flatMap Message.printed = scripted.device.output.toList

/-- Sessions are in step if each device follows the script. -/
theorem InStep.of_alike {scripted : Session Scripted} {terminal : Session Terminal}
    {channel : Session Channel} (ht : Alike SameButEntropy Terminal.Follows scripted terminal)
    (hc : Alike SameButEntropy Channel.Follows scripted channel) :
    InStep scripted terminal channel := by
  obtain ⟨messages, hframes, hprinted⟩ := hc.2.written
  exact ⟨ht.1.eq_withEntropy, hc.1.eq_withEntropy, ht.2.written, messages, hframes, hprinted.symm⟩

/-- A story with a seed runs alike on a scripted device with some lines, on a terminal at which
    the lines are typed and on a channel over which they are sent, as long as it does not ask
    for unpredictable numbers: every step has the same result, and after every number of
    steps the sessions are in step, and so they are after a run. -/
theorem devices_interchangeable {image : Memory} {rules : Rules} {seed e₁ e₂ e₃ : UInt64}
    {m₁ m₂ m₃ : Machine} (hseed : rules.seed = some seed)
    (hm₁ : load image rules e₁ = .ok m₁) (hm₂ : load image rules e₂ = .ok m₂)
    (hm₃ : load image rules e₃ = .ok m₃)
    {lines : List String} (hlines : ∀ l ∈ lines, Terminal.IsLine l)
    {typed sent : List (List UInt8)} (htyped : [] ∉ typed)
    (htyping : typed.flatten = Terminal.typing lines) (hsent : [] ∉ sent)
    (hsending : sent.flatten = Channel.sending lines) {n : Nat} :
    let scripted : Session Scripted := ⟨m₁, { input := lines }⟩
    let terminal : Session Terminal := ⟨m₂, { source := { chunks := typed } }⟩
    let channel : Session Channel := ⟨m₃, { source := { chunks := sent } }⟩
    (∀ k < n, ¬ (after k scripted).machine.DrawsEntropy) →
      (∀ k ≤ n, InStep (after k scripted) (after k terminal) (after k channel)) ∧
      (∀ k < n, (step (after k terminal)).1 = (step (after k scripted)).1 ∧
        (step (after k channel)).1 = (step (after k scripted)).1) ∧
      (run n terminal).1 = (run n scripted).1 ∧ (run n channel).1 = (run n scripted).1 ∧
      InStep (run n scripted).2 (run n terminal).2 (run n channel).2 := by
  intro scripted terminal channel hdraws
  have hterminal : Alike SameButEntropy Terminal.Follows scripted terminal :=
    ⟨alike_of_load hseed hm₁ hm₂, hlines, ⟨htyped, rfl⟩, htyping, rfl, rfl⟩
  have hchannel : Alike SameButEntropy Channel.Follows scripted channel :=
    ⟨alike_of_load hseed hm₁ hm₃, hlines, ⟨hsent, rfl⟩, hsending, rfl, [], rfl, rfl⟩
  -- It is enough to know of the scripted session that it draws on no entropy: the others are
  -- related to it at every step.
  have hsteady (k : Nat) (hk : k < n) := steady_of_not_drawsEntropy (hdraws k hk)
  have hafter {k : Nat} (hk : k ≤ n) :
      Alike SameButEntropy Terminal.Follows (after k scripted) (after k terminal) ∧
        Alike SameButEntropy Channel.Follows (after k scripted) (after k channel) := by
    have hbefore (j : Nat) (hj : j < k) := hsteady j (Nat.lt_of_lt_of_le hj hk)
    exact ⟨alike_after Terminal.agree sameButEntropy_count hterminal hbefore,
      alike_after Channel.agree sameButEntropy_count hchannel hbefore⟩
  obtain ⟨hruns, hends⟩ := run_agree Terminal.agree hterminal hdraws
  obtain ⟨hruns', hends'⟩ := run_agree Channel.agree hchannel hdraws
  refine ⟨?_, ?_, hruns.symm, hruns'.symm, .of_alike hends hends'⟩
  · intro k hk
    exact .of_alike (hafter hk).1 (hafter hk).2
  · intro k hk
    obtain ⟨ht, hc⟩ := hafter (Nat.le_of_lt hk)
    exact ⟨(agreeAt_step Terminal.agree sameButEntropy_count ht (hsteady k hk)).1.symm,
      (agreeAt_step Channel.agree sameButEntropy_count hc (hsteady k hk)).1.symm⟩

/-- A story that reads a line, prints its first letter as it was stored, and quits. After the
    header come the main routine at 64, an empty dictionary at 79, three global variables at 83,
    a text buffer at 89 and a parse buffer at 95. -/
def echo : Memory :=
  ⟨#[3, 0, 0, 0, 0, 0, 0, 64, 0, 79, 16, 0, 0, 83, 0, 64, 0, 0, 56, 55, 48, 49, 48, 49,
     0, 0, 0, 0, 0, 0, 0, 0, 0, 0, 0, 0, 0, 0, 0, 0, 0, 0, 0, 0, 0, 0, 0, 0, 0, 0, 0, 0, 0, 0, 0, 0,
     0, 0, 0, 0, 0, 0, 0, 0,
     0xE4, 0x0F, 0, 89, 0, 95, 0x10, 89, 1, 0, 0xE5, 0xBF, 0, 0xBB, 0xBA,
     0, 0, 0, 0,
     0, 0, 0, 0, 0, 0,
     4, 0, 0, 0, 0, 0,
     1, 0, 0, 0, 0, 0]⟩

/-- What is read from the story when it is loaded. -/
def echoStory : Story where
  image := echo
  header :=
    { version := 3, flags := 0, release := 0, highMemory := 0, initialPc := 64, dictionary := 79
      objects := 4096, globals := 83, staticMemory := 64, serial := "870101"
      abbreviations := 0, fileLength := 0, checksum := 0 }
  objects := { defaults := 4096, count := 0 }
  names := []
  dictionary :=
    { address := 79, separators := [], entryLength := 0, entryCount := 0, entries := 83 }

/-- The sample story loads. -/
theorem load_echo (rules : Rules) (e : UInt64) :
    load echo rules e = .ok (start echoStory rules e) :=
  load_of_story (Story.load_of_parts (s := echoStory) rfl rfl rfl rfl) rules e

/-- The echo of a line of two letters, the second of which is two bytes that arrive apart. -/
theorem echo_interchangeable :
    let rules : Rules := { seed := some 7 }
    let scripted : Session Scripted := ⟨start echoStory rules 1, { input := ["Hé"] }⟩
    let terminal : Session Terminal :=
      ⟨start echoStory rules 2, { source := { chunks := [[72, 195], [169, 13], [10]] } }⟩
    let channel : Session Channel :=
      ⟨start echoStory rules 3, { source := { chunks := [Channel.sending ["Hé"]] } }⟩
    (run 5 terminal).1 = .stopped ∧ (run 5 channel).1 = .stopped ∧
      InStep (run 5 scripted).2 (run 5 terminal).2 (run 5 channel).2 ∧
      (run 5 terminal).2.device.sink.written.toList = [104, 13, 10] := by
  intro rules scripted terminal channel
  have hlines : ∀ l ∈ ["Hé"], Terminal.IsLine l := by
    intro l hl
    rw [List.mem_singleton.mp hl]
    exact ⟨by decide, by decide, by decide⟩
  -- No step of the story draws entropy, which is the one thing that the sessions differ in.
  have hdraws : ∀ k < 5, ¬ (after k scripted).machine.DrawsEntropy := by
    have hnext : ∀ k < 5, ((after k scripted).machine.next?.all
        fun r => r.1 != .many .random) = true := by decide +kernel
    rintro k hk ⟨rest, hrest⟩
    have hk := hnext k hk
    rw [hrest] at hk
    cases hk
  have htyped : [] ∉ terminal.device.source.chunks := by decide
  have htyping : terminal.device.source.chunks.flatten = Terminal.typing ["Hé"] := by decide
  have hsent : [] ∉ channel.device.source.chunks := by decide
  have hsending : channel.device.source.chunks.flatten = Channel.sending ["Hé"] :=
    List.flatten_singleton
  obtain ⟨-, -, hterminal, hchannel, hstep⟩ :=
    devices_interchangeable rfl (load_echo rules 1) (load_echo rules 2) (load_echo rules 3)
      hlines htyped htyping hsent hsending hdraws
  have hstopped : (run 5 scripted).1 = .stopped := by decide +kernel
  have houtput : (run 5 scripted).2.device.output = "h\n" := by decide +kernel
  refine ⟨hterminal.trans hstopped, hchannel.trans hstopped, hstep, ?_⟩
  rw [hstep.typed, houtput]
  decide

end Session

end ZMachine
