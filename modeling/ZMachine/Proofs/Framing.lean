import ZMachine.Proofs.Wire

/-! # Messages sent and received

    What one end of a channel writes, the other end reads. Only the reader
    refuses messages that are too large, so the two ends agree up to the first
    of these; and a stream may end anywhere, also within a message.

    * `Channel.sent`: the bytes of messages that are written one after the other;
    * `readMessage_of_tooLarge`, `readMessage_of_cut`: the ways in which a read
      fails;
    * `reads_of_frames`: whole messages at the front of a stream are read one
      after the other, and what comes behind them is left;
    * `messages_round_trip`: whole streams, and streams that are cut. -/

namespace ZMachine

/-- The number of bytes of a message as JSON. -/
def Message.size (m : Message) : Nat := (Utf8.encode m.render).length

namespace Channel

variable {s : ByteSource} {m : Message} {ms : List Message} {rest : List UInt8}

/-! ## Writing -/

/-- Writes messages one after the other. -/
def writeMessages : List Message → Action ByteSink Unit
  | [] => pure ()
  | m :: ms => do
      writeMessage m
      writeMessages ms

/-- The bytes that are written for messages. -/
def sent (ms : List Message) : List UInt8 := (writeMessages ms {}).2.written.toList

/-- A sink without a limit takes all messages, one frame behind another. -/
theorem writeMessages_eq {k : ByteSink} (hk : k.limit = none) (ms : List Message) :
    ∃ k', writeMessages ms k = (.ok (), k') ∧
      k'.written.toList = k.written.toList ++ ms.flatMap frame := by
  induction ms generalizing k with
  | nil => exact ⟨k, rfl, (List.append_nil _).symm⟩
  | cons m ms ih =>
      obtain ⟨k₁, hwrite, hk₁, hwritten₁⟩ := writeMessage_eq hk m
      obtain ⟨k₂, hrest, hwritten₂⟩ := ih hk₁
      refine ⟨k₂, (Action.bind_of_ok hwrite).trans hrest, ?_⟩
      rw [hwritten₂, hwritten₁, List.append_assoc, List.flatMap_cons]

/-- What is sent is the frames of the messages. -/
theorem sent_eq (ms : List Message) : sent ms = ms.flatMap frame := by
  obtain ⟨k, hwrite, hwritten⟩ := writeMessages_eq (k := {}) rfl ms
  rw [sent, hwrite, hwritten]
  rfl

/-- A frame has four bytes more than its message. -/
theorem length_frame (m : Message) : (frame m).length = 4 + m.size := by
  rw [frame, List.length_append]
  rfl

/-! ## Reading -/

/-- A message of more bytes than a reader takes is refused by its length. -/
theorem readMessage_of_tooLarge (hs : s.Flows) (hbytes : s.bytes = frame m ++ rest)
    (hm : maxMessage < m.size) (hsize : m.size < 0x100000000) :
    (readMessage s).1 = .error (.protocol (.tooLarge m.size)) := by
  rw [frame, List.append_assoc] at hbytes
  obtain ⟨s₁, hread, -, -⟩ := readLength_eq hs hbytes
  have hvalue : lengthValue (lengthBytes (Utf8.encode m.render).length) = m.size :=
    lengthValue_lengthBytes hsize
  rw [readMessage, Action.bind_of_ok hread]
  simp only [hvalue, if_pos hm]
  rfl

/-- A message that breaks off after its length is an error. -/
theorem readMessage_of_cut {k : Nat} (hs : s.Flows) (hbytes : s.bytes = (frame m).take k)
    (hm : m.size ≤ maxMessage) (hlength : 4 ≤ k) (hcut : k < 4 + m.size) :
    (readMessage s).1 = .error (.stream .endOfStream) := by
  have hfront : (frame m).take k =
      lengthBytes m.size ++ (Utf8.encode m.render).take (k - 4) := by
    rw [frame, List.take_append, List.take_of_length_le hlength]
    rfl
  obtain ⟨s₁, hread, hs₁, hbytes₁⟩ := readLength_eq hs (hbytes.trans hfront)
  have hvalue : lengthValue (lengthBytes m.size) = m.size :=
    lengthValue_lengthBytes (Nat.lt_of_le_of_lt hm (by decide))
  have hshort : s₁.bytes.length < m.size := by
    rw [hbytes₁, List.length_take]
    omega
  obtain ⟨s₂, hbody, -, -⟩ := ByteSource.readExactly_of_short hs₁ hshort
  rw [readMessage, Action.bind_of_ok hread]
  simp only [hvalue, if_neg (Nat.not_lt.mpr hm)]
  exact congrArg Prod.fst (Action.bind_of_error hbody)

/-- The stream after a number of reads, whatever came of them. -/
def afterReads : Nat → ByteSource → ByteSource
  | 0, s => s
  | n + 1, s => afterReads n (readMessage s).2

/-- What the read with this number yields, counted from zero. -/
def readAt (n : Nat) (s : ByteSource) : Except Fault (Option Message) :=
  (readMessage (afterReads n s)).1

/-- Messages at the front of a stream are read in order, and what is behind them is left. -/
theorem reads_of_frames (hs : s.Flows) (hbytes : s.bytes = ms.flatMap frame ++ rest)
    (hms : ∀ m ∈ ms, m.size ≤ maxMessage) :
    (∀ n < ms.length, readAt n s = .ok ms[n]?) ∧ (afterReads ms.length s).Flows ∧
      (afterReads ms.length s).bytes = rest := by
  -- On the messages: each read leaves the stream at the next frame.
  induction ms generalizing s with
  | nil => exact ⟨fun n hn => absurd hn (Nat.not_lt_zero n), hs, hbytes⟩
  | cons m ms ih =>
      rw [List.flatMap_cons, List.append_assoc] at hbytes
      obtain ⟨s₁, hread, hs₁, hbytes₁⟩ :=
        readMessage_frame hs hbytes (hms m List.mem_cons_self)
      have hafter (n : Nat) : afterReads (n + 1) s = afterReads n s₁ := by
        rw [afterReads, hread]
      obtain ⟨hreads, hflows, hrest⟩ :=
        ih hs₁ hbytes₁ fun m' hm' => hms m' (List.mem_cons_of_mem m hm')
      refine ⟨?_, ?_, ?_⟩
      · intro n hn
        cases n with
        | zero => exact congrArg Prod.fst hread
        | succ n =>
            rw [readAt, hafter]
            exact hreads n (Nat.lt_of_succ_lt_succ hn)
      · rw [List.length_cons, hafter]
        exact hflows
      · rw [List.length_cons, hafter]
        exact hrest

/-- Reads can be made in parts. -/
theorem afterReads_add (n k : Nat) (s : ByteSource) :
    afterReads (n + k) s = afterReads k (afterReads n s) := by
  induction n generalizing s with
  | zero => rw [Nat.zero_add, afterReads]
  | succ n ih => rw [Nat.succ_add, afterReads, afterReads, ih]

/-- Once fewer than four bytes are left there are no more messages. -/
theorem readAt_of_short (hs : s.Flows) (hshort : s.bytes.length < 4) (n : Nat) :
    readAt n s = .ok none := by
  induction n generalizing s with
  | zero =>
      obtain ⟨s', hread, -, -⟩ := readMessage_of_short hs hshort
      exact congrArg Prod.fst hread
  | succ n ih =>
      obtain ⟨s', hread, hs', hbytes'⟩ := readMessage_of_short hs hshort
      rw [readAt, afterReads, hread]
      exact ih hs' (by rw [hbytes']; exact Nat.succ_pos 3)

/-- Messages are read in order and then there are none, if less than a length is left. -/
theorem reads_of_frames_short (hs : s.Flows) (hbytes : s.bytes = ms.flatMap frame ++ rest)
    (hms : ∀ m ∈ ms, m.size ≤ maxMessage) (hrest : rest.length < 4) (n : Nat) :
    readAt n s = .ok ms[n]? := by
  obtain ⟨hreads, hflows, hleft⟩ := reads_of_frames hs hbytes hms
  by_cases hn : n < ms.length
  · exact hreads n hn
  · have hle := Nat.not_lt.mp hn
    have hnone := readAt_of_short hflows (by rw [hleft]; exact hrest) (n - ms.length)
    rw [readAt, ← afterReads_add, Nat.add_sub_cancel' hle] at hnone
    rw [List.getElem?_eq_none hle]
    exact hnone

/-- What is sent in front of a message and the first bytes of it. -/
theorem take_sent (before after : List Message) (m : Message) {k : Nat} (hk : k < 4 + m.size) :
    (sent (before ++ m :: after)).take ((sent before).length + k) =
      before.flatMap frame ++ (frame m).take k := by
  rw [sent_eq, sent_eq, List.flatMap_append, List.flatMap_cons, List.take_length_add_append,
    List.take_append_of_le_length (by rw [length_frame]; exact Nat.le_of_lt hk)]

/-- Messages that are sent are received in order, and then none for ever, however the bytes
    arrive. If one of them is too large, those before the first such one are received, and then
    its length is reported. If none is too large but the stream is cut within a message, those
    before it are received; then there are none if not all of its length has arrived, and
    otherwise the end of the stream is reported. -/
theorem messages_round_trip (ms : List Message) (hms : ∀ m ∈ ms, m.size < 0x100000000) :
    (writeMessages ms {}).1 = .ok () ∧
    ∀ chunks : List (List UInt8), [] ∉ chunks →
      (chunks.flatten = sent ms →
        ((∀ m ∈ ms, m.size ≤ maxMessage) → ∀ n, readAt n { chunks } = .ok ms[n]?) ∧
        ∀ before m after, ms = before ++ m :: after → (∀ m ∈ before, m.size ≤ maxMessage) →
          maxMessage < m.size →
          (∀ n < before.length, readAt n { chunks } = .ok before[n]?) ∧
          readAt before.length { chunks } = .error (.protocol (.tooLarge m.size))) ∧
      ((∀ m ∈ ms, m.size ≤ maxMessage) → ∀ before m after k, ms = before ++ m :: after →
        k < 4 + m.size → chunks.flatten = (sent ms).take ((sent before).length + k) →
        (k ≤ 3 → ∀ n, readAt n { chunks } = .ok before[n]?) ∧
        (4 ≤ k → (∀ n < before.length, readAt n { chunks } = .ok before[n]?) ∧
          readAt before.length { chunks } = .error (.stream .endOfStream))) := by
  obtain ⟨sink, hwrite, -⟩ := writeMessages_eq (k := {}) rfl ms
  refine ⟨congrArg Prod.fst hwrite, ?_⟩
  intro chunks hchunks
  have hs : ByteSource.Flows { chunks } := ⟨hchunks, rfl⟩
  refine ⟨?_, ?_⟩
  · intro hbytes
    rw [sent_eq] at hbytes
    refine ⟨?_, ?_⟩
    · intro hsizes n
      exact reads_of_frames_short hs (hbytes.trans (List.append_nil _).symm) hsizes
        (Nat.succ_pos 3) n
    · rintro before m after rfl hbefore hm
      rw [List.flatMap_append, List.flatMap_cons] at hbytes
      obtain ⟨hreads, hflows, hleft⟩ := reads_of_frames hs hbytes hbefore
      have hsize := hms m (List.mem_append_right before List.mem_cons_self)
      exact ⟨hreads, readMessage_of_tooLarge hflows hleft hm hsize⟩
  · rintro hsizes before m after k rfl hk hbytes
    rw [take_sent before after m hk] at hbytes
    have hbefore : ∀ x ∈ before, x.size ≤ maxMessage := fun x hx =>
      hsizes x (List.mem_append_left _ hx)
    refine ⟨?_, ?_⟩
    · -- so little of the frame is like the end of the stream
      intro hshort n
      have hlength : ((frame m).take k).length < 4 :=
        Nat.lt_succ_of_le (Nat.le_trans (List.length_take_le k _) hshort)
      exact reads_of_frames_short hs hbytes hbefore hlength n
    · -- the length is there, but not all that it announces
      intro hlength
      obtain ⟨hreads, hflows, hleft⟩ := reads_of_frames hs hbytes hbefore
      have hm := hsizes m (List.mem_append_right before List.mem_cons_self)
      exact ⟨hreads, readMessage_of_cut hflows hleft hm hlength hk⟩

/-- A text of letters that need no escape takes a byte for each of them. -/
theorem size_text_replicate (n : Nat) :
    (Message.text (String.ofList (List.replicate n 'a'))).size = n + 25 := by
  have hletters : (Utf8.encode ((List.replicate n 'a').flatMap Json.escapeChar)).length = n := by
    induction n with
    | zero => rfl
    | succ n ih =>
        rw [List.replicate_succ, List.flatMap_cons, Utf8.encode_append, List.length_append, ih,
          Nat.add_comm]
        rfl
  rw [Message.size, length_encode_render_text, String.toList_ofList, hletters]

/-- Three messages of which the second is too large, and two of which the second is cut, once
    within its length and once behind it; the bytes arrive one by one. -/
theorem large_and_cut_messages :
    let large : Message := .text (String.ofList (List.replicate maxMessage 'a'))
    let stream (bytes : List UInt8) : ByteSource := { chunks := bytes.map fun b => [b] }
    let cut (n : Nat) : List UInt8 :=
      (sent [.text "\"é\n", .close]).take ((sent [.text "\"é\n"]).length + n)
    readAt 0 (stream (sent [.close, large, .close])) = .ok (some .close) ∧
      readAt 1 (stream (sent [.close, large, .close])) =
        .error (.protocol (.tooLarge 0x100019)) ∧
      readAt 0 (stream (cut 3)) = .ok (some (.text "\"é\n")) ∧
      readAt 1 (stream (cut 3)) = .ok none ∧
      readAt 0 (stream (cut 4)) = .ok (some (.text "\"é\n")) ∧
      readAt 1 (stream (cut 4)) = .error (.stream .endOfStream) := by
  intro large stream cut
  have hlarge : large.size = 0x100019 := size_text_replicate maxMessage
  have hsizes : ∀ m ∈ [Message.close, large, .close], m.size < 0x100000000 := by
    intro m hm
    rcases List.mem_cons.mp hm with rfl | hm
    · decide
    · rcases List.mem_cons.mp hm with rfl | hm
      · rw [hlarge]
        decide
      · rw [List.mem_singleton.mp hm]
        decide
  have hsmall : ∀ m ∈ [Message.text "\"é\n", .close], m.size ≤ maxMessage := by decide
  have hchunks (bytes : List UInt8) : [] ∉ bytes.map fun b => [b] := by simp
  have hflatten (bytes : List UInt8) : (bytes.map fun b => [b]).flatten = bytes :=
    List.flatMap_singleton' bytes
  obtain ⟨-, hreads⟩ := messages_round_trip [.close, large, .close] hsizes
  obtain ⟨-, hrefused⟩ := (hreads _ (hchunks _)).1 (hflatten _)
  obtain ⟨hclose, hreported⟩ := hrefused [.close] large [.close] rfl (by decide) (by
    rw [hlarge]
    decide)
  rw [hlarge] at hreported
  obtain ⟨-, hcuts⟩ := messages_round_trip [.text "\"é\n", .close] (by decide)
  have hcut (n : Nat) (hn : n < 4 + Message.close.size) :=
    (hcuts _ (hchunks (cut n))).2 hsmall [.text "\"é\n"] .close [] n rfl hn (hflatten _)
  -- Three bytes are not even a length, four are.
  obtain ⟨hwithin, -⟩ := hcut 3 (by decide)
  obtain ⟨-, hbehind⟩ := hcut 4 (by decide)
  obtain ⟨htext, hend⟩ := hbehind (Nat.le_refl 4)
  exact ⟨hclose 0 (by decide), hreported, hwithin (Nat.le_refl 3) 0, hwithin (Nat.le_refl 3) 1,
    htext 0 (by decide), hend⟩

end Channel

end ZMachine
