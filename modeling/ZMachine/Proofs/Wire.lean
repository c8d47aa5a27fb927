import ZMachine.Device.Channel
import ZMachine.Device.Terminal
import ZMachine.Proofs.Conduct
import ZMachine.Proofs.Message
import ZMachine.Proofs.Utf8

/-! # What arrives over a byte stream

    A source hands out bytes in chunks, but what a terminal or a channel reads
    depends on the bytes alone and not on how they are cut into chunks. Here a
    stream is described by the bytes still to come, and each read by what it
    takes off their front.

    * `ByteSource.readExactly_eq`, `readExactly_of_short`: reading a number of
      bytes;
    * `Terminal.readBytes_eq`: reading a line, of which `cutLine` is the rule;
    * `Terminal.IsLine`: the lines that arrive as they were sent;
      `Terminal.encode_withReturns`: what is sent for a text;
    * `Channel.readMessage_frame`, `readMessage_of_short`: reading a message. -/

namespace ZMachine

namespace ByteSource

variable {s : ByteSource}

/-- The bytes still to come. -/
def bytes (s : ByteSource) : List UInt8 := s.chunks.flatten

/-- Bytes keep coming until the stream ends, which it then does for ever. -/
structure Flows (s : ByteSource) : Prop where
  nonempty : [] ∉ s.chunks
  ends : s.blocks = false

/-- A read takes some bytes off the front, none only at the end. -/
theorem read_eq (hs : s.Flows) {limit : Nat} (hlimit : 0 < limit) :
    ∃ front s', read limit s = (.ok front, s') ∧ s'.Flows ∧ s.bytes = front ++ s'.bytes ∧
      front.length ≤ limit ∧ (front = [] → s.bytes = []) := by
  obtain ⟨chunks, blocks⟩ := s
  obtain ⟨hnonempty, hends⟩ := hs
  cases hends
  cases chunks with
  | nil => exact ⟨[], _, rfl, ⟨hnonempty, rfl⟩, rfl, Nat.zero_le _, fun _ => rfl⟩
  | cons chunk rest =>
      have hchunk : chunk ≠ [] := fun h => hnonempty (h ▸ List.mem_cons_self)
      have hrest : [] ∉ rest := fun h => hnonempty (List.mem_cons_of_mem _ h)
      -- A chunk is read as a whole, or cut at the limit, where neither part is empty.
      by_cases hle : chunk.length ≤ limit
      · refine ⟨chunk, ⟨rest, false⟩, if_pos hle, ⟨hrest, rfl⟩, rfl, hle, ?_⟩
        intro h
        exact absurd h hchunk
      · refine ⟨chunk.take limit, ⟨chunk.drop limit :: rest, false⟩, if_neg hle, ⟨?_, rfl⟩,
          ?_, ?_, ?_⟩
        · intro h
          rcases List.mem_cons.mp h with h | h
          · have hlength := congrArg List.length h
            simp only [List.length_nil, List.length_drop] at hlength
            omega
          · exact hrest h
        · show chunk ++ rest.flatten = chunk.take limit ++ (chunk.drop limit ++ rest.flatten)
          rw [← List.append_assoc, List.take_append_drop]
        · exact List.length_take_le _ _
        · intro h
          have hlength := congrArg List.length h
          simp only [List.length_nil, List.length_take] at hlength
          omega

/-- As many bytes as are asked for are read if they come. -/
theorem readFor_eq {fuel n : Nat} (hs : s.Flows) (hfuel : n ≤ fuel) (hn : n ≤ s.bytes.length) :
    ∃ s', readFor fuel n s = (.ok (s.bytes.take n), s') ∧ s'.Flows ∧
      s'.bytes = s.bytes.drop n := by
  induction fuel generalizing n s with
  | zero =>
      obtain rfl : n = 0 := Nat.le_zero.mp hfuel
      exact ⟨s, rfl, hs, rfl⟩
  | succ fuel ih =>
      cases n with
      | zero => exact ⟨s, rfl, hs, rfl⟩
      | succ n =>
          obtain ⟨front, s₁, hread, hs₁, hbytes, hle, hnil⟩ := read_eq hs (Nat.succ_pos n)
          have hfront : front ≠ [] := by
            intro h
            rw [hnil h] at hn
            exact absurd hn (Nat.not_succ_le_zero n)
          -- each read brings a byte or more, so that the fuel lasts
          have hpos := List.length_pos_iff.mpr hfront
          rw [hbytes, List.length_append] at hn
          obtain ⟨s₂, hrest, hs₂, hbytes₂⟩ :=
            ih (n := n + 1 - front.length) hs₁ (by omega) (by omega)
          refine ⟨s₂, ?_, hs₂, ?_⟩
          · rw [readFor, Action.bind_of_ok hread, if_neg (by simp [hfront]), hbytes,
              List.take_append, List.take_of_length_le hle]
            exact Action.bind_of_ok hrest
          · rw [hbytes₂, hbytes, List.drop_append, List.drop_eq_nil_of_le hle, List.nil_append]

/-- A stream that ends too early is read to its end. -/
theorem readFor_of_short {fuel n : Nat} (hs : s.Flows) (hfuel : n ≤ fuel)
    (hn : s.bytes.length < n) :
    ∃ s', readFor fuel n s = (.error (.stream .endOfStream), s') ∧ s'.Flows ∧
      s'.bytes = [] := by
  induction fuel generalizing n s with
  | zero => omega
  | succ fuel ih =>
      obtain ⟨n, rfl⟩ : ∃ k, n = k + 1 := ⟨n - 1, by omega⟩
      obtain ⟨front, s₁, hread, hs₁, hbytes, hle, hnil⟩ := read_eq hs (Nat.succ_pos n)
      rw [readFor, Action.bind_of_ok hread]
      -- Every read takes something, until there is nothing left.
      by_cases hfront : front = []
      · rw [if_pos (by simp [hfront])]
        have hend := hnil hfront
        rw [hfront, List.nil_append] at hbytes
        exact ⟨s₁, rfl, hs₁, hbytes.symm.trans hend⟩
      · have hpos := List.length_pos_iff.mpr hfront
        rw [hbytes, List.length_append] at hn
        obtain ⟨s₂, hrest, hs₂, hbytes₂⟩ :=
          ih (n := n + 1 - front.length) hs₁ (by omega) (by omega)
        rw [if_neg (by simp [hfront])]
        exact ⟨s₂, Action.bind_of_error hrest, hs₂, hbytes₂⟩

/-- As many bytes are read as were asked for, if there are so many. -/
theorem readExactly_eq {n : Nat} (hs : s.Flows) (hn : n ≤ s.bytes.length) :
    ∃ s', readExactly n s = (.ok (s.bytes.take n), s') ∧ s'.Flows ∧
      s'.bytes = s.bytes.drop n :=
  readFor_eq hs (Nat.le_refl n) hn

/-- Otherwise the stream has ended. -/
theorem readExactly_of_short {n : Nat} (hs : s.Flows) (hn : s.bytes.length < n) :
    ∃ s', readExactly n s = (.error (.stream .endOfStream), s') ∧ s'.Flows ∧ s'.bytes = [] :=
  readFor_of_short hs (Nat.le_refl n) hn

end ByteSource

/-! ## Lines -/

namespace Terminal

variable {t : Terminal} {bs : List UInt8} {r : Bool} {k : ByteSink}

/-- What a terminal is about to read, apart from how it arrives. -/
structure Holds (t : Terminal) (bs : List UInt8) (afterReturn : Bool) (sink : ByteSink) :
    Prop where
  flows : t.source.Flows
  bytes : t.buffer ++ t.source.bytes = bs
  afterReturn : t.afterReturn = afterReturn
  sink : t.sink = sink

/-- A peek fills the buffer if there is anything to fill it with. -/
theorem peekByte_eq (h : t.Holds bs r k) :
    ∃ t', peekByte t = (.ok bs.head?, t') ∧ t'.Holds bs r k ∧ (bs ≠ [] → t'.buffer ≠ []) := by
  obtain ⟨source, buffer, afterReturn, sink⟩ := t
  obtain ⟨hflows, hbytes, hreturn, hsink⟩ := h
  cases buffer with
  | cons b buffer =>
      refine ⟨_, ?_, ⟨hflows, hbytes, hreturn, hsink⟩, fun _ => List.cons_ne_nil b buffer⟩
      rw [← hbytes]
      rfl
  | nil =>
      obtain ⟨front, source', hread, hflows', hfront, -, hnil⟩ :=
        ByteSource.read_eq hflows (show 0 < bufferSize by decide)
      have hbs : front ++ source'.bytes = bs := hfront.symm.trans hbytes
      refine ⟨⟨source', front, afterReturn, sink⟩, ?_, ⟨hflows', hbs, hreturn, hsink⟩, ?_⟩
      · -- the buffer is filled from the stream, whose first byte comes first
        have hhead : front.head? = bs.head? := by
          cases front with
          | nil => rw [← hbytes, List.nil_append, hnil rfl]
          | cons b front => rw [← hbs, List.cons_append, List.head?_cons, List.head?_cons]
        simp only [peekByte, hread, hhead]
      · intro hne hempty
        exact hne (hbytes.symm.trans (hnil hempty))

/-- A peek at a byte that is there, after which the byte is dropped. -/
theorem dropByte_eq {b : UInt8} (h : t.Holds (b :: bs) r k) (hbuffer : t.buffer ≠ []) :
    ∃ t', dropByte t = (.ok (), t') ∧ t'.Holds bs r k := by
  obtain ⟨source, buffer, afterReturn, sink⟩ := t
  obtain ⟨hflows, hbytes, hreturn, hsink⟩ := h
  cases buffer with
  | nil => exact absurd rfl hbuffer
  | cons c buffer => exact ⟨_, rfl, ⟨hflows, (List.cons.inj hbytes).2, hreturn, hsink⟩⟩

/-- A line at the front of bytes: the line, whether a carriage return ends it, and the rest. -/
def cutLine : List UInt8 → List UInt8 × Bool × List UInt8
  | [] => ([], false, [])
  | b :: bs =>
      if b = 10 then ([], false, bs)
      else if b = 13 then ([], true, bs)
      else (b :: (cutLine bs).1, (cutLine bs).2)

/-- Bytes that end no line belong to the line that they begin. -/
theorem cutLine_append {bs : List UInt8} (h : ∀ b ∈ bs, b ≠ 10 ∧ b ≠ 13) (rest : List UInt8) :
    cutLine (bs ++ rest) = (bs ++ (cutLine rest).1, (cutLine rest).2) := by
  induction bs with
  | nil => rfl
  | cons b bs ih =>
      obtain ⟨hfeed, hreturn⟩ := h b List.mem_cons_self
      rw [List.cons_append, cutLine, if_neg hfeed, if_neg hreturn,
        ih fun c hc => h c (List.mem_cons_of_mem b hc)]
      rfl

/-- What is done about a byte of a line once it has been taken. -/
def useByte (fuel : Nat) (line : List UInt8) (b : UInt8) : Action Terminal (List UInt8) :=
  if b = 10 then pure line.reverse
  else if b = 13 then
    Action.change (fun t => { t with afterReturn := true }) >>= fun _ => pure line.reverse
  else readRest fuel (b :: line)

/-- One step along a line, by cases of the next byte. -/
theorem readRest_succ (fuel : Nat) (line : List UInt8) :
    readRest (fuel + 1) line = peekByte >>= fun next =>
      match next with
      | none => pure line.reverse
      | some b => dropByte >>= fun _ => useByte fuel line b := by
  rw [readRest]
  refine congrArg (peekByte >>= ·) (funext fun next => ?_)
  cases next with
  | none => rfl
  | some b =>
      by_cases hfeed : b = 10
      · subst hfeed
        rfl
      by_cases hreturn : b = 13
      · subst hreturn
        rfl
      simp only [useByte, if_neg hfeed, if_neg hreturn]

/-- A byte that is looked at is taken, and used. -/
theorem readRest_of_peek {b : UInt8} {t₁ t₂ : Terminal} (hpeek : peekByte t = (.ok (some b), t₁))
    (hdrop : dropByte t₁ = (.ok (), t₂)) (fuel : Nat) (line : List UInt8) :
    readRest (fuel + 1) line t = useByte fuel line b t₂ := by
  rw [readRest_succ]
  exact (Action.bind_of_ok hpeek).trans (Action.bind_of_ok hdrop)

/-- The rest of a line is read up to its ending. -/
theorem readRest_eq {fuel : Nat} (h : t.Holds bs false k) (hfuel : bs.length < fuel)
    (line : List UInt8) :
    ∃ t', readRest fuel line t = (.ok (line.reverse ++ (cutLine bs).1), t') ∧
      t'.Holds (cutLine bs).2.2 (cutLine bs).2.1 k := by
  -- on the bytes to come, not on the fuel: `cutLine` recurses on them
  induction bs generalizing t fuel line with
  | nil =>
      obtain ⟨fuel, rfl⟩ : ∃ n, fuel = n + 1 := ⟨fuel - 1, by omega⟩
      obtain ⟨t₁, hpeek, h₁, -⟩ := peekByte_eq h
      refine ⟨t₁, ?_, h₁⟩
      rw [readRest_succ, cutLine, List.append_nil]
      exact Action.bind_of_ok hpeek
  | cons b bs ih =>
      obtain ⟨fuel, rfl⟩ : ∃ n, fuel = n + 1 := ⟨fuel - 1, by omega⟩
      obtain ⟨t₁, hpeek, h₁, hbuffer⟩ := peekByte_eq h
      obtain ⟨t₂, hdrop, h₂⟩ := dropByte_eq h₁ (hbuffer (List.cons_ne_nil b bs))
      rw [readRest_of_peek hpeek hdrop, useByte, cutLine]
      by_cases hfeed : b = 10
      · rw [if_pos hfeed, if_pos hfeed, List.append_nil]
        exact ⟨t₂, rfl, h₂⟩
      rw [if_neg hfeed, if_neg hfeed]
      by_cases hreturn : b = 13
      · rw [if_pos hreturn, if_pos hreturn, List.append_nil]
        exact ⟨{ t₂ with afterReturn := true }, rfl, h₂.flows, h₂.bytes, rfl, h₂.sink⟩
      rw [if_neg hreturn, if_neg hreturn]
      obtain ⟨t₃, hrest, h₃⟩ := ih h₂ (Nat.lt_of_succ_lt_succ hfuel) (b :: line)
      refine ⟨t₃, ?_, h₃⟩
      rw [List.reverse_cons, List.append_assoc] at hrest
      exact hrest

/-- The bytes after a carriage return without what belongs to it. -/
def finishLine (afterReturn : Bool) (bs : List UInt8) : List UInt8 :=
  match afterReturn, bs with
  | true, b :: bs => if b = 10 ∨ b = 0 then bs else b :: bs
  | _, bs => bs

/-- What is done before a line, by cases of the last one and of the next byte. -/
theorem finishReturn_of_afterReturn (h : t.afterReturn = true) :
    finishReturn t = (peekByte >>= fun next =>
      if next = some 10 ∨ next = some 0 then dropByte else pure ())
      { t with afterReturn := false } := by
  rw [finishReturn, Action.bind_of_ok (Action.view_apply _ _), h]
  refine congrArg (fun f => (peekByte >>= f) { t with afterReturn := false }) ?_
  funext next
  split
  · rfl
  · rfl
  · next hfeed hzero =>
      rw [if_neg]
      rintro (h | h)
      · exact hfeed h
      · exact hzero h

/-- A line feed behind a carriage return is skipped. -/
theorem finishReturn_eq (h : t.Holds bs r k) :
    ∃ t', finishReturn t = (.ok (), t') ∧ t'.Holds (finishLine r bs) false k := by
  cases r with
  | false =>
      refine ⟨t, ?_, h⟩
      rw [finishReturn, Action.bind_of_ok (Action.view_apply _ _), h.afterReturn]
      rfl
  | true =>
      have h' : Holds { t with afterReturn := false } bs false k := ⟨h.flows, h.bytes, rfl, h.sink⟩
      -- What follows a carriage return decides whether it belongs to the line ending.
      obtain ⟨t₁, hpeek, h₁, hbuffer⟩ := peekByte_eq h'
      rw [finishReturn_of_afterReturn h.afterReturn, Action.bind_of_ok hpeek]
      cases bs with
      | nil => exact ⟨t₁, rfl, h₁⟩
      | cons b bs =>
          have hnext : some b = some 10 ∨ some b = some 0 ↔ b = 10 ∨ b = 0 := by
            rw [Option.some.injEq, Option.some.injEq]
          rw [List.head?_cons, finishLine]
          by_cases hb : b = 10 ∨ b = 0
          · rw [if_pos (hnext.mpr hb), if_pos hb]
            exact dropByte_eq h₁ (hbuffer (List.cons_ne_nil b bs))
          · rw [if_neg (fun h => hb (hnext.mp h)), if_neg hb]
            exact ⟨t₁, rfl, h₁⟩

/-- Reading a line takes it off the bytes, however they arrive. -/
theorem readBytes_eq (h : t.Holds bs r k) :
    ∃ t', readBytes t = (.ok (cutLine (finishLine r bs)).1, t') ∧
      t'.Holds (cutLine (finishLine r bs)).2.2 (cutLine (finishLine r bs)).2.1 k := by
  obtain ⟨t₁, hfinish, h₁⟩ := finishReturn_eq h
  have hfuel : (finishLine r bs).length < t₁.remaining + 1 := by
    rw [← h₁.bytes, List.length_append]
    exact Nat.lt_succ_self _
  obtain ⟨t₂, hrest, h₂⟩ := readRest_eq h₁ hfuel []
  refine ⟨t₂, ?_, h₂⟩
  rw [readBytes, Action.bind_of_ok hfinish, Action.bind_of_ok (Action.view_apply _ _)]
  exact hrest

end Terminal

/-! ## Writing -/

/-- A sink without a limit takes everything. -/
theorem ByteSink.write_of_unlimited {k : ByteSink} (hk : k.limit = none) (bytes : List UInt8) :
    ∃ k', ByteSink.write bytes k = (.ok (), k') ∧ k'.limit = none ∧
      k'.written.toList = k.written.toList ++ bytes := by
  refine ⟨{ k with written := k.written ++ bytes }, ?_, hk, Array.toList_appendList⟩
  simp only [ByteSink.write, hk]

/-! ## What a terminal sends

    A terminal sends a carriage return before every line feed. -/

/-- The byte of an ASCII character comes from no other character. -/
theorem Utf8.ne_of_mem_encode {cs : List Char} {b : UInt8} {c : Char} (hb : b ∈ encode cs)
    (hc : c ∉ cs) (hsmall : c.toNat < 128) : b.toNat ≠ c.toNat := by
  intro h
  obtain ⟨d, hd, hnumber⟩ := mem_of_mem_encode hb (by omega)
  obtain rfl : d = c := Char.toNat_inj.mp (hnumber.trans h)
  exact hc hd

namespace Terminal

/-- A line that arrives as it was sent: no character of it ends a line, and it has no more bytes
    than are kept. -/
structure IsLine (line : String) : Prop where
  noFeed : '\n' ∉ line.toList
  noReturn : '\r' ∉ line.toList
  short : (Utf8.encode line.toList).length ≤ maxLine

/-- No byte of a line ends it. -/
theorem IsLine.ne_ending {line : String} (h : IsLine line) {b : UInt8}
    (hb : b ∈ Utf8.encode line.toList) : b ≠ 10 ∧ b ≠ 13 := by
  constructor
  · rintro rfl
    exact Utf8.ne_of_mem_encode (c := '\n') hb h.noFeed (by decide) rfl
  · rintro rfl
    exact Utf8.ne_of_mem_encode (c := '\r') hb h.noReturn (by decide) rfl

/-- Bytes with a carriage return before every line feed. -/
def insertReturns (bs : List UInt8) : List UInt8 :=
  bs.flatMap fun b => if b = 10 then [13, 10] else [b]

/-- Bytes can be translated in parts. -/
theorem insertReturns_append (as bs : List UInt8) :
    insertReturns (as ++ bs) = insertReturns as ++ insertReturns bs :=
  List.flatMap_append

/-- Bytes without a line feed are sent as they are. -/
theorem insertReturns_of_ne {bs : List UInt8} (h : ∀ b ∈ bs, b ≠ 10) : insertReturns bs = bs := by
  induction bs with
  | nil => rfl
  | cons b bs ih =>
      have hrest := ih fun c hc => h c (List.mem_cons_of_mem b hc)
      show (if b = 10 then [13, 10] else [b]) ++ insertReturns bs = _
      rw [if_neg (h b List.mem_cons_self), hrest]
      rfl

/-- It makes no difference whether carriage returns are put between characters or bytes, since no
    other character has the byte of a line feed. -/
theorem encode_withReturns (text : String) :
    Utf8.encode (withReturns text) = insertReturns (Utf8.encode text.toList) := by
  unfold withReturns
  generalize text.toList = cs
  induction cs with
  | nil => rfl
  | cons c cs ih =>
      rw [List.flatMap_cons, Utf8.encode_append, ih, Utf8.encode_cons, insertReturns_append]
      by_cases hc : c = '\n'
      · subst hc
        rfl
      · have hbytes : Utf8.encode [c] = String.utf8EncodeChar c := List.append_nil _
        have hplain : insertReturns (Utf8.encode [c]) = Utf8.encode [c] := by
          refine insertReturns_of_ne fun b hb => ?_
          rintro rfl
          exact Utf8.ne_of_mem_encode (c := '\n') hb (by simpa using Ne.symm hc) (by decide) rfl
        rw [if_neg hc, ← hbytes, hplain]

end Terminal

/-! ## Messages -/

namespace Channel

/-- A message as it is sent: its length and then its text. -/
def frame (m : Message) : List UInt8 :=
  lengthBytes (Utf8.encode m.render).length ++ Utf8.encode m.render

/-- A text message takes 25 bytes more than its characters do when they are escaped. -/
theorem length_encode_render_text (data : String) :
    (Utf8.encode (Message.text data).render).length =
      (Utf8.encode (data.toList.flatMap Json.escapeChar)).length + 25 := by
  have hfront : (Utf8.encode ('\x7b' :: (Message.renderMember "type" "text" ++ ','
      :: (Json.renderString "data" ++ [':', '"'])))).length = 23 := by decide
  have hback : (Utf8.encode ['"', '\x7d']).length = 2 := by decide
  rw [Message.render_text, Utf8.encode_append, Utf8.encode_append, List.length_append,
    List.length_append, hfront, hback]
  omega

/-- A sink without a limit takes a message as its frame. -/
theorem writeMessage_eq {k : ByteSink} (hk : k.limit = none) (m : Message) :
    ∃ k', writeMessage m k = (.ok (), k') ∧ k'.limit = none ∧
      k'.written.toList = k.written.toList ++ frame m := by
  obtain ⟨k₁, hlength, hk₁, hwritten₁⟩ :=
    ByteSink.write_of_unlimited hk (lengthBytes (Utf8.encode m.render).length)
  obtain ⟨k₂, htext, hk₂, hwritten₂⟩ :=
    ByteSink.write_of_unlimited hk₁ (Utf8.encode m.render)
  refine ⟨k₂, (Action.bind_of_ok hlength).trans htext, hk₂, ?_⟩
  rw [hwritten₂, hwritten₁, List.append_assoc]
  rfl

/-- The four bytes of a length stand for it. -/
theorem lengthValue_lengthBytes {n : Nat} (h : n < 0x100000000) :
    lengthValue (lengthBytes n) = n := by
  simp only [lengthValue, lengthBytes, List.foldl_cons, List.foldl_nil, UInt8.toNat_ofNat']
  omega

/-- The four bytes of a length are read if they come. -/
theorem readLength_eq {s : ByteSource} {n : Nat} {rest : List UInt8} (hs : s.Flows)
    (hbytes : s.bytes = lengthBytes n ++ rest) :
    ∃ s', readLength s = (.ok (some (lengthBytes n)), s') ∧ s'.Flows ∧ s'.bytes = rest := by
  have hfour : 4 ≤ s.bytes.length := by
    rw [hbytes]
    exact Nat.le_add_left 4 _
  obtain ⟨s', hlength, hs', hbytes'⟩ := ByteSource.readExactly_eq hs hfour
  rw [hbytes] at hlength hbytes'
  refine ⟨s', ?_, hs', hbytes'⟩
  simp only [readLength, hlength]
  rfl

/-- A stream with fewer than four bytes has no length, and is read to its end. -/
theorem readLength_of_short {s : ByteSource} (hs : s.Flows) (hshort : s.bytes.length < 4) :
    ∃ s', readLength s = (.ok none, s') ∧ s'.Flows ∧ s'.bytes = [] := by
  obtain ⟨s', hlength, hs', hbytes'⟩ := ByteSource.readExactly_of_short hs hshort
  refine ⟨s', ?_, hs', hbytes'⟩
  simp only [readLength, hlength]

/-- A message that has been sent is received, however its bytes arrive. -/
theorem readMessage_frame {s : ByteSource} {m : Message} {rest : List UInt8} (hs : s.Flows)
    (hbytes : s.bytes = frame m ++ rest) (hm : (Utf8.encode m.render).length ≤ maxMessage) :
    ∃ s', readMessage s = (.ok (some m), s') ∧ s'.Flows ∧ s'.bytes = rest := by
  rw [frame, List.append_assoc] at hbytes
  -- First the length, and then as many bytes as it says.
  obtain ⟨s₁, hread, hs₁, hbytes₁⟩ := readLength_eq hs hbytes
  have hbody : (Utf8.encode m.render).length ≤ s₁.bytes.length := by
    rw [hbytes₁, List.length_append]
    exact Nat.le_add_right _ _
  obtain ⟨s₂, htext, hs₂, hbytes₂⟩ := ByteSource.readExactly_eq hs₁ hbody
  rw [hbytes₁, List.take_left] at htext
  rw [hbytes₁, List.drop_left] at hbytes₂
  refine ⟨s₂, ?_, hs₂, hbytes₂⟩
  have hvalue := lengthValue_lengthBytes (n := (Utf8.encode m.render).length)
    (Nat.lt_of_le_of_lt hm (by decide))
  have hparse : (Utf8.decode? (Utf8.encode m.render)).bind Message.parse? = some m := by
    rw [Utf8.decode?_encode]
    exact m.parse?_render
  rw [readMessage, Action.bind_of_ok hread]
  simp only [hvalue, if_neg (Nat.not_lt.mpr hm)]
  refine (Action.bind_of_ok htext).trans ?_
  simp only [hparse]
  rfl

/-- At the end of the stream there is no message, even if a part of a length comes before it. -/
theorem readMessage_of_short {s : ByteSource} (hs : s.Flows) (hshort : s.bytes.length < 4) :
    ∃ s', readMessage s = (.ok none, s') ∧ s'.Flows ∧ s'.bytes = [] := by
  obtain ⟨s', hread, hs', hbytes'⟩ := readLength_of_short hs hshort
  exact ⟨s', Action.bind_of_ok hread, hs', hbytes'⟩

/-- At the end of the stream there is no message. -/
theorem readMessage_nil {s : ByteSource} (hs : s.Flows) (hbytes : s.bytes = []) :
    ∃ s', readMessage s = (.ok none, s') ∧ s'.Flows ∧ s'.bytes = [] :=
  readMessage_of_short hs (by rw [hbytes]; exact Nat.succ_pos 3)

end Channel

end ZMachine
