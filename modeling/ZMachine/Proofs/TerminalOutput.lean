import ZMachine.Proofs.Lines

/-! # What a remote terminal prints

    A terminal sends every line feed with a carriage return before it. This is
    done text by text, but how a story cuts its output into texts cannot be seen
    in the bytes that are sent. Another terminal reads lines that are printed as
    they were.

    * `ByteSink.write_append`, `Terminal.printAll_eq`: texts that are printed one
      after the other, on any sink, with room or without;
    * `Terminal.Sends`: what printing does where there is room for it;
    * `Terminal.output_read_back`: both directions. -/

namespace ZMachine

/-! ## Writing in pieces -/

namespace ByteSink

/-- There is room for a number of bytes. -/
def HasRoom (k : ByteSink) (n : Nat) : Prop :=
  ∀ limit, k.limit = some limit → k.written.size + n ≤ limit

/-- A sink with room for the bytes takes them. -/
theorem write_of_hasRoom {k : ByteSink} {bs : List UInt8} (h : k.HasRoom bs.length) :
    write bs k = (.ok (), { k with written := k.written ++ bs }) := by
  obtain ⟨written, limit⟩ := k
  cases limit with
  | none => rfl
  | some limit =>
      have hroom : written.size + bs.length ≤ limit := h limit rfl
      exact if_pos (show bs.length ≤ limit - written.size by omega)

theorem append_append (written : Array UInt8) (bs cs : List UInt8) :
    written ++ bs ++ cs = written ++ (bs ++ cs) := by
  apply Array.toList_inj.mp
  simp only [Array.toList_appendList, List.append_assoc]

theorem write_nil (k : ByteSink) : write [] k = (.ok (), k) := by
  obtain ⟨written, limit⟩ := k
  have hnil : written ++ ([] : List UInt8) = written := rfl
  cases limit with
  | none => simp only [write, hnil]
  | some limit => simp only [write, List.length_nil, Nat.zero_le, if_true, hnil]

/-- Bytes that are written in two pieces are written as in one, also if they do not fit. -/
theorem write_append (bs cs : List UInt8) (k : ByteSink) :
    (write bs >>= fun _ => write cs) k = write (bs ++ cs) k := by
  obtain ⟨written, limit⟩ := k
  cases limit with
  | none =>
      have hfirst : write bs ⟨written, none⟩ = (.ok (), ⟨written ++ bs, none⟩) := rfl
      rw [Action.bind_of_ok hfirst]
      simp only [write, append_append]
  | some limit =>
      -- The limit cuts off either the second part or the first.
      by_cases hfits : bs.length ≤ limit - written.size
      · have hfirst : write bs ⟨written, some limit⟩ = (.ok (), ⟨written ++ bs, some limit⟩) :=
          if_pos hfits
        have hsize : (written ++ bs).size = written.size + bs.length := by
          rw [← Array.length_toList, Array.toList_appendList, List.length_append,
            Array.length_toList]
        have hroom : limit - (written ++ bs).size = limit - written.size - bs.length := by omega
        have hboth : cs.length ≤ limit - written.size - bs.length ↔
            (bs ++ cs).length ≤ limit - written.size := by
          rw [List.length_append]
          omega
        rw [Action.bind_of_ok hfirst]
        simp only [write, hroom, hboth, append_append, List.take_append,
          List.take_of_length_le hfits]
      · have hfirst : write bs ⟨written, some limit⟩ = (.error (.stream .brokenPipe),
            ⟨written ++ bs.take (limit - written.size), some limit⟩) := if_neg hfits
        have hboth : ¬ (bs ++ cs).length ≤ limit - written.size := by
          rw [List.length_append]
          omega
        rw [Action.bind_of_error hfirst]
        simp only [write, if_neg hboth]
        rw [List.take_append_of_le_length (by omega)]

end ByteSink

namespace Terminal

/-! ## Printing -/

/-- Where there is room for the bytes, the action appends them to what has been written and does
    nothing else. -/
def Sends (x : Action Terminal Unit) (bytes : List UInt8) : Prop :=
  ∀ t : Terminal, t.sink.HasRoom bytes.length →
    x t = (.ok (), { t with sink := { t.sink with written := t.sink.written ++ bytes } })

theorem sends_send (bytes : List UInt8) : Sends (send bytes) bytes := by
  intro t h
  simp only [send, ByteSink.write_of_hasRoom h]

/-- Bytes can be sent in parts. -/
theorem send_append (bs cs : List UInt8) (t : Terminal) :
    (send bs >>= fun _ => send cs) t = send (bs ++ cs) t := by
  have hwrite := ByteSink.write_append bs cs t.sink
  simp only [send, ← hwrite]
  cases hfirst : ByteSink.write bs t.sink with
  | mk r k =>
      cases r with
      | ok u =>
          have hsend : send bs t = (.ok u, { t with sink := k }) := by simp only [send, hfirst]
          rw [Action.bind_of_ok hfirst]
          exact Action.bind_of_ok hsend
      | error e =>
          have hsend : send bs t = (.error e, { t with sink := k }) := by simp only [send, hfirst]
          rw [Action.bind_of_error hfirst]
          exact Action.bind_of_error hsend

/-- A text can be translated in parts. -/
theorem withReturns_append (s t : String) :
    withReturns (s ++ t) = withReturns s ++ withReturns t := by
  rw [withReturns, String.toList_append, List.flatMap_append]
  rfl

/-- A text can be printed in parts. -/
theorem print_append (s text : String) (t : Terminal) :
    (Device.print s >>= fun _ => Device.print text) t = Device.print (s ++ text) t := by
  refine (send_append _ _ t).trans ?_
  rw [← Utf8.encode_append, ← withReturns_append]
  rfl

/-- Prints texts one after the other. -/
def printAll : List String → Action Terminal Unit
  | [] => pure ()
  | text :: texts => do
      Device.print text
      printAll texts

/-- Texts that are printed one after the other are printed as one text. -/
theorem printAll_eq (texts : List String) (t : Terminal) :
    printAll texts t = Device.print (String.join texts) t := by
  induction texts generalizing t with
  | nil =>
      show (.ok (), t) = send [] t
      simp only [send, ByteSink.write_nil]
  | cons text texts ih =>
      rw [printAll, String.join_cons, ← print_append]
      exact congrArg (fun x => (Device.print text >>= fun _ => x) t) (funext ih)

/-! ## Lines that are printed -/

/-- A line with the ending that a terminal sends. -/
def printedLine (l : String) : EndedLine := ⟨Utf8.encode l.toList, .carriageFeed⟩

/-- A line without endings is unbroken. -/
theorem IsLine.unbroken {l : String} (h : IsLine l) : Unbroken (Utf8.encode l.toList) :=
  fun _ => h.ne_ending

/-- What is sent for lines with a line feed after each. -/
theorem insertReturns_lines {lines : List String} (h : ∀ l ∈ lines, IsLine l) :
    insertReturns (Utf8.encode (String.join (lines.map (· ++ "\n"))).toList) =
      lines.flatMap fun l => (printedLine l).bytes := by
  induction lines with
  | nil => rfl
  | cons l lines ih =>
      have hplain := insertReturns_of_ne fun b hb => ((h l List.mem_cons_self).ne_ending hb).1
      have hfeed : insertReturns (Utf8.encode "\n".toList) = [13, 10] := rfl
      rw [List.map_cons, String.join_cons, String.toList_append, String.toList_append,
        Utf8.encode_append, Utf8.encode_append, insertReturns_append, insertReturns_append, hplain,
        hfeed, ih fun k hk => h k (List.mem_cons_of_mem l hk), List.flatMap_cons]
      rfl

/-- Lines that are printed are cut as they were, and nothing is left over. -/
theorem cutInto_lines {lines : List String} (h : ∀ l ∈ lines, IsLine l) :
    CutInto (lines.flatMap fun l => (printedLine l).bytes) (lines.map printedLine) [] := by
  induction lines with
  | nil => exact .tail unbroken_nil
  | cons l lines ih =>
      rw [List.flatMap_cons]
      have hending : (printedLine l).ending ≠ .carriage := LineEnding.noConfusion
      exact .line (h l List.mem_cons_self).unbroken (LineEnding.isWholeBefore_of_ne hending _)
        (ih fun k hk => h k (List.mem_cons_of_mem l hk))

/-- The lines that are printed are the lines that are read. -/
theorem lineAt_lines (lines : List String) (n : Nat) :
    lineAt (lines.map printedLine) [] n = Utf8.encode (lines[n]?.getD "").toList := by
  induction lines generalizing n with
  | nil => cases n <;> rfl
  | cons l lines ih =>
      cases n with
      | zero => rfl
      | succ n => exact ih n

/-- Lines that have been printed are read as they were, and after them there is nothing. -/
theorem readLine_lines {lines : List String} (h : ∀ l ∈ lines, IsLine l) {t : Terminal}
    (ht : t.Awaits (lines.map printedLine) []) (n : Nat) :
    (Device.readLine (afterReads n t)).1 = .ok (lines[n]?.getD "") := by
  have hshort : (Utf8.encode (lines[n]?.getD "").toList).length ≤ maxLine := by
    cases hn : lines[n]? with
    | none => exact Nat.zero_le _
    | some l => exact (h l (List.mem_of_getElem? hn)).short
  rw [readLine_afterReads ht, lineAt_lines, List.take_of_length_le hshort,
    Utf8.decodeLossy_encode, String.ofList_toList]

/-- How output is cut into texts makes no difference: texts are printed as if they were one, and
    where there is room, the bytes of all of them are sent with a carriage return before every
    line feed. If these are lines with a line feed after each, then another terminal reads the
    lines as they were, and after them empty lines, whatever the chunks in which the bytes
    arrive. -/
theorem output_read_back (texts : List String) :
    ∃ bytes, bytes = insertReturns (Utf8.encode (String.join texts).toList) ∧
      (∀ t, printAll texts t = Device.print (String.join texts) t) ∧ Sends (printAll texts) bytes ∧
      ∀ lines : List String, (∀ l ∈ lines, IsLine l) →
        String.join texts = String.join (lines.map (· ++ "\n")) →
        ∀ chunks sink, [] ∉ chunks → chunks.flatten = bytes → ∀ n,
          (Device.readLine (afterReads n { source := { chunks }, sink })).1 =
            .ok (lines[n]?.getD "") := by
  refine ⟨_, rfl, printAll_eq texts, ?_, ?_⟩
  · intro t ht
    rw [← encode_withReturns] at ht ⊢
    rw [printAll_eq]
    exact sends_send _ t ht
  · intro lines hlines hjoin chunks sink hchunks hbytes n
    have hcut : CutInto chunks.flatten (lines.map printedLine) [] := by
      rw [hbytes, hjoin, insertReturns_lines hlines]
      exact cutInto_lines hlines
    exact readLine_lines hlines ⟨chunks.flatten, false, ⟨⟨hchunks, rfl⟩, rfl, rfl, rfl⟩, hcut⟩ n

/-- Three lines, one of them empty and one with a zero byte in front, which does not belong to the
    ending before it. The bytes arrive with endings cut apart. -/
theorem three_lines_read_back :
    let lines := ["ab", "", "\x00c"]
    let printer : Terminal := { source := { chunks := [] } }
    let reader : Terminal :=
      { source := { chunks := [[97], [98, 13], [10, 13, 10, 0], [99, 13, 10]] } }
    (∀ l ∈ lines, IsLine l) ∧
    (printAll ["ab\n", "\n\x00", "c", "\n"] printer).2.sink.written =
      #[97, 98, 13, 10, 13, 10, 0, 99, 13, 10] ∧
    ∀ n, (Device.readLine (afterReads n reader)).1 = .ok (lines[n]?.getD "") := by
  intro lines printer reader
  have hlines : ∀ l ∈ lines, IsLine l := by
    have hall : ∀ l ∈ lines, '\n' ∉ l.toList ∧ '\r' ∉ l.toList ∧
        (Utf8.encode l.toList).length ≤ maxLine := by decide
    exact fun l hl => ⟨(hall l hl).1, (hall l hl).2.1, (hall l hl).2.2⟩
  have hwritten : (printAll ["ab\n", "\n\x00", "c", "\n"] printer).2.sink.written =
      #[97, 98, 13, 10, 13, 10, 0, 99, 13, 10] := by decide
  obtain ⟨bytes, -, -, hsends, hreads⟩ := output_read_back ["ab\n", "\n\x00", "c", "\n"]
  have hroom : printer.sink.HasRoom bytes.length := by
    intro limit hlimit
    cases hlimit
  refine ⟨hlines, hwritten, hreads lines hlines (by decide) _ _ (by decide) ?_⟩
  -- What was written is what the theorem speaks of.
  rw [hsends printer hroom] at hwritten
  have hbytes := congrArg Array.toList hwritten
  rw [Array.toList_appendList] at hbytes
  exact hbytes.symm

end Terminal

end ZMachine
