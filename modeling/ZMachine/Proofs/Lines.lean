import ZMachine.Proofs.Wire

/-! # The lines of a remote terminal

    A terminal reads a stream of bytes line by line. What its lines are is said
    here of the bytes alone, by a relation between the bytes, the lines that have
    an ending and the tail that has none; nothing in it mentions buffers, chunks
    or the order of reads.

    * `CutInto`: the lines of a stream; `exists_cutInto` and `CutInto.unique`:
      every stream can be cut into lines, and in one way only;
    * `Terminal.Awaits`: the terminal is about to read these lines, which a read
      makes one fewer;
    * `Terminal.Overlooks`: an action does not notice what comes behind the bytes
      that it needs;
    * `Terminal.reads_lines`: reads return the lines one after the other, however
      they arrive, and none waits for more than the carriage return of its line. -/

namespace ZMachine

/-! ## Lines -/

/-- The ways in which a line ends. -/
inductive LineEnding where
  | feed
  | carriage
  | carriageFeed
  | carriageZero
  deriving DecidableEq, Repr

namespace LineEnding

/-- The bytes of an ending. -/
def bytes : LineEnding → List UInt8
  | feed => [10]
  | carriage => [13]
  | carriageFeed => [13, 10]
  | carriageZero => [13, 0]

/-- Whether a carriage return is the first byte of an ending. -/
def hasReturn : LineEnding → Bool
  | feed => false
  | carriage | carriageFeed | carriageZero => true

/-- The ending takes everything that belongs to it: a carriage return is an ending of its own
    only if no line feed and no zero byte comes after it. -/
def IsWholeBefore (e : LineEnding) (rest : List UInt8) : Prop :=
  e = carriage → rest.head? ≠ some 10 ∧ rest.head? ≠ some 0

/-- Only a carriage return may be the first part of a longer ending. -/
theorem isWholeBefore_of_ne {e : LineEnding} (h : e ≠ carriage) (rest : List UInt8) :
    e.IsWholeBefore rest :=
  fun he => absurd he h

theorem length_bytes_pos (e : LineEnding) : 0 < e.bytes.length := by
  cases e <;> decide

theorem eq_of_bytes_eq {e e' : LineEnding} : e.bytes = e'.bytes → e = e' := by
  cases e <;> cases e' <;> decide

end LineEnding

/-- A line and how it ends. -/
structure EndedLine where
  text : List UInt8
  ending : LineEnding
  deriving DecidableEq, Repr

/-- The bytes of a line, its ending included. -/
def EndedLine.bytes (l : EndedLine) : List UInt8 := l.text ++ l.ending.bytes

/-- None of the bytes begins the ending of a line. -/
def Unbroken (bs : List UInt8) : Prop := ∀ b ∈ bs, b ≠ 10 ∧ b ≠ 13

/-- The bytes are lines with their endings and then a tail that has none. -/
inductive CutInto : List UInt8 → List EndedLine → List UInt8 → Prop
  | tail {tail : List UInt8} (unbroken : Unbroken tail) : CutInto tail [] tail
  | line {l : EndedLine} {rest : List UInt8} {lines : List EndedLine} {tail : List UInt8}
      (unbroken : Unbroken l.text) (whole : l.ending.IsWholeBefore rest)
      (others : CutInto rest lines tail) : CutInto (l.bytes ++ rest) (l :: lines) tail

/-- The text of the line with this number, counted from zero. The tail counts as a line, and
    after it there is nothing. -/
def lineAt (lines : List EndedLine) (tail : List UInt8) (n : Nat) : List UInt8 :=
  (lines.map EndedLine.text ++ [tail])[n]?.getD []

theorem unbroken_nil : Unbroken [] := fun _ h => absurd h List.not_mem_nil

theorem unbroken_cons {b : UInt8} {bs : List UInt8} (hb : b ≠ 10 ∧ b ≠ 13) (h : Unbroken bs) :
    Unbroken (b :: bs) := by
  intro c hc
  rcases List.mem_cons.mp hc with rfl | hc
  · exact hb
  · exact h c hc

/-- A line that ends is not unbroken, whatever follows. -/
theorem EndedLine.not_unbroken_bytes (l : EndedLine) (rest : List UInt8) :
    ¬ Unbroken (l.bytes ++ rest) := by
  intro h
  have hending : ∀ b ∈ l.ending.bytes, b ≠ 10 ∧ b ≠ 13 := fun b hb =>
    h b (List.mem_append_left rest (List.mem_append_right l.text hb))
  cases he : l.ending with
  | feed => exact (hending 10 (by rw [he]; decide)).1 rfl
  | carriage | carriageFeed | carriageZero => exact (hending 13 (by rw [he]; decide)).2 rfl

/-- A byte that begins no ending joins the line that comes after it. -/
theorem CutInto.cons {bs tail : List UInt8} {lines : List EndedLine} {b : UInt8}
    (h : CutInto bs lines tail) (hb : b ≠ 10 ∧ b ≠ 13) :
    ∃ lines' tail', CutInto (b :: bs) lines' tail' := by
  cases h with
  | tail unbroken => exact ⟨[], b :: bs, .tail (unbroken_cons hb unbroken)⟩
  | @line l rest lines _ unbroken whole others =>
      exact ⟨⟨b :: l.text, l.ending⟩ :: lines, tail,
        .line (l := ⟨b :: l.text, l.ending⟩) (unbroken_cons hb unbroken) whole others⟩

/-- Every stream of bytes can be cut into lines. -/
theorem exists_cutInto (bs : List UInt8) : ∃ lines tail, CutInto bs lines tail := by
  -- on the length: a carriage return may take the byte after it along
  induction hn : bs.length using Nat.strongRecOn generalizing bs with
  | ind n ih =>
      subst hn
      have hempty : ∀ (e : LineEnding) (rest : List UInt8), e.IsWholeBefore rest →
          bs = e.bytes ++ rest → ∃ lines tail, CutInto bs lines tail := by
        intro e rest hwhole hbs
        have hlt : rest.length < bs.length := by
          rw [hbs, List.length_append]
          exact Nat.lt_add_of_pos_left e.length_bytes_pos
        obtain ⟨lines, tail, hcut⟩ := ih _ hlt rest rfl
        rw [hbs]
        exact ⟨⟨[], e⟩ :: lines, tail, .line (l := ⟨[], e⟩) unbroken_nil hwhole hcut⟩
      cases bs with
      | nil => exact ⟨[], [], .tail unbroken_nil⟩
      | cons b bs =>
          by_cases hfeed : b = 10
          · subst hfeed
            exact hempty .feed bs (LineEnding.isWholeBefore_of_ne (by decide) bs) rfl
          by_cases hreturn : b = 13
          · subst hreturn
            by_cases hnext : bs.head? = some 10
            · obtain ⟨rest, rfl⟩ := List.head?_eq_some_iff.mp hnext
              exact hempty .carriageFeed rest (LineEnding.isWholeBefore_of_ne (by decide) rest) rfl
            by_cases hzero : bs.head? = some 0
            · obtain ⟨rest, rfl⟩ := List.head?_eq_some_iff.mp hzero
              exact hempty .carriageZero rest (LineEnding.isWholeBefore_of_ne (by decide) rest) rfl
            exact hempty .carriage bs (fun _ => ⟨hnext, hzero⟩) rfl
          obtain ⟨lines, tail, hcut⟩ := ih _ (Nat.lt_succ_self _) bs rfl
          exact hcut.cons ⟨hfeed, hreturn⟩

namespace Terminal

/-- All bytes without a line ending are one line. -/
theorem cutLine_of_unbroken {bs : List UInt8} (h : Unbroken bs) : cutLine bs = (bs, false, []) := by
  have happend := cutLine_append h []
  rw [cutLine, List.append_nil] at happend
  exact happend

/-- The first line, and what its ending leaves behind. -/
theorem cutLine_bytes {l : EndedLine} (h : Unbroken l.text) (rest : List UInt8) :
    cutLine (l.bytes ++ rest) = (l.text, l.ending.hasReturn, l.ending.bytes.tail ++ rest) := by
  have hending : cutLine (l.ending.bytes ++ rest) =
      ([], l.ending.hasReturn, l.ending.bytes.tail ++ rest) := by
    cases l.ending <;> rfl
  rw [EndedLine.bytes, List.append_assoc, cutLine_append h, hending, List.append_nil]

/-- What an ending leaves behind is dropped before the next line. -/
theorem finishLine_bytes {e : LineEnding} {rest : List UInt8} (h : e.IsWholeBefore rest) :
    finishLine e.hasReturn (e.bytes.tail ++ rest) = rest := by
  cases e with
  | feed | carriageFeed | carriageZero => rfl
  | carriage =>
      cases rest with
      | nil => rfl
      | cons b rest =>
          obtain ⟨hfeed, hzero⟩ := h rfl
          refine if_neg ?_
          rintro (rfl | rfl)
          · exact hfeed rfl
          · exact hzero rfl

end Terminal

/-- A first line is found again in the bytes. -/
theorem EndedLine.eq_of_bytes_append {l l' : EndedLine} {rest rest' : List UInt8}
    (hunbroken : Unbroken l.text) (hwhole : l.ending.IsWholeBefore rest)
    (hunbroken' : Unbroken l'.text) (hwhole' : l'.ending.IsWholeBefore rest')
    (h : l.bytes ++ rest = l'.bytes ++ rest') : l = l' ∧ rest = rest' := by
  have hcut := Terminal.cutLine_bytes hunbroken rest
  rw [h, Terminal.cutLine_bytes hunbroken' rest'] at hcut
  obtain ⟨htext, hending⟩ := Prod.mk.inj hcut
  obtain ⟨hreturn, hbehind⟩ := Prod.mk.inj hending
  have hrest : rest = rest' := by
    rw [← Terminal.finishLine_bytes hwhole, ← hbehind, ← hreturn,
      Terminal.finishLine_bytes hwhole']
  subst hrest
  obtain ⟨text, e⟩ := l
  obtain ⟨text', e'⟩ := l'
  cases htext
  have hbytes : e.bytes = e'.bytes := List.append_cancel_left (List.append_cancel_right h)
  cases LineEnding.eq_of_bytes_eq hbytes
  exact ⟨rfl, rfl⟩

/-- There is only one way to cut a stream into lines. -/
theorem CutInto.unique {bs tail tail' : List UInt8} {lines lines' : List EndedLine}
    (h : CutInto bs lines tail) (h' : CutInto bs lines' tail') :
    lines' = lines ∧ tail' = tail := by
  induction h generalizing lines' tail' with
  | tail unbroken =>
      cases h' with
      | tail => exact ⟨rfl, rfl⟩
      | line => exact absurd unbroken (EndedLine.not_unbroken_bytes _ _)
  | @line l rest lines tail unbroken whole _ ih =>
      generalize hbs : l.bytes ++ rest = bs at h'
      cases h' with
      | tail unbroken' => exact absurd (hbs ▸ unbroken') (EndedLine.not_unbroken_bytes _ _)
      | line unbroken' whole' others' =>
          obtain ⟨rfl, rfl⟩ := EndedLine.eq_of_bytes_append unbroken whole unbroken' whole' hbs
          obtain ⟨rfl, rfl⟩ := ih others'
          exact ⟨rfl, rfl⟩

/-! ## Reading them -/

namespace Terminal

variable {t : Terminal} {bs rest tail : List UInt8} {r : Bool} {k : ByteSink}
  {lines : List EndedLine} {l : EndedLine} {α β : Type}

/-- What a terminal is about to read is these lines and this tail. -/
def Awaits (t : Terminal) (lines : List EndedLine) (tail : List UInt8) : Prop :=
  ∃ bs r, t.Holds bs r t.sink ∧ CutInto (finishLine r bs) lines tail

/-- A read returns the first line, and the others are left. -/
theorem readBytes_line (h : t.Awaits (l :: lines) tail) :
    ∃ t', readBytes t = (.ok l.text, t') ∧ t'.Awaits lines tail := by
  obtain ⟨bs, r, hholds, hcut⟩ := h
  obtain ⟨t', hread, hholds'⟩ := readBytes_eq hholds
  generalize finishLine r bs = rest at hcut hread hholds'
  cases hcut with
  | line unbroken whole others =>
      rw [cutLine_bytes unbroken] at hread hholds'
      refine ⟨t', hread, _, _, ⟨hholds'.flows, hholds'.bytes, hholds'.afterReturn, rfl⟩, ?_⟩
      rw [finishLine_bytes whole]
      exact others

/-- After the lines, a read returns the tail, and nothing is left. -/
theorem readBytes_tail (h : t.Awaits [] tail) :
    ∃ t', readBytes t = (.ok tail, t') ∧ t'.Awaits [] [] := by
  obtain ⟨bs, r, hholds, hcut⟩ := h
  obtain ⟨t', hread, hholds'⟩ := readBytes_eq hholds
  generalize finishLine r bs = rest at hcut hread hholds'
  cases hcut with
  | tail unbroken =>
      rw [cutLine_of_unbroken unbroken] at hread hholds'
      exact ⟨t', hread, [], false, ⟨hholds'.flows, hholds'.bytes, hholds'.afterReturn, rfl⟩,
        .tail unbroken_nil⟩

/-- The terminal after a number of lines have been read from it. -/
def afterReads : Nat → Terminal → Terminal
  | 0, t => t
  | n + 1, t => afterReads n (Device.readLine t).2

/-- The line is what was read, cut off and decoded. -/
theorem readLine_of_readBytes {t' : Terminal} (h : readBytes t = (.ok bs, t')) :
    Device.readLine t = (.ok (Utf8.decodeLossy (bs.take maxLine)), t') :=
  Action.bind_of_ok h

/-- The first of several reads comes first. -/
theorem afterReads_succ {t' : Terminal} (h : readBytes t = (.ok bs, t')) (n : Nat) :
    afterReads (n + 1) t = afterReads n t' := by
  rw [afterReads, readLine_of_readBytes h]

/-- What a read returns after a number of others. -/
theorem readLine_afterReads (h : t.Awaits lines tail) (n : Nat) :
    (Device.readLine (afterReads n t)).1 =
      .ok (Utf8.decodeLossy ((lineAt lines tail n).take maxLine)) := by
  -- On the reads before this one: each takes off one line, or what is left at the end.
  induction n generalizing t lines tail with
  | zero =>
      cases lines with
      | nil =>
          obtain ⟨t', hread, -⟩ := readBytes_tail h
          exact congrArg Prod.fst (readLine_of_readBytes hread)
      | cons l lines =>
          obtain ⟨t', hread, -⟩ := readBytes_line h
          exact congrArg Prod.fst (readLine_of_readBytes hread)
  | succ n ih =>
      cases lines with
      | nil =>
          obtain ⟨t', hread, hrest⟩ := readBytes_tail h
          rw [afterReads_succ hread, ih hrest]
          cases n <;> rfl
      | cons l lines =>
          obtain ⟨t', hread, hrest⟩ := readBytes_line h
          rw [afterReads_succ hread, ih hrest]
          rfl

/-! ## What comes behind -/

/-- The terminal with more chunks behind those of its source, after which the stream may
    block. -/
def followedBy (t : Terminal) (behind : List (List UInt8)) (blocks : Bool) : Terminal :=
  { t with source := { chunks := t.source.chunks ++ behind, blocks } }

/-- An action does the same whatever comes behind, and leaves it there. -/
def Overlooks (behind : List (List UInt8)) (blocks : Bool) (x : Action Terminal α)
    (t : Terminal) : Prop :=
  x (t.followedBy behind blocks) = ((x t).1, (x t).2.followedBy behind blocks)

variable {behind : List (List UInt8)} {blocks : Bool}

/-- A read that overlooks what follows gives the same result before it. -/
theorem Overlooks.eq {x : Action Terminal α} {a : Except Fault α} {t' : Terminal}
    (h : Overlooks behind blocks x t) (hx : x t = (a, t')) :
    x (t.followedBy behind blocks) = (a, t'.followedBy behind blocks) := by
  rw [h, hx]

/-- Two reads overlook what follows if each of them does. -/
theorem Overlooks.bind {x : Action Terminal α} {f : α → Action Terminal β} {a : α} {t' : Terminal}
    (h : Overlooks behind blocks x t) (hx : x t = (.ok a, t'))
    (hf : Overlooks behind blocks (f a) t') : Overlooks behind blocks (x >>= f) t := by
  rw [Overlooks, Action.bind_of_ok (h.eq hx), hf, Action.bind_of_ok hx]

/-- A peek at a byte that has arrived. -/
theorem peekByte_overlooks {b : UInt8} (h : t.Holds (b :: bs) r k) :
    Overlooks behind blocks peekByte t := by
  obtain ⟨⟨chunks, ends⟩, buffer, afterReturn, sink⟩ := t
  cases buffer with
  | cons c buffer => rfl
  | nil =>
      cases chunks with
      | nil => exact absurd h.bytes (List.cons_ne_nil b bs).symm
      | cons chunk chunks =>
          by_cases hle : chunk.length ≤ bufferSize
          · simp only [Overlooks, followedBy, peekByte, ByteSource.read, if_pos hle,
              List.cons_append]
          · simp only [Overlooks, followedBy, peekByte, ByteSource.read, if_neg hle,
              List.cons_append]

theorem dropByte_overlooks : Overlooks behind blocks dropByte t := rfl

variable (behind : List (List UInt8)) (blocks : Bool)

/-- One step along a line, if its byte has arrived. -/
theorem readRest_cons {b : UInt8} (h : t.Holds (b :: bs) false k) :
    ∃ t', t'.Holds bs false k ∧ ∀ fuel line,
      readRest (fuel + 1) line t = useByte fuel line b t' ∧
      readRest (fuel + 1) line (t.followedBy behind blocks) =
        useByte fuel line b (t'.followedBy behind blocks) := by
  obtain ⟨t₁, hpeek, h₁, hbuffer⟩ := peekByte_eq h
  obtain ⟨t₂, hdrop, h₂⟩ := dropByte_eq h₁ (hbuffer (List.cons_ne_nil b bs))
  refine ⟨t₂, h₂, fun fuel line => ⟨readRest_of_peek hpeek hdrop fuel line, ?_⟩⟩
  exact readRest_of_peek ((peekByte_overlooks h).eq hpeek) (dropByte_overlooks.eq hdrop) fuel line

/-- Reading on to an ending that has arrived. Fuel beyond what that takes changes nothing. -/
theorem readRest_followedBy {text : List UInt8} {e : LineEnding} {fuel fuel' : Nat}
    (h : t.Holds (text ++ (e.bytes ++ rest)) false k) (htext : Unbroken text)
    (hfuel : text.length < fuel) (hfuel' : text.length < fuel') (line : List UInt8) :
    readRest fuel' line (t.followedBy behind blocks) =
      ((readRest fuel line t).1, (readRest fuel line t).2.followedBy behind blocks) := by
  induction text generalizing t fuel fuel' line with
  | nil =>
      obtain ⟨fuel, rfl⟩ : ∃ n, fuel = n + 1 := ⟨fuel - 1, by omega⟩
      obtain ⟨fuel', rfl⟩ : ∃ n, fuel' = n + 1 := ⟨fuel' - 1, by omega⟩
      cases e with
      -- Whichever ending it is, its first byte ends the line, and the others are left.
      | feed | carriage | carriageFeed | carriageZero =>
          obtain ⟨t', -, hstep⟩ := readRest_cons behind blocks h
          rw [(hstep fuel line).1, (hstep fuel' line).2]
          rfl
  | cons b text ih =>
      obtain ⟨fuel, rfl⟩ : ∃ n, fuel = n + 1 := ⟨fuel - 1, by omega⟩
      obtain ⟨fuel', rfl⟩ : ∃ n, fuel' = n + 1 := ⟨fuel' - 1, by omega⟩
      obtain ⟨t', h', hstep⟩ := readRest_cons behind blocks h
      obtain ⟨hfeed, hreturn⟩ := htext b List.mem_cons_self
      rw [(hstep fuel line).1, (hstep fuel' line).2]
      simp only [useByte, if_neg hfeed, if_neg hreturn]
      exact ih h' (fun c hc => htext c (List.mem_cons_of_mem b hc))
        (Nat.lt_of_succ_lt_succ hfuel) (Nat.lt_of_succ_lt_succ hfuel') (b :: line)

/-- What is done before a line, if a byte has arrived by which to decide it. -/
theorem finishReturn_overlooks (h : t.Holds bs r k) (hbs : bs ≠ []) :
    Overlooks behind blocks finishReturn t := by
  obtain ⟨b, bs, rfl⟩ := List.exists_cons_of_ne_nil hbs
  cases r with
  | false =>
      have hnone : ∀ t : Terminal, t.afterReturn = false → finishReturn t = (.ok (), t) := by
        intro t ht
        rw [finishReturn, Action.bind_of_ok (Action.view_apply _ _), ht]
        rfl
      rw [Overlooks, hnone t h.afterReturn, hnone (t.followedBy behind blocks) h.afterReturn]
  | true =>
      have h' : Holds { t with afterReturn := false } (b :: bs) false k :=
        ⟨h.flows, h.bytes, rfl, h.sink⟩
      -- There is a byte to look at, so that nothing has to be waited for.
      obtain ⟨t₁, hpeek, -, -⟩ := peekByte_eq h'
      have hfinish : Overlooks behind blocks (peekByte >>= fun next =>
          if next = some 10 ∨ next = some 0 then dropByte else pure ())
          { t with afterReturn := false } := by
        refine (peekByte_overlooks h').bind hpeek ?_
        split
        · exact dropByte_overlooks
        · rfl
      rw [Overlooks, finishReturn_of_afterReturn h.afterReturn,
        finishReturn_of_afterReturn (t := t.followedBy behind blocks) h.afterReturn]
      exact hfinish

/-- Reading a line of which the ending has arrived, or at least the first byte of it. -/
theorem readBytes_overlooks (h : t.Holds bs r k) (hbytes : finishLine r bs = l.bytes ++ rest)
    (htext : Unbroken l.text) : Overlooks behind blocks readBytes t := by
  rw [EndedLine.bytes, List.append_assoc] at hbytes
  -- The line has an ending, so that there is at least one byte.
  have hbs : bs ≠ [] := by
    rintro rfl
    have hlength := congrArg List.length hbytes
    have hnil : finishLine r [] = [] := by
      cases r <;> rfl
    rw [hnil, List.length_append, List.length_append, List.length_nil] at hlength
    have hpos := l.ending.length_bytes_pos
    omega
  obtain ⟨t₁, hfinish, h₁⟩ := finishReturn_eq h
  have hfinish' := (finishReturn_overlooks behind blocks h hbs).eq hfinish
  rw [hbytes] at h₁
  -- There is enough fuel for the line in either case, as it comes from what is left to read.
  have hfuel : l.text.length < t₁.remaining + 1 := by
    have hlength := congrArg List.length h₁.bytes
    rw [List.length_append, List.length_append] at hlength
    exact Nat.lt_succ_of_le (Nat.le_trans (Nat.le_add_right _ _) (Nat.le_of_eq hlength.symm))
  have hfuel' : l.text.length < (t₁.followedBy behind blocks).remaining + 1 := by
    refine Nat.lt_of_lt_of_le hfuel (Nat.succ_le_succ (Nat.add_le_add_left ?_ _))
    simp only [ByteSource.remaining, followedBy, List.flatten_append, List.length_append]
    exact Nat.le_add_right _ _
  rw [Overlooks, readBytes, Action.bind_of_ok hfinish', Action.bind_of_ok hfinish,
    Action.bind_of_ok (Action.view_apply _ _), Action.bind_of_ok (Action.view_apply _ _)]
  exact readRest_followedBy behind blocks h₁ htext hfuel hfuel' []

/-- Lines that have arrived, the last of them with no more than its carriage return, are read
    without a look at what comes behind. -/
theorem afterReads_followedBy {ls : List EndedLine} {more : List UInt8} (h : t.Holds bs r k)
    (hcut : CutInto (finishLine r bs ++ more) (ls ++ l :: lines) tail)
    (harrived : ls.flatMap EndedLine.bytes ++ l.text ++ [13] <+: finishLine r bs) :
    afterReads (ls.length + 1) (t.followedBy behind blocks) =
      (afterReads (ls.length + 1) t).followedBy behind blocks := by
  induction ls generalizing t bs r with
  | nil =>
      obtain ⟨rest, hrest⟩ := harrived
      generalize hall : finishLine r bs ++ more = all at hcut
      cases hcut with
      | line unbroken =>
          have hbytes : finishLine r bs = EndedLine.bytes ⟨l.text, .carriage⟩ ++ rest := hrest.symm
          have hreads := readBytes_overlooks behind blocks h hbytes unbroken
          obtain ⟨t', hread, -⟩ := readBytes_eq h
          rw [List.length_nil, afterReads_succ hread, afterReads_succ (hreads.eq hread)]
          rfl
  | cons l₁ ls ih =>
      obtain ⟨rest, hrest⟩ := harrived
      generalize hall : finishLine r bs ++ more = all at hcut
      cases hcut with
      | @line _ others _ _ unbroken whole cut =>
          have hbytes : finishLine r bs =
              l₁.bytes ++ (ls.flatMap EndedLine.bytes ++ l.text ++ [13] ++ rest) := by
            rw [← hrest, List.flatMap_cons]
            simp only [List.append_assoc]
          generalize hfront : ls.flatMap EndedLine.bytes ++ l.text ++ [13] ++ rest = front at hbytes
          have hothers : front ++ more = others := by
            rw [hbytes, List.append_assoc] at hall
            exact List.append_cancel_left hall
          -- the byte that decides where the ending stops has arrived too
          have hwhole : l₁.ending.IsWholeBefore front := by
            intro he
            have hhead := whole he
            rw [← hothers] at hhead
            cases front with
            | nil => exact absurd hfront (by simp)
            | cons b front => exact hhead
          have hreads := readBytes_overlooks behind blocks h hbytes unbroken
          obtain ⟨t', hread, h'⟩ := readBytes_eq h
          rw [hbytes, cutLine_bytes unbroken] at h'
          have hfinish := finishLine_bytes hwhole
          have hrec := ih h' (by rw [hfinish, hothers]; exact cut)
            (by rw [hfinish]; exact ⟨rest, hfront⟩)
          rw [List.length_cons, afterReads_succ hread, afterReads_succ (hreads.eq hread)]
          exact hrec

/-- A terminal returns the lines of its stream one after the other, and nothing once they are
    over, however the stream is cut into chunks. Chunks behind one that brings the carriage
    return of a line are still unread when that line has been returned. -/
theorem reads_lines (stream : List UInt8) :
    ∃ lines tail, CutInto stream lines tail ∧
      (∀ lines' tail', CutInto stream lines' tail' → lines' = lines ∧ tail' = tail) ∧
      ∀ (chunks : List (List UInt8)) (sink : ByteSink), [] ∉ chunks → chunks.flatten = stream →
        (∀ n, (Device.readLine (afterReads n { source := { chunks }, sink })).1 =
          .ok (Utf8.decodeLossy ((lineAt lines tail n).take 1024))) ∧
        (∀ n, lines.length < n →
          (Device.readLine (afterReads n { source := { chunks }, sink })).1 = .ok "") ∧
        ∀ n line front behind, lines[n]? = some line → chunks = front ++ behind →
          (lines.take n).flatMap EndedLine.bytes ++ line.text ++ [13] <+: front.flatten →
          behind <:+ (afterReads (n + 1) { source := { chunks }, sink }).source.chunks := by
  obtain ⟨lines, tail, hcut⟩ := exists_cutInto stream
  refine ⟨lines, tail, hcut, fun _ _ => hcut.unique, ?_⟩
  intro chunks sink hchunks hstream
  have hawaits : Awaits { source := { chunks }, sink } lines tail :=
    ⟨stream, false, ⟨⟨hchunks, rfl⟩, hstream, rfl, rfl⟩, hcut⟩
  refine ⟨readLine_afterReads hawaits, ?_, ?_⟩
  · intro n hn
    have hlength : (lines.map EndedLine.text ++ [tail]).length ≤ n := by
      rw [List.length_append, List.length_map, List.length_singleton]
      exact hn
    rw [readLine_afterReads hawaits, lineAt, List.getElem?_eq_none hlength]
    rfl
  · intro n line front behind hline hfront harrived
    subst hfront
    obtain ⟨hn, rfl⟩ := List.getElem?_eq_some_iff.mp hline
    -- Only what has arrived in front is there to be read; the rest is put behind it.
    have hholds : Holds { source := { chunks := front }, sink } front.flatten false sink :=
      ⟨⟨fun h => hchunks (List.mem_append_left behind h), rfl⟩, rfl, rfl, rfl⟩
    have hsplit : lines.take n ++ lines[n] :: lines.drop (n + 1) = lines := by
      rw [← List.drop_eq_getElem_cons hn, List.take_append_drop]
    have hcut' : CutInto (finishLine false front.flatten ++ behind.flatten)
        (lines.take n ++ lines[n] :: lines.drop (n + 1)) tail := by
      have hall : finishLine false front.flatten ++ behind.flatten = stream :=
        List.flatten_append.symm.trans hstream
      rw [hsplit, hall]
      exact hcut
    have hreads := afterReads_followedBy behind false hholds hcut' harrived
    rw [List.length_take_of_le (Nat.le_of_lt hn)] at hreads
    exact ⟨_, (congrArg (fun t => t.source.chunks) hreads).symm⟩

/-- The first line is returned while the line feed that belongs to its ending is on its way. -/
theorem reads_before_feed :
    let t : Terminal := { source := { chunks := [[97, 13], [10, 98, 99]] } }
    (Device.readLine t).1 = .ok "a" ∧ [[10, 98, 99]] <:+ (afterReads 1 t).source.chunks ∧
      (Device.readLine (afterReads 1 t)).1 = .ok "bc" ∧
      (Device.readLine (afterReads 2 t)).1 = .ok "" := by
  obtain ⟨lines, tail, -, hunique, hreads⟩ := reads_lines [97, 13, 10, 98, 99]
  have htail : CutInto [98, 99] [] [98, 99] :=
    .tail (unbroken_cons (by decide) (unbroken_cons (by decide) unbroken_nil))
  obtain ⟨rfl, rfl⟩ := hunique [⟨[97], .carriageFeed⟩] [98, 99]
    (.line (l := ⟨[97], .carriageFeed⟩) (unbroken_cons (by decide) unbroken_nil)
      (LineEnding.isWholeBefore_of_ne (by decide) _) htail)
  obtain ⟨hlines, hlater, hbehind⟩ := hreads [[97, 13], [10, 98, 99]] {} (by decide) rfl
  refine ⟨hlines 0, ?_, hlines 1, hlater 2 (by decide)⟩
  exact hbehind 0 ⟨[97], .carriageFeed⟩ [[97, 13]] [[10, 98, 99]] rfl rfl ⟨[], rfl⟩

end Terminal

end ZMachine
