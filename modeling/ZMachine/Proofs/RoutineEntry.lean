import ZMachine.Proofs.Step

/-! # Entering a routine

    A routine starts with a header: the number of its locals, at most 15, and
    as many words, their initial values. A call reads the header and pushes the
    frame that it declares, with the arguments in place of the first values. If
    any part of the header is missing, nothing has been touched.

    * `Frame.HasHeader`: a header that lies in memory; `Frame.scan_of_hasHeader`,
      `Frame.declared_of_scan`: it is exactly what can be read;
    * `Frame.Declared`: the frame that a header and arguments declare;
    * `call_of_hasHeader`, `call_of_no_header`: what a call does. -/

namespace ZMachine

variable {μ : Memory} {a b n : Nat}

/-- A routine header lies at an address and asks for the given number of locals. -/
structure Frame.HasHeader (μ : Memory) (a : Nat) (count : UInt8) : Prop where
  number : μ.byteAt a = .ok count
  few : count.toNat ≤ 15
  words : ∀ i < count.toNat, ∃ w, μ.wordAt (a + 1 + 2 * i) = .ok w

/-! ## Words one after another -/

namespace Scan

/-- A word that can be read moves the position by two. -/
theorem word_of_ok {w : UInt16} (h : μ.wordAt a = .ok w) : word μ a = (.ok w, a + 2) := by
  simp only [word, take, h]

/-- A byte that can be read moves the position by one. -/
theorem byte_of_ok {c : UInt8} (h : μ.byteAt a = .ok c) : byte μ a = (.ok c, a + 1) := by
  simp only [byte, take, h]

/-- Words that all lie in memory can be read one after another. -/
theorem words_of_readable (h : ∀ i < n, ∃ w, μ.wordAt (a + 2 * i) = .ok w) :
    ∃ ws, words n μ a = (.ok ws, a + 2 * n) := by
  induction n generalizing a with
  | zero => exact ⟨[], rfl⟩
  | succ n ih =>
      obtain ⟨w, hw⟩ : ∃ w, μ.wordAt a = .ok w := h 0 (Nat.succ_pos n)
      obtain ⟨ws, hws⟩ := ih (a := a + 2) fun i hi => by
        have hnext := h (i + 1) (Nat.succ_lt_succ hi)
        rwa [show a + 2 * (i + 1) = a + 2 + 2 * i by omega] at hnext
      refine ⟨w :: ws, ?_⟩
      rw [words, bind_run, Action.bind_of_ok (word_of_ok hw), bind_run, Action.bind_of_ok hws,
        show a + 2 * (n + 1) = a + 2 + 2 * n by omega]
      rfl

/-- Words that were read one after another are those in memory. -/
theorem wordAt_of_words {ws : List UInt16} (h : words n μ a = (.ok ws, b)) {i : Nat}
    (hi : i < n) : ∃ w, μ.wordAt (a + 2 * i) = .ok w ∧ ws[i]? = some w := by
  -- On the number of words: the others are read from two bytes further on.
  induction n generalizing a ws i with
  | zero => cases hi
  | succ n ih =>
      obtain ⟨w, a', hw, h⟩ := Action.bind_eq_ok.mp h
      obtain ⟨ws', b', hws, h⟩ := Action.bind_eq_ok.mp h
      cases h
      simp only [word, take] at hw
      split at hw
      · next w' hword =>
          cases hw
          cases i with
          | zero => exact ⟨w, hword, rfl⟩
          | succ i =>
              obtain ⟨x, hx, hget⟩ := ih hws (Nat.lt_of_succ_lt_succ hi)
              rw [show a + 2 + 2 * i = a + 2 * (i + 1) by omega] at hx
              exact ⟨x, hx, hget⟩
      · cases hw

end Scan

/-! ## Frames -/

namespace Frame

variable {f : Frame} {r : Nat} {count : UInt8} {arguments : List UInt16}

/-- Arguments take the place of the first locals. -/
theorem getElem?_withArguments {i : Nat} {w : UInt16} (h : f.locals[i]? = some w) :
    (f.withArguments arguments).locals[i]? = some (arguments[i]?.getD w) := by
  have hi : i < f.locals.length := (List.getElem?_eq_some_iff.mp h).1
  simp only [withArguments]
  by_cases hgiven : i < arguments.length
  · rw [List.getElem?_append_left (by rw [List.length_take]; omega), List.getElem?_take,
      if_pos hi, List.getElem?_eq_getElem hgiven]
    rfl
  · have hlength : (arguments.take f.locals.length).length ≤ i := by
      rw [List.length_take]
      omega
    rw [List.getElem?_append_right hlength, List.getElem?_drop, Nat.add_sub_cancel' hlength, h,
      List.getElem?_eq_none (Nat.not_lt.mp hgiven)]
    rfl

/-- The frame of a routine whose header at an address declares a number of locals: it returns
    to `r`, its stack is empty, and a local is an argument or else its initial value. -/
structure Declared (μ : Memory) (a : Nat) (count : UInt8) (r : Nat) (arguments : List UInt16)
    (f : Frame) : Prop where
  address : f.address = a
  returnAddress : f.returnAddress = r
  stack : f.stack = []
  length : f.locals.length = count.toNat
  locals : ∀ i < count.toNat, ∃ w, μ.wordAt (a + 1 + 2 * i) = .ok w ∧
    f.locals[i]? = some (arguments[i]?.getD w)

/-- A routine with a header can be entered, behind its locals. -/
theorem scan_of_hasHeader (heven : a % 2 = 0) (h : HasHeader μ a count) (r : Nat) :
    ∃ f, scan r μ a = (.ok f, a + 1 + 2 * count.toNat) := by
  have hpacked : isPacked a = true := decide_eq_true heven
  have hfew : count.toNat ≤ maxLocals := h.few
  obtain ⟨ws, hws⟩ := Scan.words_of_readable h.words
  refine ⟨{ address := a, returnAddress := r, locals := ws }, ?_⟩
  simp only [scan, Scan.bind_run]
  rw [Action.bind_of_ok (show Scan.position μ a = (.ok a, a) from rfl), if_pos hpacked,
    Scan.bind_run, Action.bind_of_ok (Scan.byte_of_ok h.number), if_pos hfew, Scan.bind_run,
    Action.bind_of_ok hws]
  rfl

/-- A frame that was read is the one that a header declares, and its code follows the header. -/
theorem declared_of_scan (h : scan r μ a = (.ok f, b)) (arguments : List UInt16) :
    ∃ count, HasHeader μ a count ∧ b = a + 1 + 2 * count.toNat ∧
      Declared μ a count r arguments (f.withArguments arguments) := by
  obtain ⟨-, -, -, -, -, count, hcount, hlength, hb⟩ := scan_eq_ok h
  simp only [scan, Scan.bind_run] at h
  obtain ⟨address, a₀, ha, h⟩ := Action.bind_eq_ok.mp h
  cases ha
  split at h
  · obtain ⟨count', a₁, hbyte, h⟩ := Action.bind_eq_ok.mp h
    -- The count that was read is the one in memory.
    cases (Scan.byte_of_ok hcount).symm.trans hbyte
    dsimp only at h
    split at h
    · next hfew =>
        obtain ⟨ws, a₂, hws, h⟩ := Action.bind_eq_ok.mp h
        cases h
        refine ⟨count, ⟨hcount, hfew, ?_⟩, hb, rfl, rfl, rfl, ?_, ?_⟩
        · intro i hi
          obtain ⟨w, hw, -⟩ := Scan.wordAt_of_words hws hi
          exact ⟨w, hw⟩
        · exact (length_withArguments _ arguments).trans hlength
        · intro i hi
          obtain ⟨w, hw, hget⟩ := Scan.wordAt_of_words hws hi
          exact ⟨w, hw, getElem?_withArguments hget⟩
    · cases h
  · cases h

end Frame

/-! ## Calls -/

/-- Routines lie at even addresses. -/
theorem unpack_even (packed : UInt16) : unpack packed % 2 = 0 := Nat.mul_mod_right 2 packed.toNat

namespace Machine

variable {m : Machine} {packed : UInt16} {count : UInt8}

/-- A call of a routine with a header pushes the frame that it declares. -/
theorem call_of_hasHeader (hpacked : packed ≠ 0)
    (h : Frame.HasHeader m.memory (unpack packed) count) (arguments : List UInt16) :
    ∃ f, call packed arguments m = (.ok (),
        { m with calls := m.calls.push f, pc := unpack packed + 1 + 2 * count.toNat }) ∧
      Frame.Declared m.memory (unpack packed) count m.pc arguments f := by
  obtain ⟨f, hscan⟩ := Frame.scan_of_hasHeader (unpack_even packed) h m.pc
  obtain ⟨count', hheader, -, hdeclared⟩ := Frame.declared_of_scan hscan arguments
  cases h.number.symm.trans hheader.number
  refine ⟨f.withArguments arguments, ?_, hdeclared⟩
  rw [call_eq hpacked, hscan]

/-- A call of an address without a header changes nothing. -/
theorem call_of_no_header (hpacked : packed ≠ 0)
    (h : ¬ ∃ count, Frame.HasHeader m.memory (unpack packed) count) (arguments : List UInt16) :
    ∃ e, call packed arguments m = (.error e, m) := by
  rw [call_eq hpacked]
  cases hscan : Frame.scan m.pc m.memory (unpack packed) with
  | mk r b =>
      cases r with
      | error e => exact ⟨e, rfl⟩
      | ok f =>
          obtain ⟨count, hheader, -⟩ := Frame.declared_of_scan hscan arguments
          exact absurd ⟨count, hheader⟩ h

end Machine

namespace Session

variable {δ : Type} [Device δ]

/-- A call of an address other than 0 succeeds exactly if a routine header lies there. It then
    pushes the frame that the header and the arguments declare and goes on after the header;
    all else is as it was, and if it fails, everything is. A call of address 0 stores 0 and
    leaves the frames in place. -/
theorem call_enters_or_keeps (packed : UInt16) (arguments : List UInt16) (s : Session δ) :
    (packed ≠ 0 →
      ((∃ t, executeMany .call (packed :: arguments) s = (.ok (), t)) ↔
        ∃ count, Frame.HasHeader s.machine.memory (2 * packed.toNat) count) ∧
      (∀ t, executeMany .call (packed :: arguments) s = (.ok (), t) → ∃ count f,
        Frame.HasHeader s.machine.memory (2 * packed.toNat) count ∧
        Frame.Declared s.machine.memory (2 * packed.toNat) count s.machine.pc arguments f ∧
        t.device = s.device ∧ t.machine =
          { s.machine with
            calls := s.machine.calls.push f
            pc := 2 * packed.toNat + 1 + 2 * count.toNat }) ∧
      ∀ e t, executeMany .call (packed :: arguments) s = (.error e, t) → t = s) ∧
    (packed = 0 →
      executeMany .call (packed :: arguments) s = onMachine (Machine.storeResult 0) s ∧
      (executeMany .call (packed :: arguments) s).2.machine.calls.callers =
        s.machine.calls.callers) := by
  constructor
  · intro hpacked
    -- A call succeeds exactly if the routine has a header, which settles all three parts.
    by_cases hheader : ∃ count, Frame.HasHeader s.machine.memory (unpack packed) count
    · obtain ⟨count, h⟩ := hheader
      obtain ⟨f, hcall, hdeclared⟩ := Machine.call_of_hasHeader hpacked h arguments
      have hexecute : executeMany .call (packed :: arguments) s = (.ok (), ⟨_, s.device⟩) :=
        onMachine_eq_iff.mpr ⟨hcall, rfl⟩
      refine ⟨⟨fun _ => ⟨count, h⟩, fun _ => ⟨_, hexecute⟩⟩, ?_, ?_⟩
      · intro t ht
        cases hexecute.symm.trans ht
        exact ⟨count, f, h, hdeclared, rfl, rfl⟩
      · intro e t ht
        cases hexecute.symm.trans ht
    · obtain ⟨e, hcall⟩ := Machine.call_of_no_header hpacked hheader arguments
      have hexecute : executeMany .call (packed :: arguments) s = (.error e, s) :=
        onMachine_eq_iff.mpr ⟨hcall, rfl⟩
      refine ⟨⟨?_, fun h => absurd h hheader⟩, ?_, ?_⟩
      · rintro ⟨t, ht⟩
        cases hexecute.symm.trans ht
      · intro t ht
        cases hexecute.symm.trans ht
      · intro e' t ht
        cases hexecute.symm.trans ht
        rfl
  · rintro rfl
    have hstore : executeMany .call (0 :: arguments) s = onMachine (Machine.storeResult 0) s := rfl
    refine ⟨hstore, ?_⟩
    rw [hstore, onMachine_apply]
    exact ((Machine.moves_storeResult 0).obeys s.machine).1.callers

/-- The routine at 74 has one local, so of two arguments one is dropped; at 64 there is no
    header, since 224 is no number of locals. -/
theorem nested_call_enters :
    (∃ t f, executeMany .call [37, 9, 8] nestedSession = (.ok (), t) ∧
      t.machine.calls = nestedSession.machine.calls.push f ∧ f.locals.length = 1 ∧
      f.locals[0]? = some 9 ∧ t.machine.pc = 77) ∧
    ∀ e t, executeMany .call [32] nestedSession = (.error e, t) → t = nestedSession := by
  constructor
  · have hheader : Frame.HasHeader nestedSession.machine.memory (2 * 37) 1 := by
      refine ⟨rfl, by decide, ?_⟩
      intro i hi
      obtain rfl : i = 0 := Nat.lt_one_iff.mp hi
      exact ⟨5, rfl⟩
    obtain ⟨hsucceeds, henters, -⟩ :=
      (call_enters_or_keeps 37 [9, 8] nestedSession).1 (by decide)
    obtain ⟨t, ht⟩ := hsucceeds.mpr ⟨1, hheader⟩
    obtain ⟨count, f, hheader', hdeclared, -, hmachine⟩ := henters t ht
    cases hheader.number.symm.trans hheader'.number
    obtain ⟨w, -, hlocal⟩ := hdeclared.locals 0 (by decide)
    refine ⟨t, f, ht, ?_, hdeclared.length, hlocal, ?_⟩
    · rw [hmachine]
    · rw [hmachine]
      rfl
  · exact ((call_enters_or_keeps 32 [] nestedSession).1 (by decide)).2.2

end Session

end ZMachine
