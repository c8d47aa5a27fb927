import ZMachine.Machine.Run

/-! # Checks that always hold

    The operations of the machine check what they rely on. This file goes
    through the checks that depend on nothing but the operation itself: for each
    of them it shows that the condition holds and says what is left of the
    operation then, so that nothing else has to look at the check again.

    Checks that rely on more stand where that is established: the words of a
    line in `Proofs.Memory`, the size of an instruction in `Proofs.Decoding`, the
    bounds of a restart in `Proofs.Step`, and the walk along a property list, the
    one check that a story can break, in `Proofs.Faults`. -/

namespace ZMachine

/-! ## Header -/

namespace Header

variable {α : Type}

/-- A field that lies in the image is read without more ado. -/
theorem field_of_le {image : Memory} {place width : Nat} {read : Memory → Nat → Except Fault α}
    (h : place + width ≤ image.size) : field image place width read = read image place := by
  rw [field, Checked.require_of h]
  rfl

/-- An image with a header has all of its fields. -/
theorem ofImage_eq (image : Memory) : ofImage image =
    if image.size < length then .error (.storyTooShort image.size)
    else (do
      let version ← image.byteAt 0
      if version = 3 then
        let flags ← image.byteAt 1
        let release ← image.wordAt 2
        let highMemory ← image.wordAt 4
        let initialPc ← image.wordAt 6
        let dictionary ← image.wordAt 8
        let objects ← image.wordAt 10
        let globals ← image.wordAt 12
        let staticMemory ← image.wordAt 14
        let serial ← image.slice 18 6
        let abbreviations ← image.wordAt 24
        let halfLength ← image.wordAt 26
        let checksum ← image.wordAt 28
        .ok {
          version, flags, release, highMemory, initialPc, dictionary, objects, globals,
          staticMemory, abbreviations, checksum
          serial := String.ofList (serial.map fun b => Char.ofNat b.toNat)
          fileLength := 2 * halfLength.toNat }
      else
        .error (.unsupportedVersion version)) := by
  by_cases h : image.size < length
  · rw [ofImage, if_pos h, if_pos h]
  · have hlength : 64 ≤ image.size := Nat.not_lt.mp h
    rw [ofImage, if_neg h, if_neg h]
    simp (disch := omega) only [field_of_le]

end Header

/-! ## Frames

    The locals and the evaluation stack are two parts of one list of values, so
    the slices that take them apart again are in range. -/

namespace Frame

variable (f : Frame) {v : UInt8} {i : Nat}

theorem length_locals_le_values : f.locals.length ≤ f.values.length := by
  rw [values, List.length_append]
  exact Nat.le_add_right _ _

/-- The first part of the values is the locals. -/
theorem localValues_eq : f.localValues = .ok f.locals := by
  rw [localValues, Checked.slice_of_le (Nat.zero_le _) f.length_locals_le_values, values,
    List.take_left, List.drop_zero]

/-- The rest of the values is the evaluation stack, from the bottom. -/
theorem stackValues_eq : f.stackValues = .ok f.stack.reverse := by
  rw [stackValues, Checked.slice_of_le f.length_locals_le_values (Nat.le_refl _),
    List.take_length, values, List.drop_left]

/-- Arguments find the slice for the locals in range. -/
theorem applyArguments_eq (arguments : List UInt16) :
    f.applyArguments arguments = .ok (f.withArguments arguments) := by
  rw [applyArguments, localValues_eq]
  rfl

/-- The value on top is the one that was pushed last. -/
theorem peek_of_cons {x : UInt16} {rest : List UInt16} (h : f.stack = x :: rest) :
    f.peek = .ok x := by
  have hlast : f.stack.reverse.getLast? = some x := by
    rw [List.getLast?_reverse, h, List.head?_cons]
  rw [peek, stackValues_eq]
  simp only [bind, Except.bind, hlast]

theorem peek_of_nil (h : f.stack = []) : f.peek = .error (.stackUnderflow f.address) := by
  rw [peek, stackValues_eq, h]
  rfl

/-- The number of a local variable is one more than its place. -/
theorem localIndex_of_lt (hv : v.toNat = i + 1) (hi : i < f.locals.length) :
    f.localIndex v = .ok i := by
  rw [localIndex, if_pos (by omega), Checked.sub_of_le (by omega), hv, Nat.add_sub_cancel]

/-- Variables without a place among the locals are refused. -/
theorem localIndex_of_outside (h : ¬ (1 ≤ v.toNat ∧ v.toNat ≤ f.locals.length)) :
    f.localIndex v = .error (.localOutOfRange v f.locals.length) := if_neg h

theorem getLocal_of_lt (hv : v.toNat = i + 1) {x : UInt16} (hx : f.locals[i]? = some x) :
    f.getLocal v = .ok x := by
  have hi := (List.getElem?_eq_some_iff.mp hx).1
  rw [getLocal, f.localIndex_of_lt hv hi]
  exact Checked.index_of_getElem? hx

theorem getLocal_of_outside (h : ¬ (1 ≤ v.toNat ∧ v.toNat ≤ f.locals.length)) :
    f.getLocal v = .error (.localOutOfRange v f.locals.length) := by
  rw [getLocal, f.localIndex_of_outside h]
  rfl

theorem setLocal_of_lt (hv : v.toNat = i + 1) (hi : i < f.locals.length) (x : UInt16) :
    f.setLocal v x = .ok { f with locals := f.locals.set i x } := by
  rw [setLocal, f.localIndex_of_lt hv hi]
  show (Checked.require .localIndex (i < f.locals.length) >>= fun _ => _) = _
  rw [Checked.require_of hi]
  rfl

theorem setLocal_of_outside (h : ¬ (1 ≤ v.toNat ∧ v.toNat ≤ f.locals.length)) (x : UInt16) :
    f.setLocal v x = .error (.localOutOfRange v f.locals.length) := by
  rw [setLocal, f.localIndex_of_outside h]
  rfl

end Frame

/-! ## Objects -/

namespace ObjectTable

variable (t : ObjectTable) (o n : UInt16)

/-- Objects are numbered from 1, so that their entries can be counted from 0. -/
theorem entry_eq : t.entry o =
    if 1 ≤ o.toNat ∧ o.toNat ≤ t.count then
      .ok (firstEntry t.defaults + entrySize * (o.toNat - 1))
    else .error (.invalidObject o) := by
  by_cases h : 1 ≤ o.toNat ∧ o.toNat ≤ t.count
  · rw [entry, if_pos h, if_pos h, Checked.sub_of_le h.1]
    rfl
  · rw [entry, if_neg h, if_neg h]

/-- The bytes for attributes have a bit for each attribute. -/
theorem attributeOffset_of_lt {n : Nat} (h : n < attributeCount) :
    attributeOffset n = .ok (n / 8) := by
  rw [attributeOffset, Checked.require_of (show n < 8 * attributeBytes from h)]
  rfl

/-- Where an attribute has a byte, it is the one with its number divided by 8. -/
theorem hasAttribute_eq (m : Memory) : t.hasAttribute m o n =
    if attributeCount ≤ n.toNat then pure false
    else (do
      let e ← t.entry o
      let b ← m.byteAt (e + n.toNat / 8)
      pure (b &&& attributeMask n.toNat != 0)) := by
  by_cases h : attributeCount ≤ n.toNat
  · rw [hasAttribute, if_pos h, if_pos h]
  · rw [hasAttribute, if_neg h, if_neg h, attributeOffset_of_lt (Nat.not_le.mp h)]
    rfl

theorem setAttribute_eq (on : Bool) : t.setAttribute o n on =
    if attributeCount ≤ n.toNat then pure ()
    else (do
      let e ← .ofExcept (t.entry o)
      let a := e + n.toNat / 8
      let b ← .ask (·.byteAt a)
      let mask := attributeMask n.toNat
      Memory.writeByte a (if on then b ||| mask else b &&& ~~~mask)) := by
  by_cases h : attributeCount ≤ n.toNat
  · rw [setAttribute, if_pos h, if_pos h]
  · rw [setAttribute, if_neg h, if_neg h, attributeOffset_of_lt (Nat.not_le.mp h)]
    rfl

/-- Before every address but 0 there is one for the size byte. -/
theorem lengthAt_eq (m : Memory) (a : UInt16) : lengthAt m a =
    if a = 0 then pure 0
    else (do
      let size ← m.byteAt (a.toNat - 1)
      pure (UInt16.ofNat (propertyLength size))) := by
  by_cases h : a = 0
  · rw [lengthAt, if_pos h, if_pos h]
  · have ha : 1 ≤ a.toNat := Nat.one_le_iff_ne_zero.mpr fun hzero => h (UInt16.toNat.inj hzero)
    rw [lengthAt, if_neg h, if_neg h, Checked.sub_of_le ha]
    rfl

end ObjectTable

/-! ## Strings -/

namespace Text

/-- A code from 6 up has a place in every alphabet. -/
theorem Alphabet.lookup_of_le (a : Alphabet) {code : Code} (h : firstCode ≤ code.val) :
    a.lookup code.val = .ok (a.character code h) := by
  rw [lookup, Checked.sub_of_le h]
  exact Checked.index_of_getElem? (List.getElem?_eq_getElem _)

/-- Reading a code in an alphabet: every lookup finds something. -/
theorem Symbol.next_none (row : Alphabet) (code : Code) : next (.none row) code =
    if h : Alphabet.firstCode ≤ code.val then
      if row = .punctuation ∧ code.val = Alphabet.firstCode then (none, .escapeHigh)
      else (some (char (row.character code h)), .none .lower)
    else if code.val = 0 then (some (char ' '), .none row)
    else if code.val ≤ 3 then (none, .abbreviation (code.val - 1))
    else if code.val = 4 then (none, .none .upper)
    else (none, .none .punctuation) := by
  rw [next]
  by_cases hfirst : Alphabet.firstCode ≤ code.val
  · rw [if_pos hfirst, dif_pos hfirst, row.lookup_of_le hfirst]
  rw [if_neg hfirst, dif_neg hfirst]
  by_cases hzero : code.val = 0
  · rw [if_pos hzero, if_pos hzero]
  rw [if_neg hzero, if_neg hzero]
  by_cases hblock : code.val ≤ 3
  · rw [if_pos hblock, if_pos hblock, Checked.sub_of_le (Nat.one_le_iff_ne_zero.mpr hzero)]
  rw [if_neg hblock, if_neg hblock]
  -- What is left are the two shifts.
  by_cases hfour : code.val = 4
  · rw [if_pos hfour, hfour]
    rfl
  · have hfirst : code.val < 6 := Nat.not_le.mp hfirst
    rw [if_neg hfour, show code.val = 5 by omega]
    rfl

namespace Symbol

/-- Codes are spelled one by one: each may yield a symbol, and passes on what is pending. -/
theorem spellFrom_cons (p : Pending) (code : Code) (cs : List Code) :
    spellFrom p (code :: cs) = (next p code).1.toList ++ spellFrom (next p code).2 cs := by
  rw [spellFrom]
  generalize next p code = r
  obtain ⟨s, q⟩ := r
  cases s <;> rfl

/-- No symbol that codes spell breaks off the reading. -/
theorem ne_fault_of_mem_spellFrom {p : Pending} {cs : List Code} {s : Symbol}
    (hs : s ∈ spellFrom p cs) (e : Fault) : s ≠ fault e := by
  rintro rfl
  induction cs generalizing p with
  | nil => cases hs
  | cons code cs ih =>
      rw [spellFrom_cons, List.mem_append, Option.mem_toList] at hs
      rcases hs with hs | hs
      · cases p with
        | abbreviation | escapeHigh | escapeLow => cases hs
        | none row =>
            rw [next_none] at hs
            repeat' split at hs
            all_goals cases hs
      · exact ih hs

end Symbol

end Text

/-! ## Variables and printed text -/

namespace Machine

variable {v : UInt8}

/-- Variables from 16 up have a place among the global ones. -/
theorem locateGlobal_of_le (hv : 16 ≤ v.toNat) :
    locateGlobal v = .view (globalAddress · v) := by
  rw [locateGlobal, Checked.sub_of_le (show firstGlobal ≤ v.toNat from hv)]
  rfl

theorem readGlobal_eq (hv : 16 ≤ v.toNat) :
    readGlobal v = .ask fun m => m.memory.wordAt (m.globalAddress v) := by
  rw [readGlobal, locateGlobal_of_le hv]
  rfl

theorem writeGlobal_eq (hv : 16 ≤ v.toNat) (x : UInt16) :
    writeGlobal v x = (do
      let a ← .view (globalAddress · v)
      onMemory (Memory.writeWord a x)) := by
  rw [writeGlobal, locateGlobal_of_le hv]

/-- The count of a table grows by the number of characters that are appended. -/
theorem appendText_counts (table : Nat) (text : String) : appendText table text = (do
    let count ← .ask (·.wordAt table)
    Memory.writeBytes (table + 2 + count.toNat) (text.toList.map tableByte)
    Memory.writeWord table (UInt16.ofNat (count.toNat + text.length))) := by
  have hwritten (count : UInt16) : Checked.sub .tableEnd (table + 2 + count.toNat + text.length)
      (table + 2) = .ok (count.toNat + text.length) := by
    rw [Checked.sub_of_le (by omega), Nat.add_assoc _ count.toNat, Nat.add_sub_cancel_left]
  simp only [appendText, hwritten]
  rfl

end Machine

end ZMachine
