import ZMachine.Proofs.Memory

/-! # Bytes in memory

    What a memory holds from an address on, and what a write leaves there.

    * `Memory.Holds`: the bytes from an address on; `wordAt_eq_ok`: a word is two
      of them; `byteAt_congr`, `wordAt_congr`: memories with the same bytes there;
    * `Memory.Overwritten`: a memory with bytes put into it and nothing else
      changed; `writeByte_eq`, `writeWord_eq`, `writeBytes_eq`, `fill_eq` and
      `restorePrefix_eq`: a write that fits into memory does just that;
      `writeBytes_of_short`: one that does not. -/

namespace ZMachine

/-- A word is made up of its two bytes. -/
theorem word_highByte_lowByte (w : UInt16) : word (highByte w) (lowByte w) = w := by
  have hw := w.toNat_lt
  apply UInt16.toNat.inj
  simp only [word, highByte, lowByte, UInt16.toNat_ofNat', UInt8.toNat_ofNat']
  omega

theorem highByte_word (high low : UInt8) : highByte (word high low) = high := by
  have hh := high.toNat_lt
  have hl := low.toNat_lt
  apply UInt8.toNat.inj
  simp only [word, highByte, UInt16.toNat_ofNat', UInt8.toNat_ofNat']
  omega

theorem lowByte_word (high low : UInt8) : lowByte (word high low) = low := by
  have hh := high.toNat_lt
  have hl := low.toNat_lt
  apply UInt8.toNat.inj
  simp only [word, lowByte, UInt16.toNat_ofNat', UInt8.toNat_ofNat']
  omega

namespace Memory

/-- A memory has the given bytes from an address on. -/
def Holds (m : Memory) (a : Nat) (bs : List UInt8) : Prop :=
  ∀ k b, bs[k]? = some b → m.byteAt (a + k) = .ok b

instance (m : Memory) (a : Nat) (bs : List UInt8) : Decidable (m.Holds a bs) :=
  decidable_of_iff (∀ k < bs.length, m.bytes[a + k]? = bs[k]?) <| by
    constructor
    · intro h k b hb
      have hk : k < bs.length := (List.getElem?_eq_some_iff.mp hb).1
      exact byteAt_eq_ok.mpr ((h k hk).trans hb)
    · intro h k hk
      rw [List.getElem?_eq_getElem hk]
      exact byteAt_eq_ok.mp (h k _ (List.getElem?_eq_getElem hk))

variable {m m' : Memory} {a : Nat}

theorem holds_nil : m.Holds a [] := by
  intro k b h
  rw [List.getElem?_nil] at h
  cases h

/-- Bytes lie in memory if the first does and the others lie behind it. -/
theorem holds_cons {b : UInt8} {bs : List UInt8} :
    m.Holds a (b :: bs) ↔ m.byteAt a = .ok b ∧ m.Holds (a + 1) bs := by
  constructor
  · intro h
    refine ⟨h 0 b rfl, ?_⟩
    intro k c hc
    rw [Nat.add_assoc, Nat.add_comm 1 k]
    exact h (k + 1) c hc
  · rintro ⟨hb, hbs⟩ k c hc
    cases k with
    | zero =>
        cases hc
        exact hb
    | succ k =>
        rw [Nat.add_comm k 1, ← Nat.add_assoc]
        exact hbs k c hc

/-- Two sequences lie in memory as one if the second lies where the first ends. -/
theorem holds_append {bs cs : List UInt8} :
    m.Holds a (bs ++ cs) ↔ m.Holds a bs ∧ m.Holds (a + bs.length) cs := by
  induction bs generalizing a with
  | nil => simp [holds_nil]
  | cons b bs ih =>
      rw [List.cons_append, holds_cons, holds_cons, ih, and_assoc, List.length_cons,
        Nat.add_comm bs.length 1, Nat.add_assoc]

/-- Bytes that a memory has are there in every memory that agrees with it on their range. -/
theorem Holds.of_agree {bs : List UInt8} (h : m.Holds a bs)
    (hm : ∀ x, a ≤ x → x < a + bs.length → m'.bytes[x]? = m.bytes[x]?) : m'.Holds a bs := by
  intro k b hb
  have hk : k < bs.length := (List.getElem?_eq_some_iff.mp hb).1
  rw [byteAt_eq_ok, hm (a + k) (Nat.le_add_right a k) (Nat.add_lt_add_left hk a), ← byteAt_eq_ok]
  exact h k b hb

/-- Memories that have the same bytes agree on their range. -/
theorem Holds.getElem? {bs : List UInt8} {m₁ m₂ : Memory} (h₁ : m₁.Holds a bs)
    (h₂ : m₂.Holds a bs) {x : Nat} (hlow : a ≤ x) (hhigh : x < a + bs.length) :
    m₁.bytes[x]? = m₂.bytes[x]? := by
  obtain ⟨k, rfl⟩ := Nat.exists_eq_add_of_le hlow
  have hk : bs[k]? = some bs[k] := List.getElem?_eq_getElem (Nat.lt_of_add_lt_add_left hhigh)
  rw [byteAt_eq_ok.mp (h₁ k _ hk), byteAt_eq_ok.mp (h₂ k _ hk)]

/-- Memories with the same bytes are equal. -/
theorem eq_of_getElem? {m m' : Memory} (h : ∀ a : Nat, m.bytes[a]? = m'.bytes[a]?) :
    m = m' := by
  obtain ⟨bytes⟩ := m
  obtain ⟨bytes'⟩ := m'
  exact congrArg Memory.mk (Array.ext_getElem? h)

/-- A word is the two bytes at its address, the high one first. -/
theorem wordAt_eq_ok {w : UInt16} : m.wordAt a = .ok w ↔ m.Holds a [highByte w, lowByte w] := by
  rw [holds_cons, holds_cons, byteAt_eq_ok, byteAt_eq_ok, wordAt]
  -- Both sides fail together: a word can be read exactly where its second byte can.
  by_cases h : a + 1 < m.bytes.size
  · have ha : a < m.bytes.size := Nat.lt_of_succ_lt h
    rw [dif_pos h, Array.getElem?_eq_getElem ha, Array.getElem?_eq_getElem h]
    constructor
    · intro hw
      cases hw
      rw [highByte_word, lowByte_word]
      exact ⟨rfl, rfl, holds_nil⟩
    · rintro ⟨hhigh, hlow, -⟩
      rw [Option.some.inj hhigh, Option.some.inj hlow, word_highByte_lowByte]
  · rw [dif_neg h, Array.getElem?_eq_none (Nat.le_of_not_lt h)]
    constructor
    · intro hw
      cases hw
    · rintro ⟨-, hlow, -⟩
      cases hlow

/-- Where bytes are the same, reading a byte is. -/
theorem byteAt_congr (hsize : m'.size = m.size) (h : m'.bytes[a]? = m.bytes[a]?) :
    m'.byteAt a = m.byteAt a := by
  by_cases ha : a < m.bytes.size
  · have hbyte : m.byteAt a = .ok m.bytes[a] := dif_pos ha
    rw [hbyte, byteAt_eq_ok, h, ← byteAt_eq_ok, hbyte]
  · have hbytes : m'.bytes.size = m.bytes.size := hsize
    have ha' : ¬ a < m'.bytes.size := by rwa [hbytes]
    rw [byteAt, byteAt, dif_neg ha, dif_neg ha', outside, outside, hsize]

/-- Where two bytes are the same, reading a word is. -/
theorem wordAt_congr (hsize : m'.size = m.size) (h : m'.bytes[a]? = m.bytes[a]?)
    (h' : m'.bytes[a + 1]? = m.bytes[a + 1]?) : m'.wordAt a = m.wordAt a := by
  by_cases ha : a + 1 < m.bytes.size
  · have hword : m.wordAt a = .ok (word m.bytes[a] m.bytes[a + 1]) := dif_pos ha
    rw [hword, wordAt_eq_ok]
    refine (wordAt_eq_ok.mp hword).of_agree ?_
    intro x hlow hhigh
    rw [List.length_cons, List.length_singleton] at hhigh
    obtain rfl | rfl : x = a ∨ x = a + 1 := by omega
    · exact h
    · exact h'
  · have hbytes : m'.bytes.size = m.bytes.size := hsize
    have ha' : ¬ a + 1 < m'.bytes.size := by rwa [hbytes]
    rw [wordAt, wordAt, dif_neg ha, dif_neg ha', outside, outside, hsize]

/-! ## Writes -/

/-- The memory with bytes put from an address on. -/
structure Overwritten (m : Memory) (a : Nat) (bs : List UInt8) (m' : Memory) : Prop where
  size : m'.size = m.size
  holds : m'.Holds a bs
  unchanged : ∀ x, x < a ∨ a + bs.length ≤ x → m'.bytes[x]? = m.bytes[x]?

theorem overwritten_nil (m : Memory) (a : Nat) : m.Overwritten a [] m :=
  ⟨rfl, holds_nil, fun _ _ => rfl⟩

/-- One byte that is put leaves all others as they are. -/
theorem Overwritten.unchanged_of_ne {b : UInt8} {x : Nat} (h : m.Overwritten a [b] m')
    (hx : x ≠ a) : m'.bytes[x]? = m.bytes[x]? := by
  refine h.unchanged x ?_
  rw [List.length_singleton]
  omega

/-- Bytes that are put behind others leave these as they are. -/
theorem Overwritten.append {bs cs : List UInt8} {m₁ m₂ : Memory} (h₁ : m.Overwritten a bs m₁)
    (h₂ : m₁.Overwritten (a + bs.length) cs m₂) : m.Overwritten a (bs ++ cs) m₂ := by
  refine ⟨h₂.size.trans h₁.size, holds_append.mpr ⟨?_, h₂.holds⟩, ?_⟩
  · exact h₁.holds.of_agree fun x _ hx => h₂.unchanged x (.inl hx)
  · intro x hx
    rw [List.length_append] at hx
    rw [h₂.unchanged x (by omega), h₁.unchanged x (by omega)]

/-- Putting back bytes that were overwritten restores the memory. -/
theorem Overwritten.restores {bs cs : List UInt8} {m₁ m₂ : Memory} (h₁ : m.Overwritten a bs m₁)
    (h₂ : m₁.Overwritten a cs m₂) (hlength : bs.length = cs.length) (hm : m.Holds a cs) :
    m₂ = m := by
  refine eq_of_getElem? fun x => ?_
  by_cases hx : a ≤ x ∧ x < a + cs.length
  · exact h₂.holds.getElem? hm hx.1 hx.2
  · rw [h₂.unchanged x (by omega), h₁.unchanged x (by omega)]

theorem overwritten_setByte (h : a < m.size) (b : UInt8) :
    m.Overwritten a [b] (m.setByte a b) := by
  refine ⟨m.size_setByte a b, holds_cons.mpr ⟨?_, holds_nil⟩, ?_⟩
  · exact byteAt_eq_ok.mpr (Array.getElem?_setIfInBounds_self_of_lt h)
  · intro x hx
    rw [List.length_singleton] at hx
    exact m.getElem?_setByte_ne b (by omega)

/-- A byte that lies in memory is written. -/
theorem writeByte_eq (h : a < m.size) (b : UInt8) :
    ∃ m', writeByte a b m = (.ok (), m') ∧ m.Overwritten a [b] m' :=
  ⟨m.setByte a b, if_pos h, overwritten_setByte h b⟩

/-- A word that lies in memory is written, high byte first. -/
theorem writeWord_eq (h : a + 2 ≤ m.size) (w : UInt16) :
    ∃ m', writeWord a w m = (.ok (), m') ∧ m.Overwritten a [highByte w, lowByte w] m' := by
  refine ⟨_, if_pos h, (overwritten_setByte (by omega) (highByte w)).append ?_⟩
  exact overwritten_setByte (by rw [size_setByte]; exact h) (lowByte w)

/-- Bytes that lie in memory are written, one behind another. -/
theorem writeBytes_eq {bs : List UInt8} (h : a + bs.length ≤ m.size) :
    ∃ m', writeBytes a bs m = (.ok (), m') ∧ m.Overwritten a bs m' := by
  induction bs generalizing m a with
  | nil => exact ⟨m, rfl, overwritten_nil m a⟩
  | cons b bs ih =>
      rw [List.length_cons] at h
      obtain ⟨m₁, hbyte, h₁⟩ := writeByte_eq (m := m) (a := a) (by omega) b
      obtain ⟨m₂, hrest, h₂⟩ := ih (m := m₁) (a := a + 1) (by rw [h₁.size]; omega)
      exact ⟨m₂, (Action.bind_of_ok hbyte).trans hrest, h₁.append h₂⟩

/-- A memory that is put together from its bytes before a range, bytes for the range and its
    bytes behind it. -/
theorem overwritten_splice {bs : Array UInt8} (h : a + bs.size ≤ m.size) :
    m.Overwritten a bs.toList
      ⟨m.bytes.extract 0 a ++ bs ++ m.bytes.extract (a + bs.size) m.size⟩ := by
  have hsize : m.bytes.size = m.size := rfl
  -- The three parts have the sizes that make up that of the memory.
  have hfront : (m.bytes.extract 0 a).size = a := by
    rw [Array.size_extract, hsize]
    omega
  have hmiddle : (m.bytes.extract 0 a ++ bs).size = a + bs.size := by
    rw [Array.size_append, hfront]
  have hback : (m.bytes.extract (a + bs.size) m.size).size = m.size - (a + bs.size) := by
    rw [Array.size_extract, hsize, Nat.min_self]
  refine ⟨?_, ?_, ?_⟩
  · rw [size, Array.size_append, hmiddle, hback]
    omega
  · intro k b hb
    have hk : k < bs.size := (List.getElem?_eq_some_iff.mp hb).1
    rw [byteAt_eq_ok, Array.getElem?_append_left (by omega),
      Array.getElem?_append_right (by omega), hfront, Nat.add_sub_cancel_left,
      ← Array.getElem?_toList]
    exact hb
  · intro x hx
    rw [Array.length_toList] at hx
    rcases hx with hx | hx
    · rw [Array.getElem?_append_left (by omega), Array.getElem?_append_left (by omega),
        Array.getElem?_extract, Nat.zero_add, if_pos (by omega)]
    · rw [Array.getElem?_append_right (by omega), hmiddle, Array.getElem?_extract,
        Nat.add_sub_cancel' hx]
      split
      · rfl
      · rw [Array.getElem?_eq_none (by omega)]

/-- A range that lies in memory is filled with one value. -/
theorem fill_eq {n : Nat} (h : a + n ≤ m.size) (v : UInt8) :
    ∃ m', fill a n v m = (.ok (), m') ∧ m.Overwritten a (List.replicate n v) m' := by
  refine ⟨_, if_pos h, ?_⟩
  have hsize : a + (Array.replicate n v).size ≤ m.size := by rwa [Array.size_replicate]
  have hsplice := overwritten_splice hsize
  rwa [Array.size_replicate, Array.toList_replicate] at hsplice

/-- The start of memory is overwritten by an image that is not larger. -/
theorem restorePrefix_eq {image : Array UInt8} (h : image.size ≤ m.size) :
    ∃ m', restorePrefix image m = (.ok (), m') ∧ m.Overwritten 0 image.toList m' := by
  refine ⟨_, if_pos h, ?_⟩
  have hsize : 0 + image.size ≤ m.size := by rwa [Nat.zero_add]
  have hsplice := overwritten_splice hsize
  rwa [Nat.zero_add, Array.extract_zero, Array.empty_append] at hsplice

/-- Bytes that do not all fit are written up to the end of memory. -/
theorem writeBytes_of_short {bs : List UInt8} (hne : bs ≠ []) (h : m.size < a + bs.length) :
    ∃ m', writeBytes a bs m = (.error (.outOfBounds (max a m.size) 1 m.size), m') ∧
      m'.size = m.size ∧ ∀ x, x < a → m'.bytes[x]? = m.bytes[x]? := by
  induction bs generalizing m a with
  | nil => exact absurd rfl hne
  | cons b bs ih =>
      -- The bytes before the end are written; the one at the end is refused.
      by_cases ha : a < m.size
      · obtain ⟨m₁, hbyte, h₁⟩ := writeByte_eq ha b
        rw [List.length_cons] at h
        have hrest : bs ≠ [] := by
          rintro rfl
          rw [List.length_nil] at h
          omega
        obtain ⟨m₂, hwrite, hsize, hunchanged⟩ :=
          ih (m := m₁) (a := a + 1) hrest (by rw [h₁.size]; omega)
        have hlimit : max (a + 1) m.size = max a m.size := by omega
        rw [h₁.size, hlimit] at hwrite
        refine ⟨m₂, (Action.bind_of_ok hbyte).trans hwrite, hsize.trans h₁.size, ?_⟩
        intro x hx
        rw [hunchanged x (Nat.lt_succ_of_lt hx), h₁.unchanged x (.inl hx)]
      · have hfail : writeByte a b m = (.error (.outOfBounds (max a m.size) 1 m.size), m) := by
          rw [Nat.max_eq_left (Nat.not_lt.mp ha)]
          exact if_neg ha
        exact ⟨m, Action.bind_of_error hfail, rfl, fun _ _ => rfl⟩

end Memory

end ZMachine
