import ZMachine.Proofs.Bytes

/-! # Property lists

    The properties of an object stand in memory one after another, each with a
    size byte in front that gives its number and its length, in descending order
    of their numbers and with a zero byte at the end. Every query walks the list
    again: to find a property it goes forward from the short name and stops early
    at a smaller number, for a length it looks one byte back from the data, and
    for the next number it looks one byte past the data.

    A `PropertyList` is such a list without memory. An object whose property
    table holds the list answers every query as the list says.

    * `PropertyList.mem_placed_iff`: the addresses of data;
    * `findFrom_of_mem`, `findFrom_of_lacks`: the walk finds what is listed, in
      spite of its early exit, and the bound on its steps does not cut it short;
    * `property_queries`: the queries about an object agree with its list. -/

namespace ZMachine

/-- A property as it stands in a list: its number and its data. -/
structure PropertyEntry where
  number : Nat
  data : List UInt8
  number_pos : 1 ≤ number
  number_le : number ≤ ObjectTable.maxProperty
  data_pos : 1 ≤ data.length
  data_le : data.length ≤ 8
  deriving DecidableEq

namespace PropertyEntry

variable (e : PropertyEntry)

/-- The size byte of a property. -/
def size : UInt8 := UInt8.ofNat (32 * (e.data.length - 1) + e.number)

/-- A size byte holds the length above the number. -/
theorem toNat_size : e.size.toNat = 32 * (e.data.length - 1) + e.number := by
  have hnumber : e.number ≤ 31 := e.number_le
  have hlength := e.data_le
  rw [size, UInt8.toNat_ofNat']
  omega

/-- The number is read again from the size byte. -/
@[simp] theorem propertyNumber_size : ObjectTable.propertyNumber e.size = e.number := by
  have hnumber : e.number ≤ 31 := e.number_le
  rw [ObjectTable.propertyNumber, toNat_size]
  omega

@[simp] theorem propertyLength_size : ObjectTable.propertyLength e.size = e.data.length := by
  have hnumber : e.number ≤ 31 := e.number_le
  have hlength := e.data_pos
  rw [ObjectTable.propertyLength, toNat_size]
  omega

theorem size_ne_zero : e.size ≠ 0 := by
  intro h
  have hnumber := e.propertyNumber_size
  rw [h] at hnumber
  exact absurd hnumber.symm (Nat.ne_of_gt e.number_pos)

/-- The number of a property as a word. -/
def numberWord : UInt16 := UInt16.ofNat e.number

@[simp] theorem toNat_numberWord : e.numberWord.toNat = e.number := by
  have hnumber : e.number ≤ 31 := e.number_le
  rw [numberWord, UInt16.toNat_ofNat']
  omega

/-- No entry has the number that asks for the first one. -/
theorem numberWord_ne_zero : e.numberWord ≠ 0 := by
  intro h
  have hnumber := e.toNat_numberWord
  rw [h] at hnumber
  exact absurd hnumber.symm (Nat.ne_of_gt e.number_pos)

end PropertyEntry

/-- The properties of an object, in strictly descending order of their numbers. -/
structure PropertyList where
  entries : List PropertyEntry
  descending : entries.Pairwise fun e f => f.number < e.number
  deriving DecidableEq

namespace PropertyList

/-- The bytes of properties, without the end of the list. -/
def body (es : List PropertyEntry) : List UInt8 := es.flatMap fun e => e.size :: e.data

/-- The bytes of a list from some property on: the zero byte at the end is part of it. -/
def tail (es : List PropertyEntry) : List UInt8 := body es ++ [0]

/-- The bytes of a list. -/
def bytes (ps : PropertyList) : List UInt8 := tail ps.entries

/-- The number that the first byte of the rest of a list gives, 0 at the end. -/
def lead : List PropertyEntry → UInt16
  | [] => 0
  | e :: _ => e.numberWord

/-- The properties of a list from an address on, each with the address of its data. -/
def placed : (a : Nat) → List PropertyEntry → List (Nat × PropertyEntry)
  | _, [] => []
  | a, e :: es => (a + 1, e) :: placed (a + 1 + e.data.length) es

/-- A number that no property of a list has. -/
def Lacks (ps : PropertyList) (p : UInt16) : Prop := ∀ e ∈ ps.entries, e.number ≠ p.toNat

instance (ps : PropertyList) (p : UInt16) : Decidable (ps.Lacks p) :=
  inferInstanceAs (Decidable (∀ e ∈ ps.entries, e.number ≠ p.toNat))

/-- The numbers of the properties. -/
def numbers (ps : PropertyList) : List UInt16 := ps.entries.map PropertyEntry.numberWord

variable {e : PropertyEntry} {es before after : List PropertyEntry} {a x : Nat}

@[simp] theorem body_cons (e : PropertyEntry) (es : List PropertyEntry) :
    body (e :: es) = e.size :: (e.data ++ body es) := rfl

/-- A list is its first entry and the rest. -/
theorem tail_cons (e : PropertyEntry) (es : List PropertyEntry) :
    tail (e :: es) = e.size :: (e.data ++ tail es) := by
  simp [tail]

/-- A list is the bytes of its first entries and the list of the others. -/
theorem tail_append (before after : List PropertyEntry) :
    tail (before ++ after) = body before ++ tail after := by
  simp [tail, body, List.flatMap_append]

/-- Data stands behind the properties before it and its own size byte. -/
theorem mem_placed_iff : (x, e) ∈ placed a es ↔
    ∃ before after, es = before ++ e :: after ∧ x = a + (body before).length + 1 := by
  -- On the list: the place of an entry is behind the bytes of those before it.
  induction es generalizing a with
  | nil =>
      constructor
      · intro h
        cases h
      · rintro ⟨before, after, h, -⟩
        exact absurd h.symm (by simp)
  | cons f es ih =>
      rw [placed, List.mem_cons, ih]
      constructor
      · rintro (h | ⟨before, after, rfl, rfl⟩)
        · obtain ⟨rfl, rfl⟩ := Prod.mk.inj h
          exact ⟨[], es, rfl, rfl⟩
        · refine ⟨f :: before, after, rfl, ?_⟩
          simp only [body_cons, List.length_cons, List.length_append]
          omega
      · rintro ⟨before, after, h, rfl⟩
        cases before with
        | nil =>
            cases h
            exact .inl rfl
        | cons g before =>
            obtain ⟨rfl, rfl⟩ := List.cons.inj h
            refine .inr ⟨before, after, rfl, ?_⟩
            simp only [body_cons, List.length_cons, List.length_append]
            omega

theorem mem_of_mem_placed (h : (x, e) ∈ placed a es) : e ∈ es := by
  obtain ⟨before, after, rfl, -⟩ := mem_placed_iff.mp h
  exact List.mem_append_right before List.mem_cons_self

theorem exists_mem_placed (h : e ∈ es) (a : Nat) : ∃ x, (x, e) ∈ placed a es := by
  obtain ⟨before, after, rfl⟩ := List.append_of_mem h
  exact ⟨_, mem_placed_iff.mpr ⟨before, after, rfl, rfl⟩⟩

/-- A number is listed or lacking. -/
theorem listed_or_lacks (ps : PropertyList) (a : Nat) (p : UInt16) :
    (∃ x e, (x, e) ∈ placed a ps.entries ∧ e.number = p.toNat) ∨ ps.Lacks p := by
  by_cases h : ∃ e ∈ ps.entries, e.number = p.toNat
  · obtain ⟨e, he, hp⟩ := h
    obtain ⟨x, hx⟩ := exists_mem_placed he a
    exact .inl ⟨x, e, hx, hp⟩
  · refine .inr ?_
    intro e he hp
    exact h ⟨e, he, hp⟩

/-! ## Length -/

/-- An entry takes up nine bytes at most. -/
theorem length_body_le (es : List PropertyEntry) : (body es).length ≤ 9 * es.length := by
  induction es with
  | nil => exact Nat.le_refl 0
  | cons e es ih =>
      have hlength := e.data_le
      simp only [body_cons, List.length_cons, List.length_append]
      omega

/-- Entries in descending order are no more than their highest number. -/
theorem length_le_of_descending {n : Nat}
    (h : es.Pairwise fun e f => f.number < e.number) (hn : ∀ e ∈ es, e.number ≤ n) :
    es.length ≤ n := by
  induction es generalizing n with
  | nil => exact Nat.zero_le n
  | cons e es ih =>
      obtain ⟨hfirst, hrest⟩ := List.pairwise_cons.mp h
      -- the rest of the list has only numbers below the first one left
      have hlength : es.length ≤ e.number - 1 :=
        ih hrest fun f hf => Nat.le_sub_one_of_lt (hfirst f hf)
      have he := hn e List.mem_cons_self
      have hpos := e.number_pos
      rw [List.length_cons]
      omega

/-- There are at most 31 properties of nine bytes each. -/
theorem length_bytes_le (ps : PropertyList) : ps.bytes.length ≤ 280 := by
  have hcount : ps.entries.length ≤ 31 :=
    length_le_of_descending ps.descending fun e _ => e.number_le
  have hbody := length_body_le ps.entries
  rw [bytes, tail, List.length_append, List.length_singleton]
  omega

/-- A list has more bytes than entries. -/
theorem length_lt_length_tail (es : List PropertyEntry) : es.length < (tail es).length := by
  induction es with
  | nil => exact Nat.zero_lt_one
  | cons e es ih =>
      rw [tail_cons, List.length_cons, List.length_cons, List.length_append]
      omega

/-! ## Lists in memory -/

variable {m : Memory}

/-- The first byte of a list tells the number of its first entry, or that there is none. -/
theorem byteAt_lead (h : m.Holds a (tail es)) :
    ∃ b, m.byteAt a = .ok b ∧ UInt16.ofNat (ObjectTable.propertyNumber b) = lead es := by
  cases es with
  | nil => exact ⟨0, (Memory.holds_cons.mp h).1, rfl⟩
  | cons e es =>
      rw [tail_cons] at h
      refine ⟨e.size, (Memory.holds_cons.mp h).1, ?_⟩
      rw [PropertyEntry.propertyNumber_size]
      rfl

/-- The three places around a property that queries look at: its size byte, its data, and the
    byte that follows. -/
theorem holds_around (h : m.Holds a (tail (before ++ e :: after))) :
    m.byteAt (a + (body before).length) = .ok e.size ∧
      m.Holds (a + (body before).length + 1) e.data ∧
      m.Holds (a + (body before).length + 1 + e.data.length) (tail after) := by
  rw [tail_append, Memory.holds_append, tail_cons, Memory.holds_cons, Memory.holds_append] at h
  exact h.2

end PropertyList

/-! ## The walk along a list -/

/-- Bytes that lie in memory end in it. -/
theorem Memory.Holds.length_le {m : Memory} {a : Nat} {bs : List UInt8} (h : m.Holds a bs)
    (hne : bs ≠ []) : a + bs.length ≤ m.size := by
  have hpos := List.length_pos_iff.mpr hne
  have hlast := Memory.lt_size_of_byteAt
    (h (bs.length - 1) _ (List.getElem?_eq_getElem (by omega)))
  omega

namespace ObjectTable

open PropertyList

variable {t : ObjectTable} {m : Memory} {o : UInt16} {e : PropertyEntry}
  {es : List PropertyEntry} {a x fuel : Nat}

/-- One step of the walk, by the order of the number that is looked for and that at hand. -/
theorem findFrom_cons (hm : m.Holds a (tail (e :: es)))
    (hspace : a + (tail (e :: es)).length ≤ 0x100000000) (p : Nat) :
    findFrom m p (fuel + 1) a =
      if e.number < p then .ok none
      else if e.number = p then .ok (some ⟨a + 1, e.data.length⟩)
      else findFrom m p fuel (a + 1 + e.data.length) := by
  rw [tail_cons, List.length_cons, List.length_append] at hspace
  have htail := length_lt_length_tail es
  have hnext : advance a (1 + e.data.length) = .ok (a + 1 + e.data.length) := by
    rw [advance, if_pos (by omega), Nat.add_assoc]
  rw [tail_cons, Memory.holds_cons] at hm
  rw [findFrom, hm.1]
  show (if e.size = 0 ∨ propertyNumber e.size < p then pure none
    else if propertyNumber e.size = p then pure (some ⟨a + 1, propertyLength e.size⟩)
    else advance a (1 + propertyLength e.size) >>= findFrom m p fuel) = _
  rw [e.propertyNumber_size, e.propertyLength_size, hnext]
  simp only [e.size_ne_zero, false_or]
  rfl

/-- Where the rest of a list stands. -/
theorem holds_rest (hm : m.Holds a (tail (e :: es))) :
    m.Holds (a + 1 + e.data.length) (tail es) := by
  rw [tail_cons, Memory.holds_cons, Memory.holds_append] at hm
  exact hm.2.2

/-- The rest of a list lies in the address space if the list does. -/
theorem space_rest (hspace : a + (tail (e :: es)).length ≤ 0x100000000) :
    a + 1 + e.data.length + (tail es).length ≤ 0x100000000 := by
  rw [tail_cons, List.length_cons, List.length_append] at hspace
  omega

/-- A property that is listed is found: all numbers before it are greater. -/
theorem findFrom_of_mem (hd : es.Pairwise fun e f => f.number < e.number)
    (hm : m.Holds a (tail es)) (hfuel : es.length < fuel)
    (hspace : a + (tail es).length ≤ 0x100000000) (hx : (x, e) ∈ placed a es) :
    findFrom m e.number fuel a = .ok (some ⟨x, e.data.length⟩) := by
  induction es generalizing a fuel with
  | nil => cases hx
  | cons f es ih =>
      obtain ⟨hfirst, hrest⟩ := List.pairwise_cons.mp hd
      obtain ⟨fuel, rfl⟩ := Nat.exists_eq_add_one_of_ne_zero (Nat.ne_zero_of_lt hfuel)
      rw [findFrom_cons hm hspace]
      rcases List.mem_cons.mp hx with h | hx
      · obtain ⟨rfl, rfl⟩ := Prod.mk.inj h
        rw [if_neg (Nat.lt_irrefl _), if_pos rfl]
      · -- the number at hand is greater, so that neither exit is taken here
        have hlt := hfirst e (mem_of_mem_placed hx)
        rw [if_neg (Nat.lt_asymm hlt), if_neg (Nat.ne_of_gt hlt)]
        exact ih hrest (holds_rest hm) (Nat.lt_of_succ_lt_succ hfuel) (space_rest hspace) hx

/-- A property that is not listed is not found, whether the walk stops at a smaller number or at
    the end. -/
theorem findFrom_of_lacks {p : Nat} (hm : m.Holds a (tail es)) (hfuel : es.length < fuel)
    (hspace : a + (tail es).length ≤ 0x100000000) (hp : ∀ e ∈ es, e.number ≠ p) :
    findFrom m p fuel a = .ok none := by
  induction es generalizing a fuel with
  | nil =>
      obtain ⟨fuel, rfl⟩ := Nat.exists_eq_add_one_of_ne_zero (Nat.ne_zero_of_lt hfuel)
      rw [findFrom, (Memory.holds_cons.mp hm).1]
      rfl
  | cons f es ih =>
      obtain ⟨fuel, rfl⟩ := Nat.exists_eq_add_one_of_ne_zero (Nat.ne_zero_of_lt hfuel)
      rw [findFrom_cons hm hspace]
      -- an early exit gives the right answer even if greater numbers were still to come
      split
      · rfl
      · rw [if_neg (hp f List.mem_cons_self)]
        exact ih (holds_rest hm) (Nat.lt_of_succ_lt_succ hfuel) (space_rest hspace)
          fun e he => hp e (List.mem_cons_of_mem f he)

end ObjectTable

/-! ## Property tables -/

/-- A property table: its address, the number of words of the short name, and the properties. -/
structure PropertyTable where
  address : Nat
  nameWords : UInt8
  list : PropertyList
  deriving DecidableEq

namespace PropertyTable

/-- The address of the first size byte. -/
def start (T : PropertyTable) : Nat := T.address + 1 + 2 * T.nameWords.toNat

/-- The address after the end of the list. -/
def stop (T : PropertyTable) : Nat := T.start + T.list.bytes.length

/-- The properties with the addresses of their data. -/
def placed (T : PropertyTable) : List (Nat × PropertyEntry) :=
  PropertyList.placed T.start T.list.entries

/-- The data of a property ends before the list does. -/
theorem stop_le_of_mem {T : PropertyTable} {x : Nat} {e : PropertyEntry}
    (hx : (x, e) ∈ T.placed) : T.start < x ∧ x + e.data.length < T.stop := by
  obtain ⟨before, after, hsplit, rfl⟩ := PropertyList.mem_placed_iff.mp hx
  have htail := PropertyList.length_lt_length_tail after
  rw [stop, PropertyList.bytes, hsplit, PropertyList.tail_append, PropertyList.tail_cons,
    List.length_append, List.length_cons, List.length_append]
  omega

end PropertyTable

namespace ObjectTable

open PropertyList

/-- The property table of an object is `T`. -/
structure HasTable (t : ObjectTable) (m : Memory) (o : UInt16) (T : PropertyTable) : Prop where
  found : t.propertyTable m o = .ok T.address
  name : m.byteAt T.address = .ok T.nameWords
  list : m.Holds T.start T.list.bytes

/-- Asking for the next property again and again, from the one after `p` on, gives these
    numbers and then 0. -/
inductive Enumerates (t : ObjectTable) (m : Memory) (o : UInt16) : UInt16 → List UInt16 → Prop
  | done {p : UInt16} (h : t.nextProperty m o p = .ok 0) : Enumerates t m o p []
  | more {p q : UInt16} {ns : List UInt16} (h : t.nextProperty m o p = .ok q) (hq : q ≠ 0)
      (hrest : Enumerates t m o q ns) : Enumerates t m o p (q :: ns)

variable {t : ObjectTable} {m : Memory} {o p : UInt16} {T : PropertyTable} {e : PropertyEntry}
  {x : Nat}

/-- The properties are enumerated in one order. -/
theorem Enumerates.unique {ns ms : List UInt16} (h : t.Enumerates m o p ns)
    (h' : t.Enumerates m o p ms) : ns = ms := by
  induction h generalizing ms with
  | done h =>
      cases h' with
      | done => rfl
      | more h' hq _ => exact absurd (Except.ok.inj (h'.symm.trans h)) hq
  | more h hq _ ih =>
      cases h' with
      | done h' => exact absurd (Except.ok.inj (h.symm.trans h')) hq
      | more h' _ hrest =>
          obtain rfl := Except.ok.inj (h.symm.trans h')
          rw [ih hrest]

namespace HasTable

variable (h : t.HasTable m o T)

include h

/-- The properties begin where the table says. -/
theorem firstProperty_eq : t.firstProperty m o = .ok T.start := by
  rw [firstProperty, h.found]
  show (m.byteAt T.address >>= _) = _
  rw [h.name]
  rfl

/-- The address of a property table is a word, and so no list leaves the address space. -/
theorem stop_le : T.stop ≤ 0x10000 + 800 := by
  obtain ⟨_, -, hword⟩ := FailsOnly.bind_eq_ok.mp h.found
  obtain ⟨w, -, hw⟩ := FailsOnly.bind_eq_ok.mp hword
  have haddress : w.toNat = T.address := Except.ok.inj hw
  have hlt := w.toNat_lt
  have hname := T.nameWords.toNat_lt
  have hlength := T.list.length_bytes_le
  rw [PropertyTable.stop, PropertyTable.start]
  omega

/-- The properties of a table lie in the address space. -/
theorem space : T.start + (tail T.list.entries).length ≤ 0x100000000 := by
  have hstop := h.stop_le
  rw [PropertyTable.stop, bytes] at hstop
  omega

/-- A table ends in memory. -/
theorem stop_le_size : T.stop ≤ m.size := by
  refine h.list.length_le ?_
  rw [bytes, tail]
  simp

/-- Every property is reached before the search gives up. -/
theorem length_lt : T.list.entries.length < m.size + 1 := by
  have hlength := length_lt_length_tail T.list.entries
  have hsize := h.stop_le_size
  rw [PropertyTable.stop, bytes] at hsize
  omega

/-- A listed property is found where it is placed. -/
theorem find?_of_mem (hx : (x, e) ∈ T.placed) (hp : e.number = p.toNat) :
    t.find? m o p.toNat = .ok (some ⟨x, e.data.length⟩) := by
  rw [find?, h.firstProperty_eq, ← hp]
  exact findFrom_of_mem T.list.descending h.list h.length_lt h.space hx

/-- A property that is not listed is not found. -/
theorem find?_of_lacks (hp : T.list.Lacks p) : t.find? m o p.toNat = .ok none := by
  rw [find?, h.firstProperty_eq]
  exact findFrom_of_lacks h.list h.length_lt h.space hp

/-- The size byte of a property stands before its data. -/
theorem holds_of_mem (hx : (x, e) ∈ T.placed) :
    ∃ a, x = a + 1 ∧ m.byteAt a = .ok e.size ∧ m.Holds x e.data := by
  obtain ⟨before, after, hsplit, rfl⟩ := mem_placed_iff.mp hx
  have hm := h.list
  rw [bytes, hsplit] at hm
  obtain ⟨hsize, hdata, -⟩ := holds_around hm
  exact ⟨_, rfl, hsize, hdata⟩

/-! ### Queries -/

/-- The address of a listed property. -/
theorem propertyAddress_of_mem (hx : (x, e) ∈ T.placed) (hp : e.number = p.toNat) :
    t.propertyAddress m o p = .ok (UInt16.ofNat x) := by
  rw [propertyAddress, h.find?_of_mem hx hp]
  rfl

/-- A property that is not listed has the address 0. -/
theorem propertyAddress_of_lacks (hp : T.list.Lacks p) : t.propertyAddress m o p = .ok 0 := by
  rw [propertyAddress, h.find?_of_lacks hp]
  rfl

/-- The length of a property, from its address. -/
theorem lengthAt_of_mem (hx : (x, e) ∈ T.placed) {a : UInt16} (ha : a.toNat = x) :
    lengthAt m a = .ok (UInt16.ofNat e.data.length) := by
  obtain ⟨b, rfl, hsize, -⟩ := h.holds_of_mem hx
  have hne : a ≠ 0 := by
    rintro rfl
    exact absurd ha.symm (Nat.succ_ne_zero b)
  rw [lengthAt_eq, if_neg hne, ha, Nat.add_sub_cancel, hsize]
  show Except.ok (UInt16.ofNat (propertyLength e.size)) = _
  rw [e.propertyLength_size]

/-- The value of a property of one byte. -/
theorem property_of_byte (hx : (x, e) ∈ T.placed) (hp : e.number = p.toNat) {b : UInt8}
    (hb : e.data = [b]) : t.property m o p = .ok b.toUInt16 := by
  obtain ⟨-, -, -, hdata⟩ := h.holds_of_mem hx
  rw [hb, Memory.holds_cons] at hdata
  rw [property, if_pos ⟨hp ▸ e.number_pos, hp ▸ e.number_le⟩, h.find?_of_mem hx hp, hb]
  show (m.byteAt x >>= fun b => pure b.toUInt16) = _
  rw [hdata.1]
  rfl

/-- The value of a property of two bytes. -/
theorem property_of_word (hx : (x, e) ∈ T.placed) (hp : e.number = p.toNat) {b c : UInt8}
    (hbc : e.data = [b, c]) : t.property m o p = .ok (word b c) := by
  obtain ⟨-, -, -, hdata⟩ := h.holds_of_mem hx
  have hword : m.wordAt x = .ok (word b c) := by
    rw [Memory.wordAt_eq_ok, highByte_word, lowByte_word, ← hbc]
    exact hdata
  rw [property, if_pos ⟨hp ▸ e.number_pos, hp ▸ e.number_le⟩, h.find?_of_mem hx hp, hbc]
  exact hword

/-- A longer property has no value. -/
theorem property_of_long (hx : (x, e) ∈ T.placed) (hp : e.number = p.toNat)
    (hlong : 2 < e.data.length) :
    t.property m o p = .error (.propertyLength "get_prop" o p e.data.length) := by
  rw [property, if_pos ⟨hp ▸ e.number_pos, hp ▸ e.number_le⟩, h.find?_of_mem hx hp]
  obtain ⟨n, hn⟩ := Nat.exists_eq_add_of_lt hlong
  rw [hn, Nat.add_comm 2 n]
  rfl

/-- A property that is not listed has its default value. -/
theorem property_of_lacks (hp : T.list.Lacks p) (hlow : 1 ≤ p.toNat) (hhigh : p.toNat ≤ 31) :
    t.property m o p = m.wordAt (t.defaults + 2 * (p.toNat - 1)) := by
  rw [property, if_pos ⟨hlow, hhigh⟩, h.find?_of_lacks hp, Checked.sub_of_le hlow]
  rfl

/-- The default values stand before the entries of objects and so lie in memory. -/
theorem exists_default (hhigh : p.toNat ≤ 31) :
    ∃ w, m.wordAt (t.defaults + 2 * (p.toNat - 1)) = .ok w := by
  obtain ⟨entry, hentry, hword⟩ := FailsOnly.bind_eq_ok.mp h.found
  obtain ⟨w, hw, -⟩ := FailsOnly.bind_eq_ok.mp hword
  have hsize := Memory.lt_size_of_wordAt hw
  rw [ObjectTable.entry_eq] at hentry
  split at hentry
  · have hlt : t.defaults + 2 * (p.toNat - 1) + 1 < m.bytes.size := by
      have hfirst : t.defaults + 62 ≤ entry := by
        rw [← Except.ok.inj hentry]
        exact Nat.le_add_right _ _
      have hsize : entry + 7 + 1 < m.bytes.size := hsize
      omega
    exact ⟨_, dif_pos hlt⟩
  · cases hentry

/-- The property after none is the first one. -/
theorem nextProperty_zero : t.nextProperty m o 0 = .ok (lead T.list.entries) := by
  obtain ⟨b, hb, hlead⟩ := byteAt_lead h.list
  rw [nextProperty, if_pos rfl, h.firstProperty_eq]
  show (m.byteAt T.start >>= _) = _
  rw [hb, ← hlead]
  rfl

/-- The property after a listed one is the next of the list. -/
theorem nextProperty_of_split {before after : List PropertyEntry}
    (hsplit : T.list.entries = before ++ e :: after) :
    t.nextProperty m o e.numberWord = .ok (lead after) := by
  have hx : (T.start + (body before).length + 1, e) ∈ T.placed :=
    mem_placed_iff.mpr ⟨before, after, hsplit, rfl⟩
  have hm := h.list
  rw [bytes, hsplit] at hm
  obtain ⟨-, -, hafter⟩ := holds_around hm
  obtain ⟨b, hb, hlead⟩ := byteAt_lead hafter
  -- The list goes on after the data, so that the sum stays in the address space.
  have hspace := h.space
  have htail := length_lt_length_tail after
  rw [hsplit, tail_append, tail_cons, List.length_append, List.length_cons,
    List.length_append] at hspace
  have hnext : advance (T.start + (body before).length + 1) e.data.length =
      .ok (T.start + (body before).length + 1 + e.data.length) := if_pos (by omega)
  rw [nextProperty, if_neg e.numberWord_ne_zero,
    h.find?_of_mem hx e.toNat_numberWord.symm]
  show (advance (T.start + (body before).length + 1) e.data.length >>= _) = _
  rw [hnext]
  show (m.byteAt _ >>= _) = _
  rw [hb, ← hlead]
  rfl

/-- There is none after a property that is not listed. -/
theorem nextProperty_of_lacks (hp : T.list.Lacks p) (hne : p ≠ 0) :
    t.nextProperty m o p = .error (.missingProperty o p) := by
  rw [nextProperty, if_neg hne, h.find?_of_lacks hp]
  rfl

/-- Behind each property comes the next one, and 0 behind the last. -/
theorem enumerates_of_split {before after : List PropertyEntry}
    (hsplit : T.list.entries = before ++ after) (hp : t.nextProperty m o p = .ok (lead after)) :
    t.Enumerates m o p (after.map PropertyEntry.numberWord) := by
  induction after generalizing before p with
  | nil => exact .done hp
  | cons e after ih =>
      -- `before` are the properties whose numbers have been given already
      have hnext : T.list.entries = (before ++ [e]) ++ after := by
        rw [hsplit, List.append_assoc]
        rfl
      exact .more hp e.numberWord_ne_zero (ih hnext (h.nextProperty_of_split hsplit))

/-- Asking for the next property again and again goes through the list. -/
theorem enumerates : t.Enumerates m o 0 T.list.numbers :=
  h.enumerates_of_split (List.nil_append _).symm h.nextProperty_zero

end HasTable

/-! ## All queries -/

/-- The queries about an object answer as the property table `T` says. -/
structure Answers (t : ObjectTable) (m : Memory) (o : UInt16) (T : PropertyTable) : Prop where
  /-- Asking for the next property from 0 on gives all numbers in their order, and then 0. -/
  numbers : ∀ ns, t.Enumerates m o 0 ns ↔ ns = T.list.numbers
  /-- Nothing comes after a property that is not there. -/
  missing : ∀ p, p ≠ 0 → T.list.Lacks p → t.nextProperty m o p = .error (.missingProperty o p)
  /-- The address of a property is that of its data, and leads to the length of the data. -/
  listed : ∀ p x e, (x, e) ∈ T.placed → e.number = p.toNat → m.Holds x e.data ∧
    ∃ a : UInt16, a.toNat = x ∧ t.propertyAddress m o p = .ok a ∧
      lengthAt m a = .ok (UInt16.ofNat e.data.length)
  unlisted : ∀ p, T.list.Lacks p → t.propertyAddress m o p = .ok 0
  nowhere : lengthAt m 0 = .ok 0
  /-- The value of a property: a byte, a word, none for longer data, or the default value. -/
  byte : ∀ p x e b, (x, e) ∈ T.placed → e.number = p.toNat → e.data = [b] →
    t.property m o p = .ok b.toUInt16
  word : ∀ p x e b c, (x, e) ∈ T.placed → e.number = p.toNat → e.data = [b, c] →
    t.property m o p = .ok (word b c)
  long : ∀ p x e, (x, e) ∈ T.placed → e.number = p.toNat → 2 < e.data.length →
    t.property m o p = .error (.propertyLength "get_prop" o p e.data.length)
  default : ∀ p, T.list.Lacks p → 1 ≤ p.toNat → p.toNat ≤ maxProperty →
    ∃ w, m.wordAt (t.defaults + 2 * (p.toNat - 1)) = .ok w ∧ t.property m o p = .ok w

/-- The queries about the properties of an object agree with its property list, whatever its
    short name is, if the list ends within the first 64K. -/
theorem property_queries (h : t.HasTable m o T) (hlow : T.stop ≤ 0x10000) : t.Answers m o T where
  numbers ns := by
    constructor
    · intro hns
      exact hns.unique h.enumerates
    · rintro rfl
      exact h.enumerates
  missing p hne hp := h.nextProperty_of_lacks hp hne
  listed p x e hx hp := by
    have hstop := (T.stop_le_of_mem hx).2
    -- The table lies below 2 ^ 16, so that a word can hold the address.
    have haddress : (UInt16.ofNat x).toNat = x := by
      rw [UInt16.toNat_ofNat']
      exact Nat.mod_eq_of_lt (by omega)
    obtain ⟨-, -, -, hdata⟩ := h.holds_of_mem hx
    exact ⟨hdata, _, haddress, h.propertyAddress_of_mem hx hp, h.lengthAt_of_mem hx haddress⟩
  unlisted p hp := h.propertyAddress_of_lacks hp
  nowhere := rfl
  byte p x e b hx hp hb := h.property_of_byte hx hp hb
  word p x e b c hx hp hbc := h.property_of_word hx hp hbc
  long p x e hx hp hlong := h.property_of_long hx hp hlong
  default p hp hlow hhigh := by
    obtain ⟨w, hw⟩ := h.exists_default hhigh
    exact ⟨w, hw, (h.property_of_lacks hp hlow hhigh).trans hw⟩

/-! ## A lamp in a box -/

/-- Default values, the entries of a box and a lamp, and their property tables at 80 and 84. The
    box has a name and no properties; the lamp has properties of two, one and four bytes. -/
def lampMemory : Memory :=
  ⟨#[0, 0, 0, 0, 3, 3] ++ Array.replicate 56 0 ++
    #[0, 0, 0, 0, 0, 0, 2, 0, 80,
      0, 0, 0, 0, 1, 0, 0, 0, 84,
      1, 0x9E, 0x9D, 0,
      0, 0x32, 0x12, 0x34, 0x06, 0x42, 0x62, 1, 2, 3, 4, 0]⟩

/-- The object table of the sample memory. -/
def lampObjects : ObjectTable := { defaults := 0, count := 2 }

/-- The properties of its first object. -/
def boxTable : PropertyTable where
  address := 80
  nameWords := 1
  list := ⟨[], .nil⟩

/-- The properties of its second object. -/
def lampTable : PropertyTable where
  address := 84
  nameWords := 0
  list :=
    { entries :=
        [⟨18, [0x12, 0x34], by decide, by decide, by decide, by decide⟩,
          ⟨6, [0x42], by decide, by decide, by decide, by decide⟩,
          ⟨2, [1, 2, 3, 4], by decide, by decide, by decide, by decide⟩]
      descending := by decide }

/-- The second table lies in the sample memory. -/
theorem hasTable_lamp : lampObjects.HasTable lampMemory 2 lampTable :=
  ⟨rfl, rfl, by decide +kernel⟩

/-- What the sample memory answers. -/
theorem lamp_queries :
    lampObjects.HasTable lampMemory 2 lampTable ∧ lampTable.stop ≤ 0x10000 ∧
      lampObjects.Enumerates lampMemory 2 0 [18, 6, 2] ∧
      lampObjects.nextProperty lampMemory 2 3 = .error (.missingProperty 2 3) ∧
      lampObjects.property lampMemory 2 18 = .ok 0x1234 ∧
      lampObjects.property lampMemory 2 6 = .ok 0x42 ∧
      lampObjects.property lampMemory 2 2 = .error (.propertyLength "get_prop" 2 2 4) ∧
      ∃ w, lampMemory.wordAt 4 = .ok w ∧ lampObjects.property lampMemory 2 3 = .ok w := by
  have hlow : lampTable.stop ≤ 0x10000 := by decide
  have h := property_queries hasTable_lamp hlow
  refine ⟨hasTable_lamp, hlow, (h.numbers _).mpr rfl, h.missing 3 (by decide) (by decide),
    ?_, ?_, ?_, ?_⟩
  · exact h.word 18 86 _ 0x12 0x34 (.head _) rfl rfl
  · exact h.byte 6 89 _ 0x42 (.tail _ (.head _)) rfl rfl
  · exact h.long 2 91 _ (.tail _ (.tail _ (.head _))) rfl (by decide)
  · exact h.default 3 (by decide) (by decide) (by decide)

end ObjectTable

end ZMachine
