import ZMachine.Proofs.Bytes
import ZMachine.Proofs.Decoding
import ZMachine.Proofs.Step

/-! # The encoding of instructions

    The decoder is one half of a format. This file writes down the other half,
    the bytes that stand for an instruction of each form, and shows that
    decoding inverts it:

    * `scan_of_laid`, `laid_of_scan`: the decoder yields an instruction exactly if
      memory holds one of its encodings, which differ at most in the part of a
      type byte that comes after the kinds it lists;
    * `reads_scan`: it fails exactly if the instruction does not fit into
      memory, as far as its opcode byte and its type byte tell. -/

namespace ZMachine

/-! ## Scans -/

namespace Scan

variable {α β : Type} {m : Memory} {a b n k : Nat}

/-- What is taken is what stands at the position, which moves by the width. -/
theorem take_eq_ok_iff {f : Memory → Nat → Except Fault α} {width : Nat} {v : α} :
    take f width m a = (.ok v, b) ↔ f m a = .ok v ∧ b = a + width := by
  rw [take]
  cases f m a with
  | ok w =>
      constructor
      · intro h
        cases h
        exact ⟨rfl, rfl⟩
      · rintro ⟨h, rfl⟩
        cases h
        rfl
  | error e =>
      constructor
      · intro h
        cases h
      · rintro ⟨h, -⟩
        cases h

theorem pure_eq_ok_iff {v w : α} : (pure v : Scan α) m a = (.ok w, b) ↔ v = w ∧ b = a := by
  constructor
  · intro h
    cases h
    exact ⟨rfl, rfl⟩
  · rintro ⟨rfl, rfl⟩
    rfl

/-- Changing what is read does not change how far is read. -/
theorem map_eq_ok_iff {g : α → β} {x : Scan α} {y : β} :
    (g <$> x) m a = (.ok y, b) ↔ ∃ v, x m a = (.ok v, b) ∧ g v = y := by
  have h : (g <$> x) m a = (x m >>= fun v => pure (g v)) a := rfl
  rw [h, Action.bind_eq_ok]
  constructor
  · rintro ⟨v, c, hv, hy⟩
    cases hy
    exact ⟨v, hv, rfl⟩
  · rintro ⟨v, hv, rfl⟩
    exact ⟨v, b, hv, rfl⟩

/-- A scan from an address takes up `n` bytes: it succeeds and moves past them if they lie in
    memory, and otherwise it fails for that reason. -/
def Reads (x : Scan α) (m : Memory) (a n : Nat) : Prop :=
  (a + n ≤ m.size ∧ ∃ v, x m a = (.ok v, a + n)) ∨
    (m.size < a + n ∧ ∃ address width b, x m a = (.error (m.outside address width), b))

theorem reads_pure (v : α) (ha : a ≤ m.size) : Reads (pure v) m a 0 :=
  .inl ⟨ha, v, rfl⟩

/-- How many bytes the second part takes up may depend on the value of the first. -/
theorem Reads.bind {x : Scan α} {f : α → Scan β} (hx : Reads x m a k) (hk : k ≤ n)
    (hf : ∀ v, x m a = (.ok v, a + k) → a + k ≤ m.size → Reads (f v) m (a + k) (n - k)) :
    Reads (x >>= f) m a n := by
  rw [Reads, bind_run]
  rcases hx with ⟨hsize, v, hv⟩ | ⟨hsize, address, width, b, he⟩
  · rw [Action.bind_of_ok hv]
    have hstop : a + k + (n - k) = a + n := by omega
    have hrest := hf v hv hsize
    rw [Reads, hstop] at hrest
    exact hrest
  · rw [Action.bind_of_error he]
    exact .inr ⟨by omega, address, width, b, rfl⟩

/-- Whether a number can be read does not depend on what is made of it. -/
theorem Reads.map {x : Scan α} (hx : Reads x m a n) (g : α → β) : Reads (g <$> x) m a n := by
  have h : (g <$> x) = x >>= fun v => pure (g v) := rfl
  rw [h]
  refine hx.bind (Nat.le_refl n) ?_
  intro v _ hsize
  rw [Nat.sub_self]
  exact reads_pure (g v) hsize

theorem reads_byte : Reads byte m a 1 := by
  simp only [Reads, byte, take, Memory.byteAt]
  by_cases h : a < m.bytes.size
  · rw [dif_pos h]
    exact .inl ⟨h, _, rfl⟩
  · rw [dif_neg h]
    exact .inr ⟨Nat.lt_succ_of_le (Nat.le_of_not_lt h), a, 1, a, rfl⟩

theorem reads_word : Reads word m a 2 := by
  simp only [Reads, word, take, Memory.wordAt]
  by_cases h : a + 1 < m.bytes.size
  · rw [dif_pos h]
    exact .inl ⟨h, _, rfl⟩
  · rw [dif_neg h]
    exact .inr ⟨Nat.lt_succ_of_le (Nat.le_of_not_lt h), a, 2, a, rfl⟩

end Scan

/-! ## Operands -/

namespace OperandKind

/-- The two bits that stand for a kind. -/
def bits : OperandKind → Nat
  | large => 0
  | small => 1
  | var => 2

/-- The two bits of a kind are those of that kind only. -/
theorem ofBits?_bits (k : OperandKind) : ofBits? k.bits = some k := by
  cases k <;> rfl

theorem ofBits?_mod (n : Nat) : ofBits? (n % 4) = ofBits? n := by
  simp only [ofBits?, Nat.mod_mod]

/-- Two bits are those of the kind that they stand for, or 3. -/
theorem mod_four_eq (n : Nat) : n % 4 = ((ofBits? n).map bits).getD 3 := by
  have hn : n % 4 < 4 := Nat.mod_lt n (by decide)
  rw [← ofBits?_mod]
  generalize n % 4 = r at hn
  match r, hn with
  | 0, _ | 1, _ | 2, _ | 3, _ => rfl

/-- The number of bytes of operands of given kinds. -/
def sizes : List OperandKind → Nat
  | [] => 0
  | k :: ks => k.size + sizes ks

end OperandKind

namespace Operand

/-- The bytes of an operand. -/
def bytes : Operand → List UInt8
  | large value => [highByte value, lowByte value]
  | small value => [value]
  | var number => [number]

variable {m : Memory} {a b : Nat}

/-- Reading an operand of a kind yields the operand of that kind whose bytes are there. -/
theorem scan_eq_ok_iff {k : OperandKind} {x : Operand} :
    scan k m a = (.ok x, b) ↔ x.kind = k ∧ m.Holds a x.bytes ∧ b = a + x.bytes.length := by
  have hword {w : UInt16} : m.wordAt a = .ok w ↔
      m.byteAt a = .ok (highByte w) ∧ m.byteAt (a + 1) = .ok (lowByte w) := by
    simp [Memory.wordAt_eq_ok, Memory.holds_cons, Memory.holds_nil]
  cases k with
  | large =>
      rw [scan, Scan.map_eq_ok_iff]
      simp only [Scan.word, Scan.take_eq_ok_iff, hword]
      cases x <;> simp [kind, bytes, Memory.holds_cons, Memory.holds_nil, and_comm]
  | small =>
      rw [scan, Scan.map_eq_ok_iff]
      simp only [Scan.byte, Scan.take_eq_ok_iff]
      cases x <;> simp [kind, bytes, Memory.holds_cons, Memory.holds_nil]
  | var =>
      rw [scan, Scan.map_eq_ok_iff]
      simp only [Scan.byte, Scan.take_eq_ok_iff]
      cases x <;> simp [kind, bytes, Memory.holds_cons, Memory.holds_nil]

/-- Operands are read exactly where their bytes lie in memory, one behind another. -/
theorem scanAll_eq_ok_iff {ks : List OperandKind} {xs : List Operand} :
    scanAll ks m a = (.ok xs, b) ↔
      xs.map kind = ks ∧ m.Holds a (xs.flatMap bytes) ∧ b = a + (xs.flatMap bytes).length := by
  -- On the kinds: every operand starts where the one before it ends.
  induction ks generalizing a xs with
  | nil =>
      constructor
      · intro h
        cases h
        exact ⟨rfl, Memory.holds_nil, rfl⟩
      · rintro ⟨hxs, -, rfl⟩
        cases List.map_eq_nil_iff.mp hxs
        rfl
  | cons k ks ih =>
      rw [scanAll, Scan.bind_run, Action.bind_eq_ok]
      constructor
      · rintro ⟨x, a', hx, h⟩
        obtain ⟨xs', b', hxs, h⟩ := Action.bind_eq_ok.mp h
        cases h
        obtain ⟨rfl, hbytes, rfl⟩ := scan_eq_ok_iff.mp hx
        obtain ⟨rfl, hrest, rfl⟩ := ih.mp hxs
        rw [List.flatMap_cons, List.length_append, ← Nat.add_assoc]
        exact ⟨rfl, Memory.holds_append.mpr ⟨hbytes, hrest⟩, rfl⟩
      · rintro ⟨hks, hm, hb⟩
        obtain ⟨x, xs', rfl, rfl, rfl⟩ := List.map_eq_cons_iff.mp hks
        rw [List.flatMap_cons] at hm hb
        obtain ⟨hx, hxs⟩ := Memory.holds_append.mp hm
        refine ⟨x, _, scan_eq_ok_iff.mpr ⟨rfl, hx, rfl⟩, ?_⟩
        refine Action.bind_eq_ok.mpr ⟨xs', b, ih.mpr ⟨rfl, hxs, ?_⟩, rfl⟩
        rw [hb, List.length_append, Nat.add_assoc]

/-- An operand can be read exactly where its bytes are left. -/
theorem reads_scan (k : OperandKind) : Scan.Reads (scan k) m a k.size := by
  cases k with
  | large => exact Scan.reads_word.map large
  | small => exact Scan.reads_byte.map small
  | var => exact Scan.reads_byte.map var

theorem reads_scanAll (ks : List OperandKind) (ha : a ≤ m.size) :
    Scan.Reads (scanAll ks) m a (OperandKind.sizes ks) := by
  induction ks generalizing a with
  | nil => exact Scan.reads_pure [] ha
  | cons k ks ih =>
      refine (reads_scan k).bind (Nat.le_add_right _ _) ?_
      intro x _ hx
      rw [OperandKind.sizes, Nat.add_sub_cancel_left]
      exact (ih hx).map (x :: ·)

end Operand

/-! ## Instructions -/

/-- An instruction without its place in memory. -/
structure Description where
  form : Form
  opClass : OpClass
  /-- The number of the operation within its class. -/
  number : Nat
  operands : List Operand
  deriving DecidableEq, Repr

namespace Description

/-- The instructions that the format provides for. -/
inductive WellFormed : Description → Prop where
  /-- The long form has two operands, neither of them a word. -/
  | long {number : Nat} {x y : Operand} (hnumber : number < 32) (hx : x.kind ≠ .large)
      (hy : y.kind ≠ .large) : WellFormed ⟨.long, .two, number, [x, y]⟩
  /-- The short form has no operand, or one of any kind. -/
  | zero {number : Nat} (hnumber : number < 16) : WellFormed ⟨.short, .zero, number, []⟩
  | one {number : Nat} {x : Operand} (hnumber : number < 16) :
      WellFormed ⟨.short, .one, number, [x]⟩
  /-- The variable form has up to four operands in two classes. -/
  | variadic {opClass : OpClass} {number : Nat} {xs : List Operand}
      (hclass : opClass = .two ∨ opClass = .many) (hnumber : number < 32) (hxs : xs.length ≤ 4) :
      WellFormed ⟨.variadic, opClass, number, xs⟩

/-- How many operands each form can have. -/
theorem WellFormed.length_operands {d : Description} (h : d.WellFormed) :
    d.operands.length ≤ 4 ∧ (d.opClass = .one → d.operands.length = 1) ∧
      (d.form = .long → d.operands.length = 2) := by
  cases h with
  | long => exact ⟨by simp, nofun, fun _ => rfl⟩
  | zero => exact ⟨by simp, nofun, nofun⟩
  | one => exact ⟨by simp, fun _ => rfl, nofun⟩
  | variadic hclass _ hxs =>
      refine ⟨hxs, ?_, nofun⟩
      rintro rfl
      rcases hclass with h | h <;> cases h

/-- The bit that tells a variable from a constant in the long form. -/
def longBit (x : Operand) : Nat := if x.kind = .var then 1 else 0

/-- The bit that tells the classes of the variable form apart. -/
def classBit (c : OpClass) : Nat := if c = .two then 0 else 1

/-- The value of the opcode byte. -/
def opcodeValue (d : Description) : Nat :=
  match d.form, d.operands with
  | .long, x :: y :: _ => 64 * longBit x + 32 * longBit y + d.number
  | .long, _ => d.number
  | .short, [] => 128 + 16 * 3 + d.number
  | .short, x :: _ => 128 + 16 * x.kind.bits + d.number
  | .variadic, _ => 192 + 32 * classBit d.opClass + d.number

/-- The opcode byte. -/
def opcode (d : Description) : UInt8 := UInt8.ofNat d.opcodeValue

/-- The pair of bits for the operand in a given place; 3 stands for none. -/
def pair (ks : List OperandKind) (i : Nat) : Nat := (ks[i]?.map OperandKind.bits).getD 3

/-- The type byte for operands of given kinds. -/
def typeByte (ks : List OperandKind) : UInt8 :=
  UInt8.ofNat (64 * pair ks 0 + 16 * pair ks 1 + 4 * pair ks 2 + pair ks 3)

/-- The bytes before the operands. -/
def head (d : Description) (types : UInt8) : List UInt8 :=
  d.opcode :: if d.form = .variadic then [types] else []

/-- The bytes of an instruction, given its type byte. -/
def layout (d : Description) (types : UInt8) : List UInt8 :=
  d.head types ++ d.operands.flatMap Operand.bytes

/-- The bytes of an instruction. -/
def bytes (d : Description) : List UInt8 := d.layout (typeByte (d.operands.map Operand.kind))

/-- The instruction at an address. -/
def placed (d : Description) (address : Nat) : Instruction :=
  { address, form := d.form, opClass := d.opClass, number := d.number, operands := d.operands
    size := d.bytes.length }

/-- A type byte lists the kinds that it was made from. -/
theorem kinds_typeByte {ks : List OperandKind} (h : ks.length ≤ 4) :
    Instruction.kinds (typeByte ks) = ks := by
  have hpair (i : Nat) : pair ks i ≤ 3 := by
    rw [pair]
    match ks[i]? with
    | none => exact Nat.le_refl 3
    | some k => cases k <;> decide
  have hbits (i : Nat) : OperandKind.ofBits? (pair ks i) = ks[i]? := by
    rw [pair]
    match ks[i]? with
    | none => rfl
    | some k => exact k.ofBits?_bits
  have hvalue : (typeByte ks).toNat =
      64 * pair ks 0 + 16 * pair ks 1 + 4 * pair ks 2 + pair ks 3 := by
    have h₀ := hpair 0
    have h₁ := hpair 1
    have h₂ := hpair 2
    have h₃ := hpair 3
    rw [typeByte, UInt8.toNat_ofNat']
    omega
  have hplace (n i : Nat) (hn : n % 4 = pair ks i) : OperandKind.ofBits? n = ks[i]? := by
    rw [← OperandKind.ofBits?_mod, hn, hbits]
  have hlist : [(typeByte ks).toNat / 64, (typeByte ks).toNat / 16, (typeByte ks).toNat / 4,
      (typeByte ks).toNat].map OperandKind.ofBits? = [ks[0]?, ks[1]?, ks[2]?, ks[3]?] := by
    have h₀ := hpair 0
    have h₁ := hpair 1
    have h₂ := hpair 2
    have h₃ := hpair 3
    rw [hvalue, List.map_cons, List.map_cons, List.map_cons, List.map_cons, List.map_nil,
      hplace _ 0 (by omega), hplace _ 1 (by omega), hplace _ 2 (by omega), hplace _ 3 (by omega)]
  rw [Instruction.kinds, hlist]
  -- the places after the last kind are empty, and the list of kinds stops at the first of them
  match ks, h with
  | [], _ | [_], _ | [_, _], _ | [_, _, _], _ | [_, _, _, _], _ => rfl

end Description

/-! ## Decoding -/

namespace Description

theorem longBit_le (x : Operand) : longBit x ≤ 1 := by
  rw [longBit]
  split <;> decide

/-- The bit of the long form gives the kind, if it is not the large one. -/
theorem longKind_longBit {x : Operand} (hx : x.kind ≠ .large) :
    Instruction.longKind (longBit x == 1) = x.kind := by
  cases x with
  | large w => exact absurd rfl hx
  | small b => rfl
  | var v => rfl

/-- An operand of the kind that a bit gives has that bit. -/
theorem longBit_of_kind {x : Operand} {n : Nat} (hx : x.kind = Instruction.longKind (n % 2 == 1)) :
    longBit x = n % 2 ∧ x.kind ≠ .large := by
  rw [longBit, hx, Instruction.longKind]
  rcases Nat.mod_two_eq_zero_or_one n with h | h
  · rw [h]
    exact ⟨rfl, nofun⟩
  · rw [h]
    exact ⟨rfl, nofun⟩

theorem classBit_le (c : OpClass) : classBit c ≤ 1 := by
  cases c <;> decide

/-- The bits of a kind are not those that end the list of kinds. -/
theorem bits_lt_three (k : OperandKind) : k.bits < 3 := by
  cases k <;> decide

/-- The parts of an opcode fit into a byte. -/
theorem toNat_opcode {d : Description} (hd : d.WellFormed) : d.opcode.toNat = d.opcodeValue := by
  rw [opcode, UInt8.toNat_ofNat']
  refine Nat.mod_eq_of_lt ?_
  -- In each form the parts have so few bits that their sum is below 256.
  cases hd with
  | @long number x y hnumber _ _ =>
      have hx := longBit_le x
      have hy := longBit_le y
      show 64 * longBit x + 32 * longBit y + number < 256
      omega
  | @zero number hnumber =>
      show 128 + 16 * 3 + number < 256
      omega
  | @one number x hnumber =>
      have hx := bits_lt_three x.kind
      show 128 + 16 * x.kind.bits + number < 256
      omega
  | @variadic opClass number xs _ hnumber _ =>
      have hc := classBit_le opClass
      show 192 + 32 * classBit opClass + number < 256
      omega

/-- An opcode is given by the sum of its parts. -/
theorem opcode_eq {d : Description} {opcode : UInt8} (h : d.opcodeValue = opcode.toNat) :
    d.opcode = opcode := by
  rw [Description.opcode, h, UInt8.ofNat_toNat]

/-! An opcode byte, together with the operands, makes up a well-formed instruction, whose opcode
    byte it is. -/

/-- Every opcode below 128 is that of a description in the long form. -/
theorem long_of_kinds {opcode : UInt8} {xs : List Operand} (h : opcode.toNat < 128)
    (hxs : xs.map Operand.kind = [Instruction.longKind (opcode.toNat / 64 % 2 == 1),
      Instruction.longKind (opcode.toNat / 32 % 2 == 1)]) :
    WellFormed ⟨.long, .two, opcode.toNat % 32, xs⟩ ∧
      Description.opcode ⟨.long, .two, opcode.toNat % 32, xs⟩ = opcode := by
  obtain ⟨x, rest, rfl, hx, hrest⟩ := List.map_eq_cons_iff.mp hxs
  obtain ⟨y, none, rfl, hy, hnone⟩ := List.map_eq_cons_iff.mp hrest
  cases List.map_eq_nil_iff.mp hnone
  obtain ⟨hxbit, hx⟩ := longBit_of_kind hx
  obtain ⟨hybit, hy⟩ := longBit_of_kind hy
  refine ⟨.long (Nat.mod_lt _ (by decide)) hx hy, opcode_eq ?_⟩
  show 64 * longBit x + 32 * longBit y + opcode.toNat % 32 = opcode.toNat
  omega

/-- An opcode of the short form without an operand kind is one without operands. -/
theorem zero_of_bits {opcode : UInt8} (h : 128 ≤ opcode.toNat) (h' : opcode.toNat < 192)
    (hkind : OperandKind.ofBits? (opcode.toNat / 16) = none) :
    WellFormed ⟨.short, .zero, opcode.toNat % 16, []⟩ ∧
      Description.opcode ⟨.short, .zero, opcode.toNat % 16, []⟩ = opcode := by
  have hbits : opcode.toNat / 16 % 4 = 3 := by
    rw [OperandKind.mod_four_eq, hkind]
    rfl
  refine ⟨.zero (Nat.mod_lt _ (by decide)), opcode_eq ?_⟩
  show 128 + 16 * 3 + opcode.toNat % 16 = opcode.toNat
  omega

/-- An opcode of the short form with an operand kind is one with one operand. -/
theorem one_of_bits {opcode : UInt8} {x : Operand} (h : 128 ≤ opcode.toNat)
    (h' : opcode.toNat < 192) (hkind : OperandKind.ofBits? (opcode.toNat / 16) = some x.kind) :
    WellFormed ⟨.short, .one, opcode.toNat % 16, [x]⟩ ∧
      Description.opcode ⟨.short, .one, opcode.toNat % 16, [x]⟩ = opcode := by
  have hbits : opcode.toNat / 16 % 4 = x.kind.bits := by
    rw [OperandKind.mod_four_eq, hkind]
    rfl
  refine ⟨.one (Nat.mod_lt _ (by decide)), opcode_eq ?_⟩
  show 128 + 16 * x.kind.bits + opcode.toNat % 16 = opcode.toNat
  omega

/-- Every opcode from 192 up is that of a description in the variable form. -/
theorem variadic_of_length {opcode : UInt8} {xs : List Operand} (h : 192 ≤ opcode.toNat)
    (hxs : xs.length ≤ 4) :
    let c : OpClass := if opcode.toNat / 32 % 2 == 0 then .two else .many
    WellFormed ⟨.variadic, c, opcode.toNat % 32, xs⟩ ∧
      Description.opcode ⟨.variadic, c, opcode.toNat % 32, xs⟩ = opcode := by
  have hlt := opcode.toNat_lt
  intro c
  have hc : classBit c = opcode.toNat / 32 % 2 ∧ (c = .two ∨ c = .many) := by
    rcases Nat.mod_two_eq_zero_or_one (opcode.toNat / 32) with hbit | hbit
    · simp [c, hbit, classBit]
    · simp [c, hbit, classBit]
  refine ⟨.variadic hc.2 (Nat.mod_lt _ (by decide)) hxs, opcode_eq ?_⟩
  show 192 + 32 * classBit c + opcode.toNat % 32 = opcode.toNat
  omega

/-- The number of bytes before the operands. -/
def headSize (d : Description) : Nat := if d.form = .variadic then 2 else 1

theorem length_head (d : Description) (types : UInt8) : (d.head types).length = d.headSize := by
  rw [head, headSize]
  split <;> rfl

theorem length_layout (d : Description) (types : UInt8) :
    (d.layout types).length = d.headSize + (d.operands.flatMap Operand.bytes).length := by
  rw [layout, List.length_append, length_head]

theorem headSize_pos (d : Description) : 1 ≤ d.headSize := by
  rw [headSize]
  split <;> decide

end Description

namespace Instruction

variable {m m' : Memory} {a b : Nat}

/-- A byte of kinds has at most four of them. -/
theorem length_kinds_le (types : UInt8) : (kinds types).length ≤ 4 := by
  rw [kinds]
  refine Nat.le_trans (List.length_filterMap_le _ _) ?_
  exact (List.takeWhile_prefix _).length_le

/-- What is scanned of the long form before its operands. -/
theorem scanHead_long {opcode : UInt8} (h : opcode.toNat < 128) :
    scanHead opcode = pure (.long, .two, opcode.toNat % 32,
      [longKind (opcode.toNat / 64 % 2 == 1), longKind (opcode.toNat / 32 % 2 == 1)]) :=
  if_pos h

/-- What is scanned of the short form without an operand. -/
theorem scanHead_zero {opcode : UInt8} (h : 128 ≤ opcode.toNat) (h' : opcode.toNat < 192)
    (hkind : OperandKind.ofBits? (opcode.toNat / 16) = none) :
    scanHead opcode = pure (.short, .zero, opcode.toNat % 16, []) := by
  simp only [scanHead]
  rw [if_neg (Nat.not_lt.mpr h), if_pos h', hkind]

/-- What is scanned of the short form with an operand. -/
theorem scanHead_one {opcode : UInt8} {k : OperandKind} (h : 128 ≤ opcode.toNat)
    (h' : opcode.toNat < 192) (hkind : OperandKind.ofBits? (opcode.toNat / 16) = some k) :
    scanHead opcode = pure (.short, .one, opcode.toNat % 16, [k]) := by
  simp only [scanHead]
  rw [if_neg (Nat.not_lt.mpr h), if_pos h', hkind]

/-- What is scanned of the variable form: one byte for the kinds of its operands. -/
theorem scanHead_variadic {opcode : UInt8} (h : 192 ≤ opcode.toNat) :
    scanHead opcode = Scan.byte >>= fun types => pure
      (.variadic, if opcode.toNat / 32 % 2 == 0 then .two else .many, opcode.toNat % 32,
        kinds types) := by
  simp only [scanHead]
  rw [if_neg (by omega), if_neg (by omega)]

open Description in
/-- The head of a well-formed instruction is read back from its opcode byte and a type byte
    that lists the kinds of its operands. -/
theorem scanHead_of_wellFormed {d : Description} {types : UInt8} (hd : d.WellFormed)
    (htypes : d.form = .variadic →
      m.byteAt a = .ok types ∧ kinds types = d.operands.map Operand.kind) :
    scanHead d.opcode m a =
      (.ok (d.form, d.opClass, d.number, d.operands.map Operand.kind), a + (d.headSize - 1)) := by
  have hopcode := toNat_opcode hd
  -- Form by form: dividing the opcode gives back the parts that it is the sum of.
  cases hd with
  | @long number x y hnumber hx hy =>
      have hxbit := longBit_le x
      have hybit := longBit_le y
      simp only [opcodeValue] at hopcode
      rw [scanHead_long (by omega), hopcode,
        show (64 * longBit x + 32 * longBit y + number) / 64 % 2 = longBit x by omega,
        show (64 * longBit x + 32 * longBit y + number) / 32 % 2 = longBit y by omega,
        show (64 * longBit x + 32 * longBit y + number) % 32 = number by omega,
        longKind_longBit hx, longKind_longBit hy]
      rfl
  | @zero number hnumber =>
      simp only [opcodeValue] at hopcode
      rw [scanHead_zero (by omega) (by omega), hopcode,
        show (128 + 16 * 3 + number) % 16 = number by omega]
      · rfl
      · rw [← OperandKind.ofBits?_mod, hopcode,
          show (128 + 16 * 3 + number) / 16 % 4 = 3 by omega]
        rfl
  | @one number x hnumber =>
      have hx := bits_lt_three x.kind
      simp only [opcodeValue] at hopcode
      rw [scanHead_one (k := x.kind) (by omega) (by omega), hopcode,
        show (128 + 16 * x.kind.bits + number) % 16 = number by omega]
      · rfl
      · rw [← OperandKind.ofBits?_mod, hopcode,
          show (128 + 16 * x.kind.bits + number) / 16 % 4 = x.kind.bits by omega]
        exact x.kind.ofBits?_bits
  | @variadic opClass number xs hclass hnumber hxs =>
      obtain ⟨hbyte, hkinds⟩ := htypes rfl
      have hread : Scan.byte m a = (.ok types, a + 1) := Scan.take_eq_ok_iff.mpr ⟨hbyte, rfl⟩
      have hc := classBit_le opClass
      simp only [opcodeValue] at hopcode
      rw [scanHead_variadic (by omega), hopcode, Scan.bind_run, Action.bind_of_ok hread,
        show (192 + 32 * classBit opClass + number) / 32 % 2 = classBit opClass by omega,
        show (192 + 32 * classBit opClass + number) % 32 = number by omega, hkinds]
      rcases hclass with rfl | rfl <;> rfl

/-- A head that was read is that of a well-formed instruction with this opcode byte. -/
theorem wellFormed_of_scanHead {opcode : UInt8} {d : Description}
    (h : scanHead opcode m a =
      (.ok (d.form, d.opClass, d.number, d.operands.map Operand.kind), b)) :
    d.WellFormed ∧ d.opcode = opcode ∧ b = a + (d.headSize - 1) ∧
      (d.form = .variadic →
        ∃ types, m.byteAt a = .ok types ∧ kinds types = d.operands.map Operand.kind) := by
  obtain ⟨form, opClass, number, xs⟩ := d
  dsimp only at h
  -- The opcode byte decides the form, and in the short form whether there is an operand.
  by_cases hlong : opcode.toNat < 128
  · rw [scanHead_long hlong] at h
    obtain ⟨hhead, hb⟩ := Scan.pure_eq_ok_iff.mp h
    simp only [Prod.mk.injEq] at hhead
    obtain ⟨rfl, rfl, rfl, hkinds⟩ := hhead
    obtain ⟨hd, hopcode⟩ := Description.long_of_kinds hlong hkinds.symm
    exact ⟨hd, hopcode, hb, nofun⟩
  · rw [Nat.not_lt] at hlong
    by_cases hshort : opcode.toNat < 192
    · cases hkind : OperandKind.ofBits? (opcode.toNat / 16) with
      | none =>
          rw [scanHead_zero hlong hshort hkind] at h
          obtain ⟨hhead, hb⟩ := Scan.pure_eq_ok_iff.mp h
          simp only [Prod.mk.injEq] at hhead
          obtain ⟨rfl, rfl, rfl, hkinds⟩ := hhead
          cases List.map_eq_nil_iff.mp hkinds.symm
          obtain ⟨hd, hopcode⟩ := Description.zero_of_bits hlong hshort hkind
          exact ⟨hd, hopcode, hb, nofun⟩
      | some k =>
          rw [scanHead_one hlong hshort hkind] at h
          obtain ⟨hhead, hb⟩ := Scan.pure_eq_ok_iff.mp h
          simp only [Prod.mk.injEq] at hhead
          obtain ⟨rfl, rfl, rfl, hkinds⟩ := hhead
          obtain ⟨x, rest, rfl, rfl, hrest⟩ := List.map_eq_cons_iff.mp hkinds.symm
          cases List.map_eq_nil_iff.mp hrest
          obtain ⟨hd, hopcode⟩ := Description.one_of_bits hlong hshort hkind
          exact ⟨hd, hopcode, hb, nofun⟩
    · rw [Nat.not_lt] at hshort
      rw [scanHead_variadic hshort, Scan.bind_run] at h
      obtain ⟨types, a', htypes, h⟩ := Action.bind_eq_ok.mp h
      obtain ⟨hbyte, rfl⟩ := Scan.take_eq_ok_iff.mp htypes
      obtain ⟨hhead, hb⟩ := Scan.pure_eq_ok_iff.mp h
      simp only [Prod.mk.injEq] at hhead
      obtain ⟨rfl, rfl, rfl, hkinds⟩ := hhead
      have hlength := length_kinds_le types
      rw [hkinds, List.length_map] at hlength
      obtain ⟨hd, hopcode⟩ := Description.variadic_of_length hshort hlength
      exact ⟨hd, hopcode, hb, fun _ => ⟨types, hbyte, hkinds⟩⟩

end Instruction

namespace Description

/-- A memory holds an encoding of an instruction at an address. What a type byte has after the
    kinds that it lists is left open. -/
def Laid (d : Description) (m : Memory) (a : Nat) : Prop :=
  ∃ types, m.Holds a (d.layout types) ∧
    (d.form = .variadic → Instruction.kinds types = d.operands.map Operand.kind)

/-- A description is laid out where its opcode, its kinds and its operands can be read. -/
theorem laid_iff {d : Description} {m : Memory} {a : Nat} :
    d.Laid m a ↔ ∃ types, m.byteAt a = .ok d.opcode ∧
      (d.form = .variadic →
        m.byteAt (a + 1) = .ok types ∧ Instruction.kinds types = d.operands.map Operand.kind) ∧
      m.Holds (a + d.headSize) (d.operands.flatMap Operand.bytes) := by
  simp only [Laid, layout, Memory.holds_append, length_head]
  by_cases hform : d.form = .variadic
  · simp [head, hform, Memory.holds_cons, Memory.holds_nil, and_comm, and_left_comm]
  · simp [head, hform, Memory.holds_cons, Memory.holds_nil]

end Description

namespace Instruction

variable {m m' : Memory} {a b : Nat}

/-- An instruction without its place in memory. -/
def description (i : Instruction) : Description := ⟨i.form, i.opClass, i.number, i.operands⟩

/-- The parts of a decoded instruction, in the order in which they are read. -/
theorem scan_eq_ok_iff {i : Instruction} : scan m a = (.ok i, b) ↔
    ∃ opcode c, m.byteAt a = .ok opcode ∧
      scanHead opcode m (a + 1) =
        (.ok (i.form, i.opClass, i.number, i.operands.map Operand.kind), c) ∧
      Operand.scanAll (i.operands.map Operand.kind) m c = (.ok i.operands, b) ∧
      i.address = a ∧ i.size = b - a := by
  rw [scan_eq_scanParts]
  constructor
  · intro h
    obtain ⟨opcode, a₁, hopcode, h⟩ := Action.bind_eq_ok.mp h
    obtain ⟨⟨form, opClass, number, ks⟩, c, hhead, h⟩ := Action.bind_eq_ok.mp h
    obtain ⟨xs, a₃, hxs, h⟩ := Action.bind_eq_ok.mp h
    cases h
    obtain ⟨hbyte, rfl⟩ := Scan.take_eq_ok_iff.mp hopcode
    obtain ⟨rfl, -, -⟩ := Operand.scanAll_eq_ok_iff.mp hxs
    exact ⟨opcode, c, hbyte, hhead, hxs, rfl, rfl⟩
  · rintro ⟨opcode, c, hbyte, hhead, hxs, haddress, hsize⟩
    refine Action.bind_eq_ok.mpr ⟨opcode, a + 1, Scan.take_eq_ok_iff.mpr ⟨hbyte, rfl⟩, ?_⟩
    refine Action.bind_eq_ok.mpr ⟨_, c, hhead, ?_⟩
    refine Action.bind_eq_ok.mpr ⟨i.operands, b, hxs, ?_⟩
    show (Except.ok (Instruction.mk a i.form i.opClass i.number i.operands (b - a)), b) = _
    rw [← hsize, ← haddress]

/-- An encoding of a well-formed instruction decodes to it. -/
theorem scan_of_laid {d : Description} (hd : d.WellFormed) (h : d.Laid m a) :
    scan m a = (.ok (d.placed a), a + d.bytes.length) := by
  obtain ⟨types, hopcode, htypes, hoperands⟩ := Description.laid_iff.mp h
  have hpos := d.headSize_pos
  refine scan_eq_ok_iff.mpr ⟨d.opcode, _, hopcode, scanHead_of_wellFormed hd htypes, ?_, rfl, ?_⟩
  · rw [show a + 1 + (d.headSize - 1) = a + d.headSize by omega]
    refine Operand.scanAll_eq_ok_iff.mpr ⟨rfl, hoperands, ?_⟩
    rw [Description.bytes, d.length_layout, Nat.add_assoc]
    rfl
  · rw [Nat.add_sub_cancel_left]
    rfl

/-- A decoded instruction is well-formed, and memory holds an encoding of it. -/
theorem laid_of_scan {i : Instruction} (h : scan m a = (.ok i, b)) :
    i.description.WellFormed ∧ i.description.Laid m a := by
  obtain ⟨opcode, c, hbyte, hhead, hxs, -, -⟩ := scan_eq_ok_iff.mp h
  obtain ⟨-, hoperands, -⟩ := Operand.scanAll_eq_ok_iff.mp hxs
  obtain ⟨hd, rfl, rfl, htypes⟩ := wellFormed_of_scanHead (d := i.description) hhead
  have hpos := i.description.headSize_pos
  rw [show a + 1 + (i.description.headSize - 1) = a + i.description.headSize by omega]
    at hoperands
  refine ⟨hd, Description.laid_iff.mpr ?_⟩
  by_cases hform : i.description.form = .variadic
  · obtain ⟨types, htype, hkinds⟩ := htypes hform
    exact ⟨types, hbyte, fun _ => ⟨htype, hkinds⟩, hoperands⟩
  · exact ⟨0, hbyte, fun h => absurd h hform, hoperands⟩

/-- A decoded instruction is the one that its description makes at its address. -/
theorem eq_placed_of_scan {i : Instruction} (h : scan m a = (.ok i, b)) :
    i = i.description.placed a ∧ b = a + i.size := by
  obtain ⟨hd, hlaid⟩ := laid_of_scan h
  have hi := scan_of_laid hd hlaid
  rw [h] at hi
  obtain ⟨hi, hb⟩ := Prod.mk.inj hi
  have hsize : i.size = i.description.bytes.length := congrArg size (Except.ok.inj hi)
  rw [hsize]
  exact ⟨Except.ok.inj hi, hb⟩

/-- Decoding reads nothing but the bytes of the instruction. -/
theorem scan_of_agree {i : Instruction} (h : scan m a = (.ok i, b))
    (hm : ∀ x, a ≤ x → x < a + i.size → m'.bytes[x]? = m.bytes[x]?) :
    scan m' a = (.ok i, b) := by
  obtain ⟨hd, types, hbytes, htypes⟩ := laid_of_scan h
  obtain ⟨hi, rfl⟩ := eq_placed_of_scan h
  have hlength : i.size = i.description.bytes.length := congrArg size hi
  have hsize : (i.description.layout types).length = i.size := by
    rw [hlength, Description.bytes, Description.length_layout, Description.length_layout]
  have hlaid : i.description.Laid m' a := ⟨types, hbytes.of_agree (by rwa [hsize]), htypes⟩
  rw [scan_of_laid hd hlaid, ← hi, hlength]

/-! ## Instructions that do not fit -/

/-- The number of bytes of the instruction at an address, as its opcode byte and its type byte
    have it. A byte that is not there counts as zero. -/
def extent (m : Memory) (a : Nat) : Nat :=
  let opcode := m.bytes[a]?.getD 0
  let types := m.bytes[a + 1]?.getD 0
  if opcode.toNat < 128 then 3
  else if opcode.toNat < 192 then
    1 + ((OperandKind.ofBits? (opcode.toNat / 16)).map OperandKind.size).getD 0
  else 2 + OperandKind.sizes (kinds types)

/-- Every instruction has at least its opcode. -/
theorem extent_pos (m : Memory) (a : Nat) : 1 ≤ extent m a := by
  simp only [extent]
  split
  · decide
  · split
    · exact Nat.le_add_right 1 _
    · exact Nat.le_trans (by decide) (Nat.le_add_right 2 _)

/-- The operands after a head, as many bytes as their kinds have. -/
theorem reads_operands {β : Type} (ks : List OperandKind) {f : List Operand → Nat → β}
    (ha : a ≤ m.size) :
    Scan.Reads (Operand.scanAll ks >>= fun xs => Scan.position >>= fun stop => pure (f xs stop))
      m a (OperandKind.sizes ks) := by
  refine (Operand.reads_scanAll ks ha).bind (Nat.le_refl _) ?_
  intro xs _ hsize
  rw [Nat.sub_self]
  exact .inl ⟨hsize, f xs _, rfl⟩

/-- Decoding takes up the bytes of the instruction. -/
theorem reads_scan : Scan.Reads scan m a (extent m a) := by
  rw [Scan.Reads, scan_eq_scanParts]
  show Scan.Reads (Scan.byte >>= fun opcode => scanHead opcode >>= fun head =>
    Operand.scanAll head.2.2.2 >>= fun xs => Scan.position >>= fun stop =>
      pure (Instruction.mk a head.1 head.2.1 head.2.2.1 xs (stop - a))) m a (extent m a)
  refine Scan.reads_byte.bind (extent_pos m a) ?_
  intro opcode hopcode ha
  obtain ⟨hbyte, -⟩ := Scan.take_eq_ok_iff.mp hopcode
  rw [Memory.byteAt_eq_ok] at hbyte
  simp only [extent, hbyte, Option.getD_some]
  -- The opcode decides how many bytes follow, but in the last form, where the kinds do.
  by_cases hlong : opcode.toNat < 128
  · rw [if_pos hlong, scanHead_long hlong, pure_bind]
    have hsizes (v w : Bool) : OperandKind.sizes [longKind v, longKind w] = 2 := by
      cases v <;> cases w <;> rfl
    rw [show 3 - 1 = OperandKind.sizes _ from (hsizes _ _).symm]
    exact reads_operands _ ha
  · rw [if_neg hlong]
    rw [Nat.not_lt] at hlong
    by_cases hshort : opcode.toNat < 192
    · rw [if_pos hshort, Nat.add_sub_cancel_left]
      cases hkind : OperandKind.ofBits? (opcode.toNat / 16) with
      | none =>
          rw [scanHead_zero hlong hshort hkind, pure_bind]
          exact reads_operands _ ha
      | some k =>
          rw [scanHead_one hlong hshort hkind, pure_bind]
          exact reads_operands [k] ha
    · rw [if_neg hshort]
      rw [Nat.not_lt] at hshort
      rw [scanHead_variadic hshort, bind_assoc]
      refine Scan.reads_byte.bind (by omega) ?_
      intro types htypes ha'
      obtain ⟨htype, -⟩ := Scan.take_eq_ok_iff.mp htypes
      rw [Memory.byteAt_eq_ok] at htype
      rw [pure_bind, htype, Option.getD_some, show ∀ n, 2 + n - 1 - 1 = n by omega]
      exact reads_operands _ ha'

/-- A decoded instruction has as many bytes as its opcode byte and its type byte say. -/
theorem size_of_scan {i : Instruction} (h : scan m a = (.ok i, b)) : i.size = extent m a := by
  obtain ⟨-, hb⟩ := eq_placed_of_scan h
  rcases reads_scan (m := m) (a := a) with ⟨-, j, hj⟩ | ⟨-, address, width, c, he⟩
  · cases h.symm.trans hj
    omega
  · cases h.symm.trans he

/-- Decoding fails exactly if some byte of the instruction lies outside memory, and for that
    reason. -/
theorem scan_eq_error_iff : (∃ e c, scan m a = (.error e, c)) ↔
    ∃ x, a ≤ x ∧ x < a + extent m a ∧ m.size ≤ x := by
  rcases reads_scan (m := m) (a := a) with ⟨hsize, i, hi⟩ | ⟨hsize, address, width, c, he⟩
  · constructor
    · rintro ⟨e, c, he⟩
      cases hi.symm.trans he
    · rintro ⟨x, -, hx, hx'⟩
      omega
  · constructor
    · intro _
      have hpos := extent_pos m a
      exact ⟨max a m.size, by omega, by omega, by omega⟩
    · intro _
      exact ⟨_, c, he⟩

/-- Scanning an instruction fails outside memory only. -/
theorem outOfBounds_of_scan {e : Fault} (h : scan m a = (.error e, b)) :
    ∃ address width, e = .outOfBounds address width m.size := by
  rcases reads_scan (m := m) (a := a) with ⟨-, i, hi⟩ | ⟨-, address, width, c, he⟩
  · cases hi.symm.trans h
  · cases he.symm.trans h
    exact ⟨address, width, rfl⟩

/-- The decoder and the format agree. Every encoding of a well-formed instruction decodes to it;
    whatever decodes is well-formed and depends on its own bytes only; and decoding fails exactly
    if one of these lies outside memory. -/
theorem scan_inverts_encoding :
    (∀ (d : Description) (m : Memory) (a : Nat), d.WellFormed → m.Holds a d.bytes →
      scan m a = (.ok (d.placed a), a + d.bytes.length)) ∧
    (∀ (m : Memory) (a b : Nat) (i : Instruction), scan m a = (.ok i, b) →
      i.description.WellFormed ∧ i = i.description.placed a ∧ b = a + i.size ∧
      i.operands.length ≤ 4 ∧ (i.opClass = .one → i.operands.length = 1) ∧
      (i.form = .long → i.operands.length = 2) ∧ i.size = extent m a ∧
      ∀ m' : Memory, (∀ x, a ≤ x → x < a + i.size → m'.bytes[x]? = m.bytes[x]?) →
        scan m' a = (.ok i, b)) ∧
    ∀ (m : Memory) (a : Nat),
      ((∃ e c, scan m a = (.error e, c)) ↔ ∃ x, a ≤ x ∧ x < a + extent m a ∧ m.size ≤ x) ∧
      ∀ e c, scan m a = (.error e, c) → ∃ address width, e = .outOfBounds address width m.size := by
  refine ⟨?_, ?_, fun m a => ⟨scan_eq_error_iff, fun e c => outOfBounds_of_scan⟩⟩
  · intro d m a hd hbytes
    refine scan_of_laid hd ⟨_, hbytes, ?_⟩
    intro hform
    refine Description.kinds_typeByte ?_
    rw [List.length_map]
    exact hd.length_operands.1
  · intro m a b i h
    obtain ⟨hd, -⟩ := laid_of_scan h
    obtain ⟨hi, hb⟩ := eq_placed_of_scan h
    obtain ⟨hfour, hone, htwo⟩ := hd.length_operands
    exact ⟨hd, hi, hb, hfour, hone, htwo, size_of_scan h, fun m' => scan_of_agree h⟩

/-- The first instruction of the small story is a call with one operand, a word; with its last
    byte cut off it does not decode. -/
theorem nested_call_encoding :
    let d : Description := ⟨.variadic, .many, 0, [.large 37]⟩
    d.bytes = [0xE0, 0x3F, 0, 37] ∧ scan nestedCalls 64 = (.ok (d.placed 64), 68) ∧
      ∃ e c, scan ⟨#[0xE0, 0x3F, 0]⟩ 0 = (.error e, c) := by
  refine ⟨by decide, ?_, ?_⟩
  · refine scan_inverts_encoding.1 ⟨.variadic, .many, 0, [.large 37]⟩ nestedCalls 64 ?_ ?_
    · exact .variadic (.inr rfl) (by decide) (by decide)
    · refine Memory.holds_cons.mpr ⟨rfl, Memory.holds_cons.mpr ⟨rfl, ?_⟩⟩
      exact Memory.holds_cons.mpr ⟨rfl, Memory.holds_cons.mpr ⟨rfl, Memory.holds_nil⟩⟩
  · refine (scan_inverts_encoding.2.2 ⟨#[0xE0, 0x3F, 0]⟩ 0).1.mpr ?_
    exact ⟨3, by decide, by decide, by decide⟩

end Instruction

end ZMachine
