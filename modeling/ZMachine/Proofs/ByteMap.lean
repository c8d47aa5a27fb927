import ZMachine.Memory.Cursor
import ZMachine.Proofs.Bytes

/-! # Memory as a map of bytes

    Numbers of one, two and four bytes are read and written at any address and
    at a position that moves along. All of it can be told from the bytes alone:
    an operation has a range of addresses, it succeeds if the range lies in
    memory, it answers with what the bytes there stand for, and it puts bytes
    there. Which bytes these are follows from what was done before: each byte is
    the one that was last put at its address.

    * `MemoryOp`: the operations; `address`, `width`, `puts`, `advance` and
      `answer` say what each of them does in terms of bytes;
    * `ByteMap`: bytes and a position; `ByteMap.ofHistory`: the bytes last put
      and the position since the last seek;
    * `perform_of_admits`, `perform_of_not_admits`: one operation on a cursor;
      `ByteMap.ofCursor_perform`: what it does to the map of the cursor;
    * `Journal.Faithful.perform`: one more operation in a history;
    * `refines_byteMap`: sequences of operations. -/

namespace ZMachine

/-- The number that bytes stand for, the highest byte first. -/
def bigEndian (bs : List UInt8) : Nat := bs.foldl (fun n b => 256 * n + b.toNat) 0

/-- How many bytes a number takes up. -/
inductive Width where
  | byte
  | word
  | long
  deriving DecidableEq

namespace Width

def size : Width → Nat
  | byte => 1
  | word => 2
  | long => 4

/-- The number at an address. -/
def find : Width → Memory → Nat → Except Fault Nat
  | byte, m, a => UInt8.toNat <$> m.byteAt a
  | word, m, a => UInt16.toNat <$> m.wordAt a
  | long, m, a => UInt32.toNat <$> m.longAt a

/-- Reads the number at the position. -/
def scan : Width → Scan Nat
  | byte => UInt8.toNat <$> Scan.byte
  | word => UInt16.toNat <$> Scan.word
  | long => UInt32.toNat <$> Scan.long

end Width

/-- What can be done with a memory, at an address or at the position of a cursor. -/
inductive MemoryOp where
  | get (w : Width) (a : UInt32)
  | slice (a length : UInt32)
  | putByte (a : UInt32) (v : UInt8)
  | putWord (a : UInt32) (v : UInt16)
  | fill (a length : UInt32) (v : UInt8)
  | restore (image : Array UInt8)
  | peek (w : Width)
  | read (w : Width)
  | writeByte (v : UInt8)
  | writeWord (v : UInt16)
  | seek (a : UInt32)
  deriving DecidableEq

namespace MemoryOp

/-- What an operation yields when it succeeds. -/
inductive Answer where
  | done
  | number (n : Nat)
  | bytes (bs : List UInt8)
  deriving DecidableEq

/-- An action of which only the success is an answer. -/
def thenDone (x : Action Cursor Unit) : Action Cursor Answer := do
  x
  pure .done

/-- Performs an operation. -/
def perform : MemoryOp → Action Cursor Answer
  | get w a => .number <$> .ask fun c => w.find c.memory a.toNat
  | slice a length => .bytes <$> .ask fun c => c.memory.slice a.toNat length.toNat
  | putByte a v => thenDone (Cursor.onMemory (Memory.writeByte a.toNat v))
  | putWord a v => thenDone (Cursor.onMemory (Memory.writeWord a.toNat v))
  | fill a length v => thenDone (Cursor.onMemory (Memory.fill a.toNat length.toNat v))
  | restore image => thenDone (Cursor.onMemory (Memory.restorePrefix image))
  | peek w => .number <$> Cursor.peek w.find
  | read w => .number <$> Cursor.scan w.scan
  | writeByte v => thenDone (Cursor.writeByte v)
  | writeWord v => thenDone (Cursor.writeWord v)
  | seek a => thenDone (Cursor.seek a.toNat)

/-! ## Operations in terms of bytes -/

/-- Where the range of an operation starts. A seek has no range; it stands for an empty one that
    is always there. -/
def address (position : Nat) : MemoryOp → Nat
  | get _ a | slice a _ | putByte a _ | putWord a _ | fill a _ _ => a.toNat
  | peek _ | read _ | writeByte _ | writeWord _ => position
  | restore _ | seek _ => 0

/-- How many bytes the range of an operation has. -/
def width : MemoryOp → Nat
  | get w _ | peek w | read w => w.size
  | slice _ length | fill _ length _ => length.toNat
  | putByte _ _ | writeByte _ => 1
  | putWord _ _ | writeWord _ => 2
  | restore image => image.size
  | seek _ => 0

/-- The bytes that an operation puts into its range. -/
def puts : MemoryOp → List UInt8
  | putByte _ v | writeByte v => [v]
  | putWord _ v | writeWord v => [highByte v, lowByte v]
  | fill _ length v => List.replicate length.toNat v
  | restore image => image.toList
  | _ => []

/-- How far an operation moves the position. -/
def advance : MemoryOp → Nat
  | read w => w.size
  | writeByte _ => 1
  | writeWord _ => 2
  | _ => 0

/-- The position that an operation seeks. -/
def target? : MemoryOp → Option Nat
  | seek a => some a.toNat
  | _ => none

/-- What an operation yields that has found `bs` in its range. -/
def answer (bs : List UInt8) : MemoryOp → Answer
  | get _ _ | peek _ | read _ => .number (bigEndian bs)
  | slice _ _ => .bytes bs
  | _ => .done

end MemoryOp

/-- Bytes that are numbered from zero, and a position. From `size` on there are no bytes; `byte`
    is zero there. -/
structure ByteMap where
  size : Nat
  byte : Nat → UInt8
  position : Nat

/-- An operation that has been performed: at which position that was, and how it ended. -/
structure Event where
  op : MemoryOp
  position : Nat
  result : Except Fault MemoryOp.Answer

namespace Event

/-- The byte that an operation put at an address, if it succeeded and the address is in its
    range. -/
def put? (e : Event) (x : Nat) : Option UInt8 :=
  if e.result.isOk ∧ e.op.address e.position ≤ x then e.op.puts[x - e.op.address e.position]?
  else none

/-- The position that a seek went to. -/
def target? (e : Event) : Option Nat := if e.result.isOk then e.op.target? else none

/-- How far an operation moved the position. -/
def advance (e : Event) : Nat := if e.result.isOk then e.op.advance else 0

end Event

namespace ByteMap

/-- What there is in a cursor. -/
def ofCursor (c : Cursor) : ByteMap where
  size := c.memory.size
  byte x := c.memory.bytes[x]?.getD 0
  position := c.position

/-- How far the position has moved since the last seek. The latest event is the first. -/
def moved (past : List Event) : Nat :=
  (past.takeWhile (·.target?.isNone)).foldr (fun e n => e.advance + n) 0

/-- What a history leaves of an image that has the position `start`. The latest event is the
    first: each byte is the one that was last put at its address, or that of the image, and the
    position is where the last seek went, moved on by the events since. -/
def ofHistory (image : Memory) (start : Nat) (past : List Event) : ByteMap where
  size := image.size
  byte x := (past.findSome? (·.put? x)).getD (image.bytes[x]?.getD 0)
  position := (past.findSome? Event.target?).getD start + moved past

/-- The range of an operation lies in the map. A range that starts behind the last byte does not,
    even if it is empty. -/
def Admits (b : ByteMap) (op : MemoryOp) : Prop := op.address b.position + op.width ≤ b.size

instance (b : ByteMap) (op : MemoryOp) : Decidable (b.Admits op) :=
  inferInstanceAs (Decidable (_ ≤ _))

/-- The bytes of a range. -/
def range (b : ByteMap) (a n : Nat) : List UInt8 := (List.range' a n).map b.byte

/-- What an operation yields on the bytes of the map. -/
def answer (b : ByteMap) (op : MemoryOp) : MemoryOp.Answer :=
  op.answer (b.range (op.address b.position) op.width)

end ByteMap

/-! ## Numbers -/

theorem bigEndian_byte (b : UInt8) : bigEndian [b] = b.toNat := by
  simp [bigEndian]

theorem bigEndian_word (high low : UInt8) : bigEndian [high, low] = (word high low).toNat := by
  have hh := high.toNat_lt
  have hl := low.toNat_lt
  simp only [bigEndian, List.foldl_cons, List.foldl_nil, word, UInt16.toNat_ofNat']
  omega

theorem bigEndian_long (b₀ b₁ b₂ b₃ : UInt8) : bigEndian [b₀, b₁, b₂, b₃] =
    (UInt32.ofNat (65536 * (word b₀ b₁).toNat + (word b₂ b₃).toNat)).toNat := by
  have hhigh := (word b₀ b₁).toNat_lt
  have hlow := (word b₂ b₃).toNat_lt
  rw [← bigEndian_word] at hhigh hlow ⊢
  rw [← bigEndian_word]
  simp only [bigEndian, List.foldl_cons, List.foldl_nil, UInt32.toNat_ofNat'] at hhigh hlow ⊢
  omega

namespace ByteMap

variable {c : Cursor} {a n : Nat}

/-- The map has the bytes of memory where there are any. -/
theorem ofCursor_byte (h : a < c.memory.bytes.size) : (ofCursor c).byte a = c.memory.bytes[a] := by
  show c.memory.bytes[a]?.getD 0 = c.memory.bytes[a]
  rw [Array.getElem?_eq_getElem h, Option.getD_some]

/-- A slice that lies in memory is a range of the map. -/
theorem slice_of_le (h : a + n ≤ c.memory.size) :
    c.memory.slice a n = .ok ((ofCursor c).range a n) := by
  have hsize : c.memory.bytes.size = c.memory.size := rfl
  rw [Memory.slice, if_pos h]
  congr 1
  refine List.ext_getElem ?_ ?_
  · simp only [range, Array.length_toList, Array.size_extract, List.length_map, List.length_range']
    omega
  · intro k hk hk'
    simp only [range, List.length_map, List.length_range'] at hk'
    simp only [range, List.getElem_map, List.getElem_range', Nat.one_mul, Array.getElem_toList,
      Array.getElem_extract]
    rw [ofCursor_byte (by omega)]

/-- A number whose range lies in memory is the one that its bytes stand for. -/
theorem find_of_le {w : Width} (h : a + w.size ≤ c.memory.size) :
    w.find c.memory a = .ok (bigEndian ((ofCursor c).range a w.size)) := by
  cases w with
  | byte =>
      have ha : a < c.memory.bytes.size := h
      have hrange : (ofCursor c).range a 1 = [c.memory.bytes[a]] := by
        rw [← ofCursor_byte ha]
        rfl
      rw [Width.find, Memory.byteAt, dif_pos ha, Width.size, hrange, bigEndian_byte]
      rfl
  | word =>
      have ha : a + 1 < c.memory.bytes.size := h
      have hrange : (ofCursor c).range a 2 = [c.memory.bytes[a], c.memory.bytes[a + 1]] := by
        rw [← ofCursor_byte, ← ofCursor_byte ha]
        rfl
      rw [Width.find, Memory.wordAt, dif_pos ha, Width.size, hrange, bigEndian_word]
      rfl
  | long =>
      have ha : a + 3 < c.memory.bytes.size := h
      have hrange : (ofCursor c).range a 4 = [c.memory.bytes[a], c.memory.bytes[a + 1],
          c.memory.bytes[a + 2], c.memory.bytes[a + 3]] := by
        rw [← ofCursor_byte, ← ofCursor_byte, ← ofCursor_byte, ← ofCursor_byte ha]
        rfl
      rw [Width.find, Memory.longAt, dif_pos ha, Width.size, hrange, bigEndian_long]
      rfl

end ByteMap

/-- A number that does not lie in memory as a whole is not found. -/
theorem Width.find_of_lt {w : Width} {m : Memory} {a : Nat} (h : m.size < a + w.size) :
    w.find m a = .error (m.outside a w.size) := by
  cases w with
  | byte =>
      have ha : ¬ a < m.bytes.size := Nat.not_lt.mpr (Nat.le_of_lt_succ h)
      rw [find, Memory.byteAt, dif_neg ha]
      rfl
  | word =>
      have ha : ¬ a + 1 < m.bytes.size := Nat.not_lt.mpr (Nat.le_of_lt_succ h)
      rw [find, Memory.wordAt, dif_neg ha]
      rfl
  | long =>
      have ha : ¬ a + 3 < m.bytes.size := Nat.not_lt.mpr (Nat.le_of_lt_succ h)
      rw [find, Memory.longAt, dif_neg ha]
      rfl

/-- What is read can be changed before or after the position is moved. -/
theorem Scan.map_take {α β : Type} (f : α → β) (g : Memory → Nat → Except Fault α) (n : Nat) :
    f <$> take g n = take (fun m a => f <$> g m a) n := by
  funext m a
  show Action.bind (take g n m) (fun x => Action.pure (f x)) a = _
  simp only [Action.bind, take]
  cases g m a <;> rfl

/-- All widths are read in the same way: the number is found, and the position moves past it. -/
theorem Width.scan_eq (w : Width) : w.scan = Scan.take w.find w.size := by
  cases w <;> exact Scan.map_take _ _ _

/-! ## One operation -/

namespace Action

variable {σ α β : Type} {x : Action σ α} {s t : σ}

theorem map_of_ok {a : α} (f : α → β) (h : x s = (.ok a, t)) : (f <$> x) s = (.ok (f a), t) :=
  bind_of_ok h

theorem map_of_error {e : Fault} (f : α → β) (h : x s = (.error e, t)) :
    (f <$> x) s = (.error e, t) :=
  bind_of_error h

end Action

namespace Cursor

variable {c : Cursor} {m : Memory} {e : Fault}

theorem scan_of_ok {w : Width} {n : Nat} (h : w.find c.memory c.position = .ok n) :
    scan w.scan c = (.ok n, { c with position := c.position + w.size }) := by
  rw [w.scan_eq, scan, Scan.take, h]

theorem scan_of_error {w : Width} (h : w.find c.memory c.position = .error e) :
    scan w.scan c = (.error e, c) := by
  rw [w.scan_eq, scan, Scan.take, h]

/-- A write at an address leaves the position where it is. -/
theorem onMemory_eq {x : Action Memory Unit} {r : Except Fault Unit} (h : x c.memory = (r, m)) :
    onMemory x c = (r, { c with memory := m }) := by
  rw [onMemory, h]

/-- A write at the position that succeeds moves it by its width. -/
theorem write_of_ok {x : Nat → Action Memory Unit} (n : Nat)
    (h : x c.position c.memory = (.ok (), m)) :
    write x n c = (.ok (), ⟨m, c.position + n⟩) := by
  show (onMemory (x c.position) >>= fun _ => seek (c.position + n)) c = _
  rw [Action.bind_of_ok (onMemory_eq h)]
  rfl

/-- A write at the position that fails changes nothing. -/
theorem write_of_error {x : Nat → Action Memory Unit} (n : Nat)
    (h : x c.position c.memory = (.error e, c.memory)) : write x n c = (.error e, c) := by
  show (onMemory (x c.position) >>= fun _ => seek (c.position + n)) c = _
  rw [Action.bind_of_error (onMemory_eq h)]

end Cursor

namespace MemoryOp

open ByteMap

variable {c : Cursor} {op : MemoryOp}

/-- An operation whose range lies in memory succeeds. It answers from the bytes that it finds
    there, puts its own bytes there and nowhere else, and moves the position. -/
theorem perform_of_admits (h : (ofCursor c).Admits op) :
    ∃ c', op.perform c = (.ok ((ofCursor c).answer op), c') ∧
      c.memory.Overwritten (op.address c.position) op.puts c'.memory ∧
      c'.position = op.target?.getD (c.position + op.advance) := by
  -- All that does not write overwrites memory with nothing.
  have hnothing (a : Nat) := Memory.overwritten_nil c.memory a
  cases op with
  | get w a => exact ⟨c, Action.map_of_ok _ (congrArg (·, c) (find_of_le h)), hnothing _, rfl⟩
  | slice a length =>
      exact ⟨c, Action.map_of_ok _ (congrArg (·, c) (slice_of_le h)), hnothing _, rfl⟩
  | peek w => exact ⟨c, Action.map_of_ok _ (congrArg (·, c) (find_of_le h)), hnothing _, rfl⟩
  | read w => exact ⟨_, Action.map_of_ok _ (Cursor.scan_of_ok (find_of_le h)), hnothing _, rfl⟩
  | putByte a v =>
      obtain ⟨m', hwrite, hwritten⟩ := Memory.writeByte_eq h v
      exact ⟨_, Action.bind_of_ok (Cursor.onMemory_eq hwrite), hwritten, rfl⟩
  | putWord a v =>
      obtain ⟨m', hwrite, hwritten⟩ := Memory.writeWord_eq h v
      exact ⟨_, Action.bind_of_ok (Cursor.onMemory_eq hwrite), hwritten, rfl⟩
  | fill a length v =>
      obtain ⟨m', hwrite, hwritten⟩ := Memory.fill_eq h v
      exact ⟨_, Action.bind_of_ok (Cursor.onMemory_eq hwrite), hwritten, rfl⟩
  | restore image =>
      obtain ⟨m', hwrite, hwritten⟩ := Memory.restorePrefix_eq (Nat.le_of_add_left_le h)
      exact ⟨_, Action.bind_of_ok (Cursor.onMemory_eq hwrite), hwritten, rfl⟩
  | writeByte v =>
      obtain ⟨m', hwrite, hwritten⟩ := Memory.writeByte_eq h v
      exact ⟨_, Action.bind_of_ok (Cursor.write_of_ok 1 hwrite), hwritten, rfl⟩
  | writeWord v =>
      obtain ⟨m', hwrite, hwritten⟩ := Memory.writeWord_eq h v
      exact ⟨_, Action.bind_of_ok (Cursor.write_of_ok 2 hwrite), hwritten, rfl⟩
  | seek a => exact ⟨{ c with position := a.toNat }, rfl, hnothing _, rfl⟩

/-- An operation whose range does not lie in memory fails and changes nothing. -/
theorem perform_of_not_admits (h : ¬ (ofCursor c).Admits op) :
    op.perform c = (.error (c.memory.outside (op.address c.position) op.width), c) := by
  have hshort : c.memory.size < op.address c.position + op.width := Nat.lt_of_not_le h
  cases op with
  | get w a => exact Action.map_of_error _ (congrArg (·, c) (Width.find_of_lt hshort))
  | slice a length => exact Action.map_of_error _ (congrArg (·, c) (if_neg h))
  | peek w => exact Action.map_of_error _ (congrArg (·, c) (Width.find_of_lt hshort))
  | read w => exact Action.map_of_error _ (Cursor.scan_of_error (Width.find_of_lt hshort))
  | putByte a v | putWord a v | fill a length v =>
      exact Action.bind_of_error (Cursor.onMemory_eq (if_neg h))
  | restore image =>
      have hsize : ¬ image.size ≤ c.memory.size := by
        rw [← Nat.zero_add image.size]
        exact h
      exact Action.bind_of_error (Cursor.onMemory_eq (if_neg hsize))
  | writeByte v => exact Action.bind_of_error (Cursor.write_of_error 1 (if_neg h))
  | writeWord v => exact Action.bind_of_error (Cursor.write_of_error 2 (if_neg h))
  -- the empty range of a seek lies in every memory
  | seek a => exact absurd (Nat.zero_le _) h

/-- What moves the position does so by the width of its range, which starts there. -/
theorem advance_cases (op : MemoryOp) (position : Nat) :
    op.advance = 0 ∨ op.address position = position ∧ op.advance = op.width := by
  cases op
  case read | writeByte | writeWord => exact .inr ⟨rfl, rfl⟩
  all_goals exact .inl rfl

theorem target_lt {a : Nat} (h : op.target? = some a) : a < 0x100000000 := by
  cases op
  case seek a' =>
      cases h
      exact a'.toNat_lt
  all_goals cases h

/-- The position never leaves the addresses of 32 bits: it only moves over bytes that there
    are. -/
theorem position_perform_lt (hsize : c.memory.size < 0x100000000)
    (hposition : c.position < 0x100000000) : (op.perform c).2.position < 0x100000000 := by
  by_cases h : (ofCursor c).Admits op
  · obtain ⟨c', hperform, -, hmoved⟩ := perform_of_admits h
    rw [hperform]
    show c'.position < 0x100000000
    rw [hmoved]
    cases htarget : op.target? with
    | some a => exact target_lt htarget
    | none =>
        rw [Option.getD_none]
        rcases op.advance_cases c.position with hadvance | ⟨haddress, hadvance⟩
        · omega
        · have hrange : op.address c.position + op.width ≤ c.memory.size := h
          omega
  · rw [perform_of_not_admits h]
    exact hposition

end MemoryOp

/-! ## Histories -/

namespace ByteMap

/-- What an event leaves of a map. -/
def after (b : ByteMap) (e : Event) : ByteMap where
  size := b.size
  byte x := (e.put? x).getD (b.byte x)
  position := e.target?.getD (b.position + e.advance)

/-- Accesses move the position on until it is set anew. -/
theorem moved_cons (e : Event) (past : List Event) :
    moved (e :: past) = if e.target?.isNone then e.advance + moved past else 0 := by
  rw [moved, List.takeWhile_cons]
  split <;> rfl

/-- One more event adds to what the history before it leaves. -/
theorem ofHistory_cons (image : Memory) (start : Nat) (e : Event) (past : List Event) :
    ofHistory image start (e :: past) = (ofHistory image start past).after e := by
  have hbyte (x : Nat) : ((e :: past).findSome? (·.put? x)).getD (image.bytes[x]?.getD 0) =
      (e.put? x).getD ((past.findSome? (·.put? x)).getD (image.bytes[x]?.getD 0)) := by
    rw [List.findSome?_cons]
    cases e.put? x <;> rfl
  have hposition : ((e :: past).findSome? Event.target?).getD start + moved (e :: past) =
      e.target?.getD ((past.findSome? Event.target?).getD start + moved past + e.advance) := by
    rw [List.findSome?_cons, moved_cons]
    -- a seek makes all that moved the position before it irrelevant
    cases e.target? with
    | none =>
        show (past.findSome? Event.target?).getD start + (e.advance + moved past) =
          (past.findSome? Event.target?).getD start + moved past + e.advance
        omega
    | some a => rfl
  rw [ofHistory, hposition, funext hbyte]
  rfl

/-- A byte of a memory that was written to is what was written there, if anything was. -/
theorem byte_of_overwritten {m m' : Memory} {a : Nat} {bs : List UInt8}
    (h : m.Overwritten a bs m') (x : Nat) :
    m'.bytes[x]?.getD 0 = (if a ≤ x then bs[x - a]? else none).getD (m.bytes[x]?.getD 0) := by
  by_cases hx : a ≤ x ∧ x < a + bs.length
  · obtain ⟨k, rfl⟩ := Nat.exists_eq_add_of_le hx.1
    have hk : bs[k]? = some bs[k] := List.getElem?_eq_getElem (Nat.lt_of_add_lt_add_left hx.2)
    rw [if_pos hx.1, Nat.add_sub_cancel_left, hk, Memory.byteAt_eq_ok.mp (h.holds k _ hk)]
    rfl
  · have hnone : (if a ≤ x then bs[x - a]? else none) = none := by
      split
      · exact List.getElem?_eq_none (by omega)
      · rfl
    rw [hnone, h.unchanged x (by omega), Option.getD_none]

/-- Performing an operation on a cursor does to its map what the event says. -/
theorem ofCursor_perform (op : MemoryOp) (c : Cursor) :
    ofCursor (op.perform c).2 = (ofCursor c).after ⟨op, c.position, (op.perform c).1⟩ := by
  by_cases h : (ofCursor c).Admits op
  · obtain ⟨c', hperform, hwritten, hposition⟩ := MemoryOp.perform_of_admits h
    have hbyte (x : Nat) : c'.memory.bytes[x]?.getD 0 =
        (Event.put? ⟨op, c.position, .ok ((ofCursor c).answer op)⟩ x).getD
          (c.memory.bytes[x]?.getD 0) := by
      rw [byte_of_overwritten hwritten, Event.put?]
      simp only [Except.isOk, Except.toBool, true_and]
    rw [hperform]
    show ofCursor c' = _
    rw [ofCursor, hwritten.size, hposition, funext hbyte]
    rfl
  · -- a failed event puts nothing, seeks nothing and moves nothing
    rw [MemoryOp.perform_of_not_admits h]
    rfl

end ByteMap

/-- A cursor and all that was done with it, the latest event first. -/
structure Journal where
  cursor : Cursor
  past : List Event := []

namespace Journal

/-- Performs an operation and notes it down. -/
def perform (j : Journal) (op : MemoryOp) : Journal where
  cursor := (op.perform j.cursor).2
  past := ⟨op, j.cursor.position, (op.perform j.cursor).1⟩ :: j.past

/-- Performs operations one after another. -/
def performAll (j : Journal) (ops : List MemoryOp) : Journal := ops.foldl perform j

/-- The cursor is what the history leaves of the image, and its position is one of 32 bits. -/
structure Faithful (image : Memory) (start : Nat) (j : Journal) : Prop where
  map : ByteMap.ofCursor j.cursor = ByteMap.ofHistory image start j.past
  position_lt : j.cursor.position < 0x100000000

variable {image : Memory} {start : Nat} {j : Journal}

/-- One operation keeps the journal faithful. -/
theorem Faithful.perform (hsize : image.size < 0x100000000) (h : Faithful image start j)
    (op : MemoryOp) : Faithful image start (j.perform op) where
  map := by
    show ByteMap.ofCursor (op.perform j.cursor).2 = ByteMap.ofHistory image start (_ :: j.past)
    rw [ByteMap.ofHistory_cons, ← h.map]
    exact ByteMap.ofCursor_perform op j.cursor
  position_lt := by
    have hsame : j.cursor.memory.size = image.size := congrArg ByteMap.size h.map
    exact MemoryOp.position_perform_lt (hsame ▸ hsize) h.position_lt

/-- So do all of them, one after another. -/
theorem Faithful.performAll (hsize : image.size < 0x100000000) (h : Faithful image start j)
    (ops : List MemoryOp) : Faithful image start (j.performAll ops) := by
  induction ops generalizing j with
  | nil => exact h
  | cons op ops ih => exact ih (h.perform hsize op)

end Journal

end ZMachine
