import ZMachine.Proofs.Agreement
import ZMachine.Proofs.Bytes
import ZMachine.Proofs.Outcome

/-! # Which bytes a step may write

    Whether a step succeeds or fails, only few bytes of memory can be different
    after it: those of the global variables, where results are stored, and
    those that its operation is there to write. `Machine.MayWrite` lists the
    latter, operation by operation.

    * `Memory.confined`: actions that write at most given bytes;
    * `Session.writesAs_execute`: what executing an operation writes;
    * `Session.step_footprint`: what a step writes. -/

namespace ZMachine

open Conduct

/-! ## Memory -/

namespace Memory

variable {α β : Type} {m m' m'' : Memory} {x : Nat}

/-- Two memories have different bytes at an address, or one of them has none there. -/
def DiffersAt (m m' : Memory) (x : Nat) : Prop := m'.bytes[x]? ≠ m.bytes[x]?

instance (m m' : Memory) (x : Nat) : Decidable (m.DiffersAt m' x) :=
  inferInstanceAs (Decidable (_ ≠ _))

theorem not_differsAt_self : ¬ m.DiffersAt m x := fun h => h rfl

/-- A byte that has changed in the end changed before or after. -/
theorem DiffersAt.split (h : m.DiffersAt m'' x) (m' : Memory) :
    m.DiffersAt m' x ∨ m'.DiffersAt m'' x := by
  by_cases hx : m'.bytes[x]? = m.bytes[x]?
  · refine .inr ?_
    rw [DiffersAt, hx]
    exact h
  · exact .inl hx

/-- The conduct of an action that writes at most bytes of the given kind. -/
def confined (P : Nat → Prop) : Conduct Memory where
  keeps m m' := ∀ x, m.DiffersAt m' x → P x
  mayFail _ _ := True
  position _ := 0
  refl _ _ h := absurd h not_differsAt_self
  trans {_ m' _} h h' x hx := (hx.split m').elim (h x) (h' x)
  mayFail_of_keeps _ _ := trivial

variable {P : Nat → Prop}

theorem confined_ask (f : Memory → Except Fault α) : (confined P).Obeys (Action.ask f) :=
  .ask fun _ _ _ => trivial

theorem confined_ofExcept (r : Except Fault α) : (confined P).Obeys (Action.ofExcept r) :=
  confined_ask fun _ => r

theorem differsAt_writeByte {a : Nat} {v : UInt8} (h : m.DiffersAt (writeByte a v m).2 x) :
    x = a := by
  unfold writeByte at h
  split at h
  · by_cases hax : a = x
    · exact hax.symm
    · exact absurd (getElem?_setByte_ne m v hax) h
  · exact absurd h not_differsAt_self

theorem differsAt_writeWord {a : Nat} {v : UInt16} (h : m.DiffersAt (writeWord a v m).2 x) :
    a ≤ x ∧ x < a + 2 := by
  refine Decidable.byContradiction fun hx => ?_
  exact absurd (getElem?_writeWord v m (by omega)) h

theorem confined_writeByte {a : Nat} (ha : P a) (v : UInt8) :
    (confined P).Obeys (writeByte a v) := by
  intro m
  refine ⟨?_, fun _ _ => trivial⟩
  intro x hx
  rw [differsAt_writeByte hx]
  exact ha

/-- So may a word, if both its bytes may. -/
theorem confined_writeWord {a : Nat} (ha : ∀ x, a ≤ x → x < a + 2 → P x) (v : UInt16) :
    (confined P).Obeys (writeWord a v) := by
  intro m
  refine ⟨?_, fun _ _ => trivial⟩
  intro x hx
  obtain ⟨hlow, hhigh⟩ := differsAt_writeWord hx
  exact ha x hlow hhigh

theorem confined_writeBytes {bs : List UInt8} {a : Nat}
    (ha : ∀ x, a ≤ x → x < a + bs.length → P x) : (confined P).Obeys (writeBytes a bs) := by
  induction bs generalizing a with
  | nil => exact .pure ()
  | cons b bs ih =>
      rw [List.length_cons] at ha
      refine (confined_writeByte (ha a (Nat.le_refl a) (by omega)) b).bind fun _ => ih ?_
      intro x hlow hhigh
      exact ha x (by omega) (by omega)

/-- What has changed after an action that first reads something was changed by what follows. -/
theorem differsAt_ask_bind {f : Memory → Except Fault α} {g : α → Action Memory β}
    (h : m.DiffersAt ((Action.ask f >>= g) m).2 x) :
    ∃ a, f m = .ok a ∧ m.DiffersAt (g a m).2 x := by
  rw [Action.bind_apply, Action.ask_apply] at h
  cases hf : f m with
  | ok a =>
      rw [hf] at h
      exact ⟨a, rfl, h⟩
  | error e =>
      rw [hf] at h
      exact absurd h not_differsAt_self

/-- Restoring an image changes no byte behind it. -/
theorem differsAt_restorePrefix {image : Array UInt8}
    (h : m.DiffersAt (restorePrefix image m).2 x) : x < image.size := by
  by_cases hfits : image.size ≤ m.size
  · obtain ⟨m', hrestore, hwritten⟩ := restorePrefix_eq hfits
    rw [hrestore] at h
    refine Decidable.byContradiction fun hx => h (hwritten.unchanged x (.inr ?_))
    rw [Array.length_toList, Nat.zero_add]
    exact Nat.le_of_not_lt hx
  · have hrestore : restorePrefix image m = (.error (m.outside 0 image.size), m) := if_neg hfits
    rw [hrestore] at h
    exact absurd h not_differsAt_self

end Memory

/-! ## Objects -/

namespace ObjectTable

variable (t : ObjectTable) {m : Memory} {x : Nat}

/-- A byte that holds a link of an object. -/
def LinkAt (x : Nat) : Prop := ∃ o e l, t.entry o = .ok e ∧ x = e + Link.offset l

/-- Moving objects writes links only. -/
theorem relinks_confined : t.Relinks (Memory.confined t.LinkAt) where
  entry _ := Memory.confined_ofExcept _
  link _ _ := Memory.confined_ask _
  setLink l o target := by
    have hwrite : (Memory.confined t.LinkAt).Obeys (do
        let e ← .ofExcept (t.entry o)
        Memory.writeByte (e + l.offset) (UInt8.ofNat target.toNat)) := by
      refine (Memory.confined_ofExcept _).bind_of_ok ?_
      intro e _ _ he
      exact Memory.confined_writeByte ⟨o, e, l, (Prod.mk.inj he).1, rfl⟩ _
    unfold setLink
    split
    · exact (Obeys.fail fun _ => trivial).bind fun _ => hwrite
    · exact hwrite

/-- The byte that holds an attribute of an object. -/
def AttributeAt (o n : UInt16) (x : Nat) : Prop :=
  ∃ e, t.entry o = .ok e ∧ n.toNat < attributeCount ∧ x = e + n.toNat / 8

/-- Setting an attribute writes the byte that it is in. -/
theorem confined_setAttribute (o n : UInt16) (on : Bool) :
    (Memory.confined (t.AttributeAt o n)).Obeys (t.setAttribute o n on) := by
  rw [setAttribute_eq]
  split
  · exact .pure ()
  · next hn =>
      refine (Memory.confined_ofExcept _).bind_of_ok ?_
      intro e _ _ he
      refine (Memory.confined_ask _).bind fun b => ?_
      exact Memory.confined_writeByte ⟨e, (Prod.mk.inj he).1, Nat.lt_of_not_le hn, rfl⟩ _

/-- The data of a property that can be set. -/
def PropertyAt (m : Memory) (o p : UInt16) (x : Nat) : Prop :=
  ∃ found, t.find? m o p.toNat = .ok (some found) ∧ (found.length = 1 ∨ found.length = 2) ∧
    found.address ≤ x ∧ x < found.address + found.length

/-- Setting a property writes its bytes. -/
theorem differsAt_putProperty {o p value : UInt16}
    (h : m.DiffersAt (t.putProperty o p value m).2 x) : t.PropertyAt m o p x := by
  obtain ⟨found, hfound, h⟩ := Memory.differsAt_ask_bind h
  split at h
  · next a =>
      rw [Memory.differsAt_writeByte h]
      exact ⟨_, hfound, .inl rfl, Nat.le_refl a, Nat.lt_succ_self a⟩
  · exact ⟨_, hfound, .inr rfl, Memory.differsAt_writeWord h⟩
  · exact absurd h Memory.not_differsAt_self
  · exact absurd h Memory.not_differsAt_self

end ObjectTable

/-! ## Lines and text -/

namespace Dictionary

variable (d : Dictionary)

/-- Four bytes are written for each token. -/
theorem confined_writeEntries {P : Nat → Prop} {tokens : List Token} {a : Nat}
    (ha : ∀ x, a ≤ x → x < a + 4 * tokens.length → P x) :
    (Memory.confined P).Obeys (d.writeEntries a tokens) := by
  induction tokens generalizing a with
  | nil => exact .pure ()
  | cons t rest ih =>
      rw [List.length_cons] at ha
      -- The position is checked after three of the four bytes, so the last write stands apart.
      have hlast : (Memory.confined P).Obeys (do
          Memory.writeByte (a + 3) (UInt8.ofNat (t.position % 256 + 1))
          d.writeEntries (a + 4) rest) :=
        (Memory.confined_writeByte (ha (a + 3) (by omega) (by omega)) _).bind fun _ =>
          ih fun x hlow hhigh => ha x (by omega) (by omega)
      rw [writeEntries]
      refine (Memory.confined_ask _).bind fun found => ?_
      refine (Memory.confined_writeWord ?_ _).bind fun _ => ?_
      · intro x hlow hhigh
        exact ha x hlow (by omega)
      refine (Memory.confined_writeByte (ha (a + 2) (by omega) (by omega)) _).bind fun _ => ?_
      dsimp only
      split
      · exact (Obeys.fail fun _ => trivial).bind fun _ => hlast
      · exact hlast

/-- A parse buffer is written behind its first byte, which says how many entries it has room
    for, and so can still be read when the buffer has been filled. -/
theorem differsAt_tokenise {m : Memory} {x buffer : Nat} {line : String}
    (h : m.DiffersAt (d.tokenise line buffer m).2 x) :
    ∃ room, (d.tokenise line buffer m).2.byteAt buffer = .ok room ∧
      buffer + 1 ≤ x ∧ x ≤ buffer + 1 + 4 * room.toNat := by
  rw [tokenise_eq_split] at h ⊢
  obtain ⟨room, hroom, -⟩ := Memory.differsAt_ask_bind h
  have hask : Action.ask (·.byteAt buffer) m = (.ok room, m) := by
    rw [Action.ask_apply, hroom]
  have hlength := List.length_take_le room.toNat (d.split line)
  have hconfined : (Memory.confined fun x => buffer + 1 ≤ x ∧ x ≤ buffer + 1 + 4 * room.toNat).Obeys
      (do Memory.writeByte (buffer + 1) (UInt8.ofNat ((d.split line).take room.toNat).length)
          d.writeEntries (buffer + 2) ((d.split line).take room.toNat)) := by
    refine (Memory.confined_writeByte ⟨Nat.le_refl _, by omega⟩ _).bind fun _ => ?_
    exact d.confined_writeEntries fun x hlow hhigh => ⟨by omega, by omega⟩
  rw [Action.bind_of_ok hask] at h ⊢
  refine ⟨room, ?_, (hconfined m).1 x h⟩
  rw [Memory.byteAt_eq_ok] at hroom ⊢
  -- The first byte of the buffer is not written, so it can be read off the result.
  refine Decidable.byContradiction fun hne => ?_
  have hchanged := (hconfined m).1 buffer fun heq => hne (heq.trans hroom)
  omega

end Dictionary

namespace Machine

variable {α : Type} {m : Memory} {x : Nat}

/-- The bytes of a text buffer: those of the text and the byte that ends it. -/
def TextBufferAt (m : Memory) (text x : Nat) : Prop :=
  ∃ size, m.byteAt text = .ok size ∧ text + 1 ≤ x ∧ x ≤ text + max size.toNat 1

/-- The bytes of a parse buffer: the number of its entries, and the entries. -/
def ParseBufferAt (m : Memory) (parse x : Nat) : Prop :=
  ∃ room, m.byteAt parse = .ok room ∧ parse + 1 ≤ x ∧ x ≤ parse + 1 + 4 * room.toNat

/-- A line is stored in the text buffer, and its words in the parse buffer as it stands then. -/
theorem differsAt_storeLine {d : Dictionary} {line : String} {text parse : Nat}
    (h : m.DiffersAt (storeLine d line text parse m).2 x) :
    TextBufferAt m text x ∨ ParseBufferAt (storeLine d line text parse m).2 parse x := by
  obtain ⟨size, hsize, -⟩ := Memory.differsAt_ask_bind h
  have hask : Action.ask (·.byteAt text) m = (.ok size, m) := by
    rw [Action.ask_apply, hsize]
  have hstored : storeLine d line text parse m = (do
      Memory.writeBytes (text + 1)
        ((storedText line (size.toNat - 1)).map (fun c : Char => UInt8.ofNat c.toNat) ++ [0])
      d.tokenise (String.ofList (storedText line (size.toNat - 1))) parse) m :=
    Action.bind_of_ok hask
  have hlength := length_storedText_le line (size.toNat - 1)
  rw [hstored] at h ⊢
  generalize storedText line (size.toNat - 1) = stored at h hlength
  have htext : (Memory.confined (TextBufferAt m text)).Obeys
      (Memory.writeBytes (text + 1)
        (stored.map (fun c : Char => UInt8.ofNat c.toNat) ++ [0])) := by
    refine Memory.confined_writeBytes fun x hlow hhigh => ⟨size, hsize, hlow, ?_⟩
    rw [List.length_append, List.length_map, List.length_singleton] at hhigh
    omega
  rw [Action.bind_apply] at h ⊢
  cases hwrite : Memory.writeBytes (text + 1)
      (stored.map (fun c : Char => UInt8.ofNat c.toNat) ++ [0]) m with
  | mk r m₁ =>
      rw [hwrite] at h
      cases r with
      -- A text that could not be written has been written in part, still in its buffer.
      | error e => exact .inl (htext.keeps hwrite x h)
      | ok u =>
          refine (h.split m₁).imp (htext.keeps hwrite x) ?_
          intro h
          exact d.differsAt_tokenise h

/-- The bytes that are written when texts are appended to the table at an address, one after
    the other: the count of the table, and for each text its characters behind those that are
    counted by then. -/
inductive AppendsAt (table x : Nat) : Memory → List String → Prop where
  | count {m : Memory} {text : String} {rest : List String} (low : table ≤ x)
      (high : x < table + 2) : AppendsAt table x m (text :: rest)
  | char {m : Memory} {text : String} {rest : List String} {n : UInt16}
      (counted : m.wordAt table = .ok n) (low : table + 2 + n.toNat ≤ x)
      (high : x < table + 2 + n.toNat + text.length) : AppendsAt table x m (text :: rest)
  | later {m m' : Memory} {text : String} {rest : List String}
      (appended : appendText table text m = (.ok (), m')) (h : AppendsAt table x m' rest) :
      AppendsAt table x m (text :: rest)

/-- Appending a text writes behind the texts before it, and the count of the table. -/
theorem differsAt_appendText {table : Nat} {text : String}
    (h : m.DiffersAt (appendText table text m).2 x) (rest : List String) :
    AppendsAt table x m (text :: rest) := by
  rw [appendText_counts] at h
  obtain ⟨n, hn, h⟩ := Memory.differsAt_ask_bind h
  have hconfined : (Memory.confined fun x => AppendsAt table x m (text :: rest)).Obeys (do
      Memory.writeBytes (table + 2 + n.toNat) (text.toList.map tableByte)
      Memory.writeWord table (UInt16.ofNat (n.toNat + text.length))) := by
    refine (Memory.confined_writeBytes ?_).bind fun _ => Memory.confined_writeWord ?_ _
    · intro x hlow hhigh
      rw [List.length_map, String.length_toList] at hhigh
      exact .char hn hlow hhigh
    · intro x hlow hhigh
      exact .count hlow hhigh
  exact (hconfined m).1 x h

/-! ## Machines -/

/-- The string at an address, if there is one. -/
def textAt? (m : Machine) (a : Nat) : Option String :=
  match Text.decode m.memory m.story.header.abbreviations.toNat a with
  | .ok (text, _) => some text
  | .error _ => none

/-- The texts that an operation prints, if nothing fails. The pc is past the operands. -/
def texts (m : Machine) : Operation → List UInt16 → List String
  | .zero .print, _ => (m.textAt? m.pc).toList
  | .zero .printRet, _ => (m.textAt? m.pc).toList.flatMap fun text => [text, "\n"]
  | .zero .newLine, _ => ["\n"]
  | .one .printAddr, a :: _ => (m.textAt? a.toNat).toList
  | .one .printPaddr, packed :: _ => (m.textAt? (unpack packed)).toList
  | .one .printObj, o :: _ => (m.story.name? o).toList
  | .many .printChar, x :: _ => [String.singleton (Text.zscii x.toNat)]
  | .many .printNum, x :: _ => [Numeral.integer (signed x)]
  | _, _ => []

/-- The bytes that an operation on given operands may write besides those of the global
    variables. The machine has read the operands; `m'` is memory when the operation has ended,
    in which the parse buffer still has the size that it had when the text had been stored. -/
inductive MayWrite (m : Machine) (m' : Memory) (x : Nat) : Operation → List UInt16 → Prop where
  | storew {base index value : UInt16} (low : wordElement base index ≤ x)
      (high : x < wordElement base index + 2) :
      MayWrite m m' x (.many .storew) [base, index, value]
  | storeb {base index value : UInt16} (here : x = byteElement base index) :
      MayWrite m m' x (.many .storeb) [base, index, value]
  | putProp {o p value : UInt16} (data : m.story.objects.PropertyAt m.memory o p x) :
      MayWrite m m' x (.many .putProp) [o, p, value]
  | insertObj {o destination : UInt16} (link : m.story.objects.LinkAt x) :
      MayWrite m m' x (.two .insertObj) [o, destination]
  | removeObj {o : UInt16} {rest : List UInt16} (link : m.story.objects.LinkAt x) :
      MayWrite m m' x (.one .removeObj) (o :: rest)
  | setAttr {o n : UInt16} (bit : m.story.objects.AttributeAt o n x) :
      MayWrite m m' x (.two .setAttr) [o, n]
  | clearAttr {o n : UInt16} (bit : m.story.objects.AttributeAt o n x) :
      MayWrite m m' x (.two .clearAttr) [o, n]
  | text {text parse : UInt16} {rest : List UInt16} (buffer : TextBufferAt m.memory text.toNat x) :
      MayWrite m m' x (.many .sread) (text :: parse :: rest)
  | parse {text parse : UInt16} {rest : List UInt16} (buffer : ParseBufferAt m' parse.toNat x) :
      MayWrite m m' x (.many .sread) (text :: parse :: rest)
  | print {op : Operation} {operands : List UInt16} {table : Nat}
      (innermost : m.streams.tables.head? = some table)
      (appends : AppendsAt table x m.memory (m.texts op operands)) :
      MayWrite m m' x op operands
  | openTable {stream table : UInt16} {rest : List UInt16} (select : signed stream = 3)
      (low : table.toNat ≤ x) (high : x < table.toNat + 2) :
      MayWrite m m' x (.many .outputStream) (stream :: table :: rest)
  | restart {operands : List UInt16} (dynamic : x < dynamicSize m.story) :
      MayWrite m m' x (.zero .restart) operands

/-- The values in the frames have no part in this. -/
theorem MayWrite.of_calls {m : Machine} {m' : Memory} {calls : CallStack} {op : Operation}
    {operands : List UInt16} (h : { m with calls }.MayWrite m' x op operands) :
    m.MayWrite m' x op operands := by
  cases h with
  | storew low high => exact .storew low high
  | storeb here => exact .storeb here
  | putProp data => exact .putProp data
  | insertObj link => exact .insertObj link
  | removeObj link => exact .removeObj link
  | setAttr bit => exact .setAttr bit
  | clearAttr bit => exact .clearAttr bit
  | text buffer => exact .text buffer
  | parse buffer => exact .parse buffer
  | print innermost appends => exact .print innermost appends
  | openTable select low high => exact .openTable select low high
  | restart dynamic => exact .restart dynamic

/-! ### Operations on the machine -/

/-- The conduct of an action that changes nothing. -/
def reading : Conduct Machine where
  keeps m m' := m' = m
  mayFail _ _ := True
  position _ := 0
  refl _ := rfl
  trans h h' := h'.trans h
  mayFail_of_keeps _ _ := trivial

/-- Making up the status line writes nothing. -/
theorem reading_status : reading.Obeys status := by
  have hread : ∀ {v : UInt8}, 16 ≤ v.toNat → reading.Obeys (readVariable v) := by
    intro v hv m
    rw [readVariable_global hv]
    exact ⟨rfl, fun _ _ => trivial⟩
  refine (hread (by decide)).bind fun location => (Moves.view _).obeys.bind fun story => ?_
  exact (hread (by decide)).bind fun first => (hread (by decide)).bind fun second => .pure _

/-- Work that spares memory but for variables changes the global ones only. -/
theorem inGlobals_of_sparing {y : Action Machine α} (hy : sparing.Obeys y) {m : Machine}
    (h : m.memory.DiffersAt (y m).2.memory x) : m.InGlobals x := by
  refine Classical.byContradiction fun hx => h ?_
  exact (hy m).1.bytes x hx

/-- What an operation on objects changes, it changes in their memory. -/
theorem differsAt_onObjects {f : ObjectTable → Action Memory Unit} {m : Machine}
    (h : m.memory.DiffersAt (onObjects f m).2.memory x) :
    m.memory.DiffersAt (f m.story.objects m.memory).2 x := h

/-- What an instruction with two operands writes, apart from global variables. -/
theorem differsAt_executePair {op : TwoOp} {a b : UInt16} {m : Machine} {m' : Memory}
    (h : m.memory.DiffersAt (executePair op a b m).2.memory x) :
    m.InGlobals x ∨ m.MayWrite m' x (.two op) [a, b] := by
  cases op
  case setAttr =>
      have hattribute := m.story.objects.confined_setAttribute a b true m.memory
      exact .inr (.setAttr (hattribute.1 x (differsAt_onObjects h)))
  case clearAttr =>
      have hattribute := m.story.objects.confined_setAttribute a b false m.memory
      exact .inr (.clearAttr (hattribute.1 x (differsAt_onObjects h)))
  case insertObj =>
      have hlink := m.story.objects.relinks_confined.insert a b m.memory
      exact .inr (.insertObj (hlink.1 x (differsAt_onObjects h)))
  -- What is left writes variables only.
  all_goals refine .inl (inGlobals_of_sparing ?_ h)
  case je | jl | jg | test => exact sparing_branch _
  case decChk | incChk => exact (sparing_updateVariable _ _).bind fun _ => sparing_branch _
  case jin | testAttr => exact (sparing_ask _).bind fun _ => sparing_branch _
  case or | and | add | sub | mul => exact sparing_storeResult _
  case store => exact sparing_writeIndirect _ _
  case loadw | loadb => exact (sparing_ask _).bind fun _ => sparing_storeResult _
  case getProp | getPropAddr | getNextProp => exact sparing_storeObjects _
  case div | mod =>
      unfold executePair
      dsimp only
      split
      · exact .fail fun _ => trivial
      · exact sparing_storeResult _

theorem differsAt_executeTwo {op : TwoOp} {operands : List UInt16} {m : Machine} {m' : Memory}
    (h : m.memory.DiffersAt (executeTwo op operands m).2.memory x) :
    m.InGlobals x ∨ m.MayWrite m' x (.two op) operands := by
  obtain ⟨condition, htwo⟩ | ⟨a, b, rfl, htwo⟩ | ⟨e, htwo⟩ := executeTwo_cases op operands
  · rw [htwo] at h
    exact .inl (inGlobals_of_sparing (sparing_branch condition) h)
  · rw [htwo] at h
    exact differsAt_executePair h
  · rw [htwo] at h
    exact absurd h Memory.not_differsAt_self

/-- An action that leaves memory alone. -/
def KeepsMemory (y : Action Machine α) : Prop := ∀ m, (y m).2.memory = m.memory

/-- Of the choices of streams, only opening a table writes to memory. -/
theorem selectStream_cases (operands : List UInt16) :
    KeepsMemory (selectStream operands) ∨
    ∃ stream table rest, operands = stream :: table :: rest ∧ signed stream = 3 ∧
      selectStream operands = openTable table.toNat := by
  unfold selectStream
  split
  · exact .inl fun _ => rfl
  · next stream rest =>
      split
      · exact .inl fun _ => rfl
      · exact .inl fun _ => rfl
      · next hstream =>
          split
          · exact .inl fun _ => rfl
          · next table rest => exact .inr ⟨stream, table, rest, rfl, hstream, rfl⟩
      · exact .inl fun _ => rfl
      · exact .inl fun _ => rfl

/-- Opening a table writes the count of its text. -/
theorem memory_openTable (table : Nat) (m : Machine) :
    (openTable table m).2.memory = (Memory.writeWord table 0 m.memory).2 := by
  rw [openTable, Action.bind_apply, onMemory_apply]
  cases Memory.writeWord table 0 m.memory with
  | mk r m₁ =>
      cases r with
      | ok u => rfl
      | error e => rfl

/-- Selecting a stream writes to a table that it opens. -/
theorem differsAt_selectStream {operands : List UInt16} {m : Machine} {m' : Memory}
    (h : m.memory.DiffersAt (selectStream operands m).2.memory x) :
    m.MayWrite m' x (.many .outputStream) operands := by
  obtain hkept | ⟨stream, table, rest, rfl, hstream, hselect⟩ := selectStream_cases operands
  · rw [hkept m] at h
    exact absurd h Memory.not_differsAt_self
  · rw [hselect, memory_openTable] at h
    obtain ⟨hlow, hhigh⟩ := Memory.differsAt_writeWord h
    exact .openTable hstream hlow hhigh

/-- Restarting writes dynamic memory. -/
theorem differsAt_restart {operands : List UInt16} {m : Machine} {m' : Memory}
    (h : m.memory.DiffersAt (restart m).2.memory x) :
    m.MayWrite m' x (.zero .restart) operands := by
  rw [restart_eq] at h
  split at h
  · exact absurd h Memory.not_differsAt_self
  · refine .restart ?_
    -- A failed restoration leaves what it has written, like a successful one.
    have hrestored : m.memory.DiffersAt (Memory.restorePrefix
        (m.story.image.bytes.extract 0 (dynamicSize m.story)) m.memory).2 x := by
      cases hm : Memory.restorePrefix
          (m.story.image.bytes.extract 0 (dynamicSize m.story)) m.memory with
      | mk r m₁ =>
          rw [hm] at h
          cases r with
          | ok u => exact h
          | error e => exact h
    have hlt := Memory.differsAt_restorePrefix hrestored
    rw [Array.size_extract] at hlt
    omega

end Machine

/-! ## Sessions -/

namespace Session

open Machine

variable {δ α β : Type} {s : Session δ} {x : Nat}

/-- Memory is different at an address in the second session. -/
def DiffersAt (s t : Session δ) (x : Nat) : Prop := s.machine.memory.DiffersAt t.machine.memory x

/-- What a sequence changes is changed by its first part, or by its second part after the first
    has succeeded. -/
theorem differsAt_bind {y : Action (Session δ) α} {f : α → Action (Session δ) β}
    (h : s.DiffersAt ((y >>= f) s).2 x) :
    s.DiffersAt (y s).2 x ∨ ∃ a t, y s = (.ok a, t) ∧ t.DiffersAt (f a t).2 x := by
  rw [Action.bind_apply] at h
  cases hy : y s with
  | mk r t =>
      rw [hy] at h
      cases r with
      | error e => exact .inl h
      | ok a => exact (Memory.DiffersAt.split h t.machine.memory).imp_right fun h => ⟨a, t, rfl, h⟩

/-- An action changes at most the bytes that an operation on given operands may write. -/
def WritesAs (op : Operation) (operands : List UInt16) (y : Action (Session δ) Unit) : Prop :=
  ∀ (s : Session δ) (x : Nat), s.DiffersAt (y s).2 x →
    s.machine.InGlobals x ∨ s.machine.MayWrite (y s).2.machine.memory x op operands

variable {op : Operation} {operands : List UInt16}

/-- Work that spares memory but for variables writes as any instruction may. -/
theorem WritesAs.of_sparing {y : Action Machine Unit} (hy : sparing.Obeys y) :
    WritesAs op operands (onMachine y : Action (Session δ) Unit) :=
  fun _ _ h => .inl (inGlobals_of_sparing hy h)

theorem WritesAs.pure : WritesAs op operands (pure () : Action (Session δ) Unit) :=
  fun _ _ h => absurd h Memory.not_differsAt_self

theorem WritesAs.fail (e : Fault) :
    WritesAs op operands (.fail e : Action (Session δ) Unit) :=
  fun _ _ h => absurd h Memory.not_differsAt_self

/-- An action on the machine writes what it writes there. -/
theorem WritesAs.onMachine {y : Action Machine Unit}
    (hy : ∀ (m : Machine) (x : Nat), m.memory.DiffersAt (y m).2.memory x →
      m.InGlobals x ∨ m.MayWrite (y m).2.memory x op operands) :
    WritesAs op operands (onMachine y : Action (Session δ) Unit) :=
  fun s x h => hy s.machine x h

variable [Device δ]

/-! ### Text -/

/-- A text goes to the innermost table, and without one the machine has no part in it. -/
theorem output_cases (text : String) (s : Session δ) :
    (∃ table, s.machine.streams.tables.head? = some table ∧
      output text s = onMachine (onMemory (appendText table text)) s) ∨
    s.machine.streams.tables.head? = none ∧ (output text s).2.machine = s.machine := by
  cases hstreams : s.machine.streams with
  | mk screen tables =>
      cases tables with
      | cons table tables => exact .inl ⟨table, rfl, output_of_table (by rw [hstreams]) text⟩
      | nil =>
          refine .inr ⟨rfl, ?_⟩
          cases screen with
          | true =>
              rw [output_of_screen hstreams]
              rfl
          | false => rw [output_of_none hstreams]

/-- The parts of a text that was printed: the innermost table has taken it if one is open. -/
theorem output_eq_ok {text : String} {t : Session δ} (h : output text s = (.ok (), t)) :
    t.machine.streams = s.machine.streams ∧
      ∀ table, s.machine.streams.tables.head? = some table →
        appendText table text s.machine.memory = (.ok (), t.machine.memory) := by
  obtain ⟨table, htable, houtput⟩ | ⟨hnone, hmachine⟩ := output_cases text s
  · rw [houtput] at h
    obtain ⟨happend, -⟩ := onMachine_eq_iff.mp h
    rw [onMemory_apply] at happend
    obtain ⟨hresult, hmachine⟩ := Prod.mk.inj happend
    rw [← hmachine, htable]
    refine ⟨rfl, ?_⟩
    intro table' htable'
    cases htable'
    exact Prod.ext hresult rfl
  · rw [h] at hmachine
    rw [hmachine, hnone]
    exact ⟨rfl, fun table htable => nomatch htable⟩

/-- Printing writes to the table on top, if there is one. -/
theorem differsAt_output {text : String} (h : s.DiffersAt (output text s).2 x)
    (rest : List String) : ∃ table, s.machine.streams.tables.head? = some table ∧
      AppendsAt table x s.machine.memory (text :: rest) := by
  obtain ⟨table, htable, houtput⟩ | ⟨-, hmachine⟩ := output_cases text s
  · rw [houtput] at h
    exact ⟨table, htable, differsAt_appendText h rest⟩
  · rw [DiffersAt, hmachine] at h
    exact absurd h Memory.not_differsAt_self

/-- Printing the string at the pc moves the pc and prints the string, if there is one. -/
theorem outputInline_cases (s : Session δ) :
    (∃ text stop, s.machine.textAt? s.machine.pc = some text ∧
      outputInline s = output text ⟨{ s.machine with pc := stop }, s.device⟩) ∨
    ∃ e, outputInline s = (.error e, s) := by
  cases hdecode : Text.decode s.machine.memory s.machine.story.header.abbreviations.toNat
      s.machine.pc with
  | error e =>
      refine .inr ⟨e, Action.bind_of_error (onMachine_eq_iff.mpr ⟨?_, rfl⟩)⟩
      simp only [inlineText, hdecode]
  | ok r =>
      obtain ⟨text, stop⟩ := r
      refine .inl ⟨text, stop, ?_, Action.bind_of_ok (onMachine_eq_iff.mpr ⟨?_, rfl⟩)⟩
      · simp only [textAt?, hdecode]
      · simp only [inlineText, hdecode]

theorem differsAt_outputInline (h : s.DiffersAt (outputInline s).2 x) (rest : List String) :
    ∃ table text, s.machine.streams.tables.head? = some table ∧
      s.machine.textAt? s.machine.pc = some text ∧
      AppendsAt table x s.machine.memory (text :: rest) := by
  obtain ⟨text, stop, htext, hinline⟩ | ⟨e, hinline⟩ := outputInline_cases s
  · rw [hinline] at h
    obtain ⟨table, htable, happends⟩ := differsAt_output h rest
    exact ⟨table, text, htable, htext, happends⟩
  · rw [hinline] at h
    exact absurd h Memory.not_differsAt_self

/-! ### Operations -/

/-- An instruction that prints a given text. -/
theorem writesAs_output {text : String}
    (htexts : ∀ m : Machine, m.texts op operands = [text]) :
    WritesAs op operands (output text : Action (Session δ) Unit) := by
  intro s x h
  obtain ⟨table, htable, happends⟩ := differsAt_output h []
  rw [← htexts s.machine] at happends
  exact .inr (.print htable happends)

/-- An instruction that prints the text at an address. -/
theorem writesAs_outputAt {a : Nat}
    (htexts : ∀ m : Machine, m.texts op operands = (m.textAt? a).toList) :
    WritesAs op operands (outputAt a : Action (Session δ) Unit) := by
  intro s x h
  obtain hask | ⟨⟨text, stop⟩, t, ht, h⟩ := differsAt_bind h
  · exact absurd hask Memory.not_differsAt_self
  · obtain ⟨hm, hdevice⟩ := onMachine_eq_iff.mp ht
    obtain ⟨hdecode, hmachine⟩ := Prod.mk.inj hm
    have htext : s.machine.textAt? a = some text := by
      simp only [textAt?, hdecode]
    obtain ⟨table, htable, happends⟩ := differsAt_output h []
    rw [← hmachine] at htable happends
    refine .inr (.print htable ?_)
    rw [htexts, htext]
    exact happends

/-- An instruction that prints the name of an object. -/
theorem writesAs_outputName {o : UInt16}
    (htexts : ∀ m : Machine, m.texts op operands = (m.story.name? o).toList) :
    WritesAs op operands (outputName o : Action (Session δ) Unit) := by
  intro s x h
  obtain hview | ⟨name, t, ht, h⟩ := differsAt_bind h
  · exact absurd hview Memory.not_differsAt_self
  · obtain ⟨hm, -⟩ := onMachine_eq_iff.mp ht
    obtain ⟨hname, hmachine⟩ := Prod.mk.inj hm
    cases name with
    | none => exact absurd h Memory.not_differsAt_self
    | some name =>
        have hname : s.machine.story.name? o = some name := Except.ok.inj hname
        obtain ⟨table, htable, happends⟩ := differsAt_output h []
        rw [← hmachine] at htable happends
        refine .inr (.print htable ?_)
        rw [htexts, hname]
        exact happends

/-- Two texts are printed, the second one behind the first. -/
theorem writesAs_printRet :
    WritesAs (.zero .printRet) operands (executeZero .printRet : Action (Session δ) Unit) := by
  intro s x h
  obtain hfirst | ⟨_, t, ht, h⟩ := differsAt_bind h
  · obtain ⟨table, text, htable, htext, happends⟩ := differsAt_outputInline hfirst ["\n"]
    refine .inr (.print htable ?_)
    simp only [texts, htext]
    exact happends
  -- The line feed goes to the same table, behind a text that was appended as a whole.
  obtain hsecond | ⟨_, u, hu, h⟩ := differsAt_bind h
  · obtain ⟨table, htable, happends⟩ := differsAt_output hsecond []
    obtain ⟨text, stop, htext, hinline⟩ | ⟨e, hinline⟩ := outputInline_cases s
    · rw [hinline] at ht
      obtain ⟨hstreams, hfirst⟩ := output_eq_ok ht
      rw [hstreams] at htable
      refine .inr (.print htable ?_)
      simp only [texts, htext]
      exact .later (hfirst table htable) happends
    · cases hinline.symm.trans ht
  · -- what is left is the store of the caller
    have hstory : u.machine.story = s.machine.story :=
      (((obeys_outputInline (hosts_conduct δ)).keeps ht).trans
        ((moves_output (hosts_conduct δ) "\n").obeys.keeps hu)).story
    have hglobals := inGlobals_of_sparing (sparing_returnWith 1) h
    unfold InGlobals at hglobals ⊢
    rw [hstory] at hglobals
    exact .inl hglobals

/-- The status line changes the device only. -/
theorem machine_showStatus (s : Session δ) : (showStatus s).2.machine = s.machine := by
  have hstatus : (status s.machine).2 = s.machine := (reading_status s.machine).1
  rw [showStatus, Action.bind_apply, onMachine_apply]
  cases hm : status s.machine with
  | mk r m =>
      rw [hm] at hstatus
      cases r with
      | error e => exact hstatus
      | ok r => exact hstatus

/-- Reading a line writes to the two buffers. -/
theorem writesAs_readLine (text parse : UInt16) (rest : List UInt16) :
    WritesAs (.many .sread) (text :: parse :: rest)
      (readLine text parse : Action (Session δ) Unit) := by
  intro s x h
  have hshown := machine_showStatus s
  obtain hstatus | ⟨_, t, ht, hrest⟩ := differsAt_bind h
  · rw [DiffersAt, hshown] at hstatus
    exact absurd hstatus Memory.not_differsAt_self
  obtain hdevice | ⟨line, u, hu, hstore⟩ := differsAt_bind hrest
  · exact absurd hdevice Memory.not_differsAt_self
  -- neither the status line nor the device has changed the machine
  have hmachine : u.machine = s.machine := by
    rw [ht] at hshown
    exact (congrArg (fun r => r.2.machine) hu).symm.trans hshown
  have hread : (readLine text parse s).2.machine.memory =
      (storeLine u.machine.story.dictionary line text.toNat parse.toNat u.machine.memory).2 := by
    rw [readLine, Action.bind_of_ok ht, Action.bind_of_ok hu]
    rfl
  rw [hread, ← hmachine]
  exact .inr ((differsAt_storeLine hstore).elim .text .parse)

theorem writesAs_executeZero (op : ZeroOp) (operands : List UInt16) :
    WritesAs (.zero op) operands (executeZero op : Action (Session δ) Unit) := by
  cases op
  case print =>
      intro s x h
      obtain ⟨table, text, htable, htext, happends⟩ := differsAt_outputInline h []
      refine .inr (.print htable ?_)
      simp only [texts, htext]
      exact happends
  case printRet => exact writesAs_printRet
  case newLine => exact writesAs_output fun _ => rfl
  case nop => exact .pure
  case restart => exact .onMachine fun _ _ h => .inr (differsAt_restart h)
  case showStatus =>
      intro s x h
      have h : s.DiffersAt (showStatus s).2 x := h
      rw [DiffersAt, machine_showStatus] at h
      exact absurd h Memory.not_differsAt_self
  -- What is left writes variables only.
  all_goals refine .of_sparing ?_
  case rtrue | rfalse => exact sparing_returnWith _
  case save | restore => exact sparing_branch false
  case retPopped => exact sparing_pop.bind fun value => sparing_returnWith value
  case pop => exact sparing_pop.bind fun _ => .pure ()
  case quit => exact sparing_of_eq fun _ => ⟨rfl, rfl⟩
  case verify => exact (Moves.view _).obeys.bind fun _ => sparing_branch _

theorem writesAs_executeOne (op : OneOp) (operand : UInt16) (rest : List UInt16) :
    WritesAs (.one op) (operand :: rest) (executeOne op operand : Action (Session δ) Unit) := by
  cases op
  case printAddr | printPaddr => exact writesAs_outputAt fun _ => rfl
  case printObj => exact writesAs_outputName fun _ => rfl
  case removeObj =>
      refine .onMachine fun m x h => .inr (.removeObj ?_)
      exact (m.story.objects.relinks_confined.remove operand m.memory).1 x (differsAt_onObjects h)
  all_goals refine .of_sparing ?_
  case jz => exact sparing_branch _
  case getSibling | getChild => exact sparing_storeLink _ operand
  case getParent | getPropLen => exact sparing_storeObjects _
  case inc | dec => exact (sparing_updateVariable _ _).bind fun _ => .pure ()
  case ret => exact sparing_returnWith operand
  case jump => exact sparing_jump _
  case load => exact (sparing_readIndirect _).bind fun value => sparing_storeResult value
  case not => exact sparing_storeResult _

theorem writesAs_executeMany (op : VarOp) (operands : List UInt16) :
    WritesAs (.many op) operands (executeMany op operands : Action (Session δ) Unit) := by
  unfold executeMany
  split
  -- The cases are numbered in the order of the definition; the last line is for those with a
  -- wrong number of operands.
  case h_1 => exact .of_sparing (sparing_call _ _)
  case h_3 =>
      refine .onMachine fun m x h => .inr ?_
      obtain ⟨hlow, hhigh⟩ := Memory.differsAt_writeWord h
      exact .storew hlow hhigh
  case h_5 => exact .onMachine fun m x h => .inr (.storeb (Memory.differsAt_writeByte h))
  case h_7 o p value =>
      refine .onMachine fun m x h => .inr (.putProp ?_)
      exact m.story.objects.differsAt_putProperty (differsAt_onObjects h)
  case h_9 text parse rest => exact writesAs_readLine text parse rest
  case h_11 | h_13 => exact writesAs_output fun _ => rfl
  case h_15 => exact .of_sparing (sparing_storeRandom _)
  case h_17 => exact .of_sparing (sparing_changeTop _)
  case h_19 => exact .of_sparing (sparing_pull _)
  case h_23 => exact .onMachine fun _ _ h => .inr (differsAt_selectStream h)
  case h_21 | h_22 | h_24 | h_25 => exact .pure
  all_goals exact .fail _

/-- What executing an operation writes. -/
theorem writesAs_execute {i : Instruction}
    (hop : Operation.ofNumber? i.opClass i.number = some op) :
    WritesAs op operands (execute i operands : Action (Session δ) Unit) := by
  simp only [execute, hop]
  cases op with
  | zero op => exact writesAs_executeZero op operands
  | one op =>
      cases operands with
      | nil => exact .fail _
      | cons operand rest => exact writesAs_executeOne op operand rest
  | two op => exact .onMachine fun _ _ h => differsAt_executeTwo h
  | many op => exact writesAs_executeMany op operands

/-! ### Steps -/

/-- A step that changes memory executes an operation. -/
theorem exists_next?_of_differsAt (h : s.DiffersAt (step s).2 x) :
    ∃ op operands, s.machine.next? = some (op, operands) := by
  obtain ⟨e, -, hstep⟩ | ⟨i, m, e, f, hfetch, -, hstep⟩ |
    ⟨i, m, operands, f, hfetch, -, -, hstep⟩ | hnext := step_cases s
  · rw [hstep] at h
    exact absurd h Memory.not_differsAt_self
  · rw [hstep, (fetch_eq_ok hfetch).2] at h
    exact absurd h Memory.not_differsAt_self
  · rw [hstep, (fetch_eq_ok hfetch).2] at h
    exact absurd h Memory.not_differsAt_self
  · exact hnext

omit [Device δ] in
/-- Counting an instruction changes nothing in memory. -/
theorem memory_tally (y : Action (Session δ) Unit) (s : Session δ) :
    ((y >>= fun _ => tally) s).2.machine.memory = (y s).2.machine.memory := by
  rw [Action.bind_apply]
  cases y s with
  | mk r t =>
      cases r with
      | error e => rfl
      | ok u => rfl

/-- No instruction changes the size of memory. -/
theorem size_step (s : Session δ) :
    (step s).2.machine.memory.size = s.machine.memory.size := by
  obtain ⟨m, ⟨m₁, m₂, hwork, hturn, hstore⟩, hm⟩ := step_advance s
  have hsize : m.memory.size = s.machine.memory.size := by
    rw [hstore.size, ← hwork.size]
    cases hturn with
    | stay | jump _ | leave _ | enter _ _ _ _ _ => rfl
    | restart size => exact size
  obtain hm | hm := hm
  · rw [hm]
    exact hsize
  · rw [hm]
    exact hsize

/-- Whether a step succeeds or fails, memory keeps its size, and a byte that is different after
    it is one of a global variable or one that the operation of the step may write. -/
theorem step_footprint (s : Session δ) :
    (step s).2.machine.memory.size = s.machine.memory.size ∧
    ∀ x, s.machine.memory.DiffersAt (step s).2.machine.memory x →
      ∃ op operands, s.machine.next? = some (op, operands) ∧
        (s.machine.InGlobals x ∨
          (fetch s.machine).2.MayWrite (step s).2.machine.memory x op operands) := by
  refine ⟨size_step s, ?_⟩
  intro x h
  obtain ⟨op, operands, hnext⟩ := exists_next?_of_differsAt h
  refine ⟨op, operands, hnext, ?_⟩
  obtain ⟨i, f, hfetch, hop, hstep⟩ := step_eq_execute hnext
  rw [hstep, memory_tally] at h ⊢
  rw [hfetch]
  exact (writesAs_execute hop _ x h).imp_right MayWrite.of_calls

/-- A line is about to be read into a text buffer for three characters at 10, and into a parse
    buffer past the end of memory. -/
def cutShort : Session Scripted where
  machine :=
    { Machine.start { (default : Story) with header := { (default : Header) with globals := 30 } }
        {} 0 with
      memory := ⟨#[0xe4, 0x4f, 10, 0xff, 0xff, 0, 0, 0, 0, 0, 4, 0, 0, 0, 0, 0, 0, 0,
        0, 0, 0, 0, 0, 0, 0, 0, 0, 0, 0, 0, 0, 0, 0, 0, 0, 0]⟩ }
  device := { input := ["Go"] }

/-- The step fails after it has stored the line; the bytes that it has changed are those of the
    text buffer. -/
theorem cutShort_footprint :
    (step cutShort).1.toBool = false ∧
      cutShort.machine.memory.DiffersAt (step cutShort).2.machine.memory 12 ∧
      (fetch cutShort.machine).2.MayWrite (step cutShort).2.machine.memory 12
        (.many .sread) [10, 0xffff] := by
  have hdiffers : cutShort.machine.memory.DiffersAt (step cutShort).2.machine.memory 12 := by
    decide
  refine ⟨by decide, hdiffers, ?_⟩
  obtain ⟨op, operands, hnext, hglobals | hwrites⟩ := (step_footprint cutShort).2 12 hdiffers
  · exact absurd hglobals.1 (by decide)
  · have hread : cutShort.machine.next? = some (.many .sread, [10, 0xffff]) := by decide
    cases hread.symm.trans hnext
    exact hwrites

end Session

end ZMachine
