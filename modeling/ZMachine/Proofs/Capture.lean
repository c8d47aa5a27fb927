import ZMachine.Proofs.Activation
import ZMachine.Proofs.Bytes
import ZMachine.Proofs.Transfer

/-! # Text captured in tables

    A story can have its output put into tables in memory, and tables may be
    opened while others are open. Where the next character goes is computed
    from the count in memory each time, so a table is as good as the memory
    around it is left alone.

    A `Transcript` says where output belongs, without memory: each text to the
    innermost open table or, if there is none, to the screen. As long as the
    tables have room and do not overlap, memory and device show what the
    transcript says.

    * `Machine.appendText_eq`, `appendText_of_short`: one text and one table;
    * `Session.perform_record`: what one operation does;
    * `Session.output_captured`: sequences of any length and depth. -/

namespace ZMachine

/-! ## Transcripts -/

/-- The operations that decide where output goes, and output itself. -/
inductive OutputOp where
  | openTable (table : UInt16)
  | closeTable
  | setScreen (on : Bool)
  | print (text : String)
  deriving DecidableEq, Repr

/-- A table and the text that was printed while it was the innermost one. -/
structure Capture where
  table : Nat
  text : List Char
  deriving DecidableEq, Repr

namespace Capture

/-- The bytes of a table: the word that counts its characters, and the characters. -/
def Covers (c : Capture) (x : Nat) : Prop := c.table ≤ x ∧ x < c.table + 2 + c.text.length

instance (c : Capture) (x : Nat) : Decidable (c.Covers x) := inferInstanceAs (Decidable (_ ∧ _))

/-- One table ends before the other begins. -/
def Apart (c c' : Capture) : Prop :=
  c.table + 2 + c.text.length ≤ c'.table ∨ c'.table + 2 + c'.text.length ≤ c.table

instance (c c' : Capture) : Decidable (c.Apart c') := inferInstanceAs (Decidable (_ ∨ _))

theorem Apart.symm {c c' : Capture} (h : c.Apart c') : c'.Apart c := Or.symm h

/-- Tables that are apart have no byte in common. -/
theorem Apart.not_covers {c c' : Capture} (h : c.Apart c') {x : Nat} (hx : c'.Covers x) :
    ¬ c.Covers x := by
  rintro ⟨hlow, hhigh⟩
  obtain ⟨hlow', hhigh'⟩ := hx
  rcases h with h | h <;> omega

/-- A table lies in a memory of `size` bytes, and its characters can be counted in a word. -/
structure Fits (c : Capture) (size : Nat) : Prop where
  inside : c.table + 2 + c.text.length ≤ size
  countable : c.text.length ≤ 65535

instance (c : Capture) (size : Nat) : Decidable (c.Fits size) :=
  decidable_of_iff (c.table + 2 + c.text.length ≤ size ∧ c.text.length ≤ 65535)
    ⟨fun h => ⟨h.1, h.2⟩, fun h => ⟨h.inside, h.countable⟩⟩

/-- The table with more text at its end. -/
def append (c : Capture) (text : String) : Capture := ⟨c.table, c.text ++ text.toList⟩

/-- The text of a table grows by the text that is appended. -/
theorem length_append (c : Capture) (text : String) :
    (c.append text).text.length = c.text.length + text.length := by
  rw [append, List.length_append, String.length_toList]

/-- A table covers no less when text is appended. -/
theorem covers_append {c : Capture} {x : Nat} (text : String) (h : c.Covers x) :
    (c.append text).Covers x := by
  obtain ⟨hlow, hhigh⟩ := h
  refine ⟨hlow, Nat.lt_of_lt_of_le hhigh ?_⟩
  rw [length_append]
  exact Nat.add_le_add_left (Nat.le_add_right _ _) _

/-- A table that has room for more text had room before. -/
theorem Fits.of_append {c : Capture} {text : String} {size : Nat}
    (h : (c.append text).Fits size) : c.Fits size := by
  obtain ⟨hinside, hcountable⟩ := h
  rw [length_append] at hinside hcountable
  have htable : (c.append text).table = c.table := rfl
  rw [htable] at hinside
  exact ⟨by omega, by omega⟩

/-- A table that stays apart when text is appended was apart before. -/
theorem Apart.of_append {c c' : Capture} {text : String} (h : (c.append text).Apart c') :
    c.Apart c' := by
  have htable : (c.append text).table = c.table := rfl
  rw [Apart, length_append, htable] at h
  exact h.imp_left fun h => by omega

end Capture

/-- Where output has gone: to the tables that are open, innermost first, to those that have
    been closed, and to the screen. -/
structure Transcript where
  screen : Bool
  opened : List Capture := []
  closed : List Capture := []
  shown : List String := []
  deriving DecidableEq, Repr

namespace Transcript

/-- The transcript after one more operation. -/
def record (l : Transcript) : OutputOp → Transcript
  | .openTable table => { l with opened := ⟨table.toNat, []⟩ :: l.opened }
  | .closeTable =>
      match l.opened with
      | [] => l
      | c :: rest => { l with opened := rest, closed := c :: l.closed }
  | .setScreen on => { l with screen := on }
  | .print text =>
      match l.opened with
      | c :: rest => { l with opened := c.append text :: rest }
      | [] => if l.screen then { l with shown := l.shown ++ [text] } else l

/-- The transcript after more operations. -/
def after (l : Transcript) (ops : List OutputOp) : Transcript := ops.foldl record l

/-- All tables, open or closed. -/
def captures (l : Transcript) : List Capture := l.opened ++ l.closed

/-- The tables lie in a memory of `size` bytes, and no two of them overlap. -/
structure Sound (l : Transcript) (size : Nat) : Prop where
  fits : ∀ c ∈ l.captures, c.Fits size
  apart : l.captures.Pairwise Capture.Apart

instance (l : Transcript) (size : Nat) : Decidable (l.Sound size) :=
  decidable_of_iff ((∀ c ∈ l.captures, c.Fits size) ∧ l.captures.Pairwise Capture.Apart)
    ⟨fun h => ⟨h.1, h.2⟩, fun h => ⟨h.fits, h.apart⟩⟩

variable {l : Transcript} {size : Nat}

theorem after_append (l : Transcript) (ops ops' : List OutputOp) :
    l.after (ops ++ ops') = (l.after ops).after ops' :=
  List.foldl_append

/-- The tables at the top of a transcript and the others. -/
theorem sound_cons {c : Capture} {rest closed : List Capture} {screen : Bool}
    {shown : List String} :
    Sound ⟨screen, c :: rest, closed, shown⟩ size ↔
      c.Fits size ∧ (∀ c' ∈ rest ++ closed, c.Apart c') ∧
        Sound ⟨screen, rest, closed, shown⟩ size := by
  constructor
  · rintro ⟨hfits, hapart⟩
    obtain ⟨hc, hrest⟩ := List.pairwise_cons.mp hapart
    refine ⟨hfits c List.mem_cons_self, hc, fun c' hc' => ?_, hrest⟩
    exact hfits c' (List.mem_cons_of_mem c hc')
  · rintro ⟨hc, hapart, hfits, hrest⟩
    refine ⟨?_, List.pairwise_cons.mpr ⟨hapart, hrest⟩⟩
    intro c' hc'
    rcases List.mem_cons.mp hc' with rfl | hc'
    · exact hc
    · exact hfits c' hc'

/-- The same tables, with the innermost one closed. -/
theorem sound_close_iff {c : Capture} {rest closed : List Capture} {screen : Bool}
    {shown : List String} :
    Sound ⟨screen, rest, c :: closed, shown⟩ size ↔
      Sound ⟨screen, c :: rest, closed, shown⟩ size := by
  have hperm : (rest ++ c :: closed).Perm (c :: rest ++ closed) := List.perm_middle
  constructor
  · rintro ⟨hfits, hapart⟩
    exact ⟨fun c' hc' => hfits c' (hperm.mem_iff.mpr hc'),
      (hperm.pairwise_iff Capture.Apart.symm).mp hapart⟩
  · rintro ⟨hfits, hapart⟩
    exact ⟨fun c' hc' => hfits c' (hperm.mem_iff.mp hc'),
      (hperm.pairwise_iff Capture.Apart.symm).mpr hapart⟩

/-- Tables never become smaller, so what is sound now was sound before. -/
theorem sound_of_record {op : OutputOp} (h : (l.record op).Sound size) : l.Sound size := by
  obtain ⟨screen, opened, closed, shown⟩ := l
  cases op with
  | openTable table => exact (sound_cons.mp h).2.2
  | setScreen on => exact ⟨h.fits, h.apart⟩
  | closeTable =>
      cases opened with
      | nil => exact h
      | cons c rest => exact sound_close_iff.mp h
  | print text =>
      cases opened with
      | nil =>
          cases screen with
          | true => exact ⟨h.fits, h.apart⟩
          | false => exact h
      | cons c rest =>
          -- With more text a table covers more, so being apart with it is more than without.
          obtain ⟨hfits, hapart, hrest⟩ := sound_cons.mp h
          exact sound_cons.mpr ⟨hfits.of_append, fun c' hc' => (hapart c' hc').of_append, hrest⟩

/-- A transcript that is sound in the end was sound before. -/
theorem sound_of_after {ops : List OutputOp} (h : (l.after ops).Sound size) : l.Sound size := by
  induction ops generalizing l with
  | nil => exact h
  | cons op ops ih => exact sound_of_record (ih h)

/-- The transcripts differ at most in what was shown on the screen. -/
def SameTables (l l' : Transcript) : Prop := l' = { l with shown := l'.shown }

theorem SameTables.record {l l' : Transcript} (h : l.SameTables l') (op : OutputOp) :
    (l.record op).SameTables (l'.record op) := by
  obtain ⟨screen, opened, closed, shown⟩ := l
  obtain ⟨screen', opened', closed', shown'⟩ := l'
  cases h
  cases op with
  | openTable table => rfl
  | setScreen on => rfl
  | closeTable => cases opened <;> rfl
  | print text =>
      cases opened with
      | cons c rest => rfl
      | nil => cases screen <;> rfl

theorem SameTables.after {l l' : Transcript} (h : l.SameTables l') (ops : List OutputOp) :
    (l.after ops).SameTables (l'.after ops) := by
  induction ops generalizing l l' with
  | nil => exact h
  | cons op ops ih => exact ih (h.record op)

/-- Two texts and the text that they make up belong to the same table. -/
theorem sameTables_print (l : Transcript) (a b : String) :
    ((l.record (.print a)).record (.print b)).SameTables (l.record (.print (a ++ b))) := by
  obtain ⟨screen, opened, closed, shown⟩ := l
  cases opened with
  | cons c rest =>
      have htext : (c.append a).append b = c.append (a ++ b) := by
        simp only [Capture.append, String.toList_append, List.append_assoc]
      show _ = Transcript.mk screen ((c.append a).append b :: rest) closed shown
      rw [htext]
      rfl
  | nil => cases screen <;> rfl

end Transcript

/-! ## One text and one table -/

namespace Machine

/-- A line feed is 13 in a table, other characters of ASCII are themselves, and the rest are
    question marks. -/
theorem tableByte_cases (c : Char) :
    (c = '\n' → tableByte c = 13) ∧
    (c ≠ '\n' → c.toNat < 128 → (tableByte c).toNat = c.toNat) ∧
    (128 ≤ c.toNat → tableByte c = 63) := by
  refine ⟨?_, ?_, ?_⟩
  · intro h
    exact if_pos h
  · intro hfeed hascii
    rw [tableByte, if_neg hfeed, if_pos hascii, UInt8.toNat_ofNat']
    exact Nat.mod_eq_of_lt (by omega)
  · intro h
    have hfeed : c ≠ '\n' := by
      rintro rfl
      exact absurd h (by decide)
    rw [tableByte, if_neg hfeed, if_neg (Nat.not_lt.mpr h)]

end Machine

/-- The table in memory: the word in front is the number of characters, and the characters come
    after it. -/
structure Memory.Stores (m : Memory) (c : Capture) : Prop where
  count : ∃ n, m.wordAt c.table = .ok n ∧ n.toNat = c.text.length
  text : m.Holds (c.table + 2) (c.text.map Machine.tableByte)

namespace Memory

variable {m m' : Memory} {c : Capture}

/-- A table is there in every memory that agrees with the first one on its bytes. -/
theorem Stores.of_agree (h : m.Stores c)
    (hm : ∀ x, c.Covers x → m'.bytes[x]? = m.bytes[x]?) : m'.Stores c := by
  obtain ⟨⟨n, hn, hlength⟩, htext⟩ := h
  refine ⟨⟨n, ?_, hlength⟩, ?_⟩
  · refine wordAt_eq_ok.mpr ((wordAt_eq_ok.mp hn).of_agree fun x hlow hhigh => hm x ⟨hlow, ?_⟩)
    exact Nat.lt_of_lt_of_le hhigh (Nat.le_add_right _ _)
  · refine htext.of_agree fun x hlow hhigh => hm x ⟨Nat.le_trans (Nat.le_add_right _ _) hlow, ?_⟩
    rw [List.length_map] at hhigh
    exact hhigh

/-- The bytes of a table are what the table says. -/
theorem Stores.getElem? {m₁ m₂ : Memory} (h₁ : m₁.Stores c) (h₂ : m₂.Stores c) {x : Nat}
    (hx : c.Covers x) : m₁.bytes[x]? = m₂.bytes[x]? := by
  obtain ⟨⟨n, hn, hcount⟩, htext₁⟩ := h₁
  obtain ⟨⟨n', hn', hcount'⟩, htext₂⟩ := h₂
  obtain rfl : n = n' := UInt16.toNat.inj (hcount.trans hcount'.symm)
  obtain ⟨hlow, hhigh⟩ := hx
  by_cases hword : x < c.table + 2
  · exact (wordAt_eq_ok.mp hn).getElem? (wordAt_eq_ok.mp hn') hlow hword
  · refine htext₁.getElem? htext₂ (Nat.not_lt.mp hword) ?_
    rw [List.length_map]
    exact hhigh

/-- The second memory is the first one with the tables of a transcript put into it. -/
structure Records (m : Memory) (l : Transcript) (m' : Memory) : Prop where
  size : m'.size = m.size
  stores : ∀ c ∈ l.captures, m'.Stores c
  unchanged : ∀ x, (∀ c ∈ l.captures, ¬ c.Covers x) → m'.bytes[x]? = m.bytes[x]?

/-- Memory depends on the tables alone. -/
theorem Records.unique {l : Transcript} {m₁ m₂ : Memory} (h₁ : m.Records l m₁)
    (h₂ : m.Records l m₂) : m₁ = m₂ := by
  refine eq_of_getElem? fun x => ?_
  by_cases hx : ∃ c ∈ l.captures, c.Covers x
  · obtain ⟨c, hc, hx⟩ := hx
    exact (h₁.stores c hc).getElem? (h₂.stores c hc) hx
  · have hout : ∀ c ∈ l.captures, ¬ c.Covers x := fun c hc hcx => hx ⟨c, hc, hcx⟩
    rw [h₁.unchanged x hout, h₂.unchanged x hout]

end Memory

namespace Machine

variable {m : Memory} {c : Capture} {text : String}

/-- Text is appended to a table that has room for it, and nothing else changes. -/
theorem appendText_eq (hm : m.Stores c) (hfits : (c.append text).Fits m.size) :
    ∃ m', appendText c.table text m = (.ok (), m') ∧ m'.size = m.size ∧
      m'.Stores (c.append text) ∧
      ∀ x, ¬ (c.append text).Covers x → m'.bytes[x]? = m.bytes[x]? := by
  obtain ⟨⟨n, hn, hcount⟩, htext⟩ := hm
  obtain ⟨hinside, hcountable⟩ := hfits
  have hlength := c.length_append text
  have htable : (c.append text).table = c.table := rfl
  rw [htable, hlength] at hinside
  rw [hlength] at hcountable
  have hbytes : (text.toList.map tableByte).length = text.length := by
    rw [List.length_map, String.length_toList]
  -- The text that is there has as many bytes as the count says, and the new text fits behind.
  have hroom : c.table + 2 + n.toNat + (text.toList.map tableByte).length ≤ m.size := by
    rw [hbytes, hcount]
    omega
  obtain ⟨m₁, hwrite, h₁⟩ := Memory.writeBytes_eq hroom
  obtain ⟨m₂, hword, h₂⟩ := Memory.writeWord_eq (m := m₁) (a := c.table)
    (by rw [h₁.size]; omega) (UInt16.ofNat (n.toNat + text.length))
  -- The count is written last, and touches none of the text.
  have hframe : ∀ x, x < c.table ∨ c.table + 2 ≤ x → m₂.bytes[x]? = m₁.bytes[x]? := h₂.unchanged
  refine ⟨m₂, ?_, h₂.size.trans h₁.size, ⟨⟨_, Memory.wordAt_eq_ok.mpr h₂.holds, ?_⟩, ?_⟩, ?_⟩
  · have hask : Action.ask (·.wordAt c.table) m = (.ok n, m) := by
      rw [Action.ask_apply, hn]
    rw [appendText_counts, Action.bind_of_ok hask, Action.bind_of_ok hwrite]
    exact hword
  · rw [hlength, UInt16.toNat_ofNat', hcount]
    exact Nat.mod_eq_of_lt (by omega)
  · -- the old characters end where the new ones begin
    have hplace : c.table + 2 + (c.text.map tableByte).length = c.table + 2 + n.toNat := by
      rw [List.length_map, hcount]
    have hboth : m₁.Holds (c.table + 2) (c.text.map tableByte ++ text.toList.map tableByte) := by
      refine Memory.holds_append.mpr ⟨htext.of_agree fun x _ hx => h₁.unchanged x (.inl ?_), ?_⟩
      · rw [← hplace]
        exact hx
      · rw [hplace]
        exact h₁.holds
    rw [Capture.append, List.map_append]
    exact hboth.of_agree fun x hx _ => hframe x (.inr hx)
  · intro x hx
    rw [Capture.Covers, htable, hlength] at hx
    have hwrite' : m₁.bytes[x]? = m.bytes[x]? := by
      refine h₁.unchanged x ?_
      rw [hbytes]
      omega
    exact (hframe x (by omega)).trans hwrite'

/-- Text of which a character does not lie in memory is refused, and not counted. -/
theorem appendText_of_short {table : Nat}
    (hshort : ∀ n, m.wordAt table = .ok n →
      ∃ i < text.length, m.size ≤ table + 2 + n.toNat + i) :
    ∃ a width m', appendText table text m = (.error (.outOfBounds a width m.size), m') ∧
      m'.wordAt table = m.wordAt table := by
  by_cases htable : table + 1 < m.bytes.size
  · have hn : m.wordAt table = .ok (word m.bytes[table] m.bytes[table + 1]) := dif_pos htable
    generalize word m.bytes[table] m.bytes[table + 1] = n at hn
    obtain ⟨i, hi, hsize⟩ := hshort n hn
    have hbytes : (text.toList.map tableByte).length = text.length := by
      rw [List.length_map, String.length_toList]
    have hne : text.toList.map tableByte ≠ [] := by
      intro hnil
      rw [hnil, List.length_nil] at hbytes
      omega
    -- The text is written before the count, so the count stays when the text is cut off.
    obtain ⟨m', hwrite, -, hunchanged⟩ := Memory.writeBytes_of_short (m := m)
      (a := table + 2 + n.toNat) hne (by rw [hbytes]; omega)
    refine ⟨max (table + 2 + n.toNat) m.size, 1, m', ?_, ?_⟩
    · have hask : Action.ask (·.wordAt table) m = (.ok n, m) := by
        rw [Action.ask_apply, hn]
      rw [appendText_counts, Action.bind_of_ok hask]
      exact Action.bind_of_error hwrite
    · rw [hn]
      refine Memory.wordAt_eq_ok.mpr ((Memory.wordAt_eq_ok.mp hn).of_agree fun x _ hx => ?_)
      exact hunchanged x (Nat.lt_of_lt_of_le hx (Nat.le_add_right _ _))
  · -- even the count lies outside memory
    have hask : Action.ask (·.wordAt table) m = (.error (m.outside table 2), m) := by
      rw [Action.ask_apply, Memory.wordAt, dif_neg htable]
    exact ⟨table, 2, m, Action.bind_of_error hask, rfl⟩

/-- Opening a table writes an empty count and puts the table on top. -/
theorem openTable_eq {m : Machine} {table : Nat} {memory : Memory}
    (h : Memory.writeWord table 0 m.memory = (.ok (), memory)) :
    openTable table m =
      (.ok (), { m with memory, streams := ⟨m.streams.screen, table :: m.streams.tables⟩ }) := by
  have hmemory : onMemory (Memory.writeWord table 0) m = (.ok (), { m with memory }) := by
    rw [onMemory_apply, h]
  exact Action.bind_of_ok hmemory

end Machine

/-! ## Operations -/

namespace Session

variable {δ : Type} [Device δ]

/-- Does what an operation on the output asks for. -/
def perform : OutputOp → Action (Session δ) Unit
  | .openTable table => executeMany .outputStream [3, table]
  | .closeTable => executeMany .outputStream [ofSigned (-3)]
  | .setScreen true => executeMany .outputStream [1]
  | .setScreen false => executeMany .outputStream [ofSigned (-1)]
  | .print text => output text

/-- Does what operations ask for, one after the other. -/
def performAll : List OutputOp → Action (Session δ) Unit
  | [] => pure ()
  | op :: ops => do
      perform op
      performAll ops

/-- The device after texts have been printed. -/
def printed (texts : List String) (d : δ) : δ :=
  texts.foldl (fun d text => (Device.print text d).2) d

/-- The session once the operations of a transcript have been done, with the given memory: the
    device has been given the texts that were shown, and only memory and the choice of streams
    have changed besides. -/
def showing (s : Session δ) (l : Transcript) (memory : Memory) : Session δ where
  machine := { s.machine with memory, streams := ⟨l.screen, l.opened.map Capture.table⟩ }
  device := printed l.shown s.device

/-- A reliable device stays so while texts are printed. -/
theorem good_printed {good : δ → Prop} (hdevice : Device.Reliable good) {d : δ} (hd : good d)
    (texts : List String) : good (printed texts d) := by
  induction texts generalizing d with
  | nil => exact hd
  | cons text texts ih =>
      obtain ⟨d', hprint, hd'⟩ := hdevice.print text d hd
      refine ih (d := (Device.print text d).2) ?_
      rw [hprint]
      exact hd'

variable {good : δ → Prop} {s : Session δ} {l : Transcript} {memory : Memory}

/-- A table is opened where there is room for its count. -/
theorem perform_openTable (hm : s.machine.memory.Records l memory) {table : UInt16}
    (hsound : (l.record (.openTable table)).Sound s.machine.memory.size) :
    ∃ memory', perform (.openTable table) (s.showing l memory) =
        (.ok (), s.showing (l.record (.openTable table)) memory') ∧
      s.machine.memory.Records (l.record (.openTable table)) memory' := by
  obtain ⟨⟨hinside, -⟩, hapart, -⟩ := Transcript.sound_cons.mp hsound
  have hroom : table.toNat + 2 ≤ memory.size := by
    rw [hm.size]
    exact hinside
  obtain ⟨memory', hwrite, hwritten⟩ := Memory.writeWord_eq hroom 0
  -- A table without text covers its count only.
  have hframe : ∀ x, ¬ Capture.Covers ⟨table.toNat, []⟩ x →
      memory'.bytes[x]? = memory.bytes[x]? := by
    intro x hx
    have hx : ¬ (table.toNat ≤ x ∧ x < table.toNat + 2) := hx
    have hout : x < table.toNat ∨ table.toNat + 2 ≤ x := by omega
    exact hwritten.unchanged x hout
  refine ⟨memory', ?_, hwritten.size.trans hm.size, ?_, ?_⟩
  · show onMachine (Machine.openTable table.toNat) (s.showing l memory) = _
    exact onMachine_eq_iff.mpr ⟨Machine.openTable_eq hwrite, rfl⟩
  · intro c hc
    rcases List.mem_cons.mp hc with rfl | hc
    · exact ⟨⟨0, Memory.wordAt_eq_ok.mpr hwritten.holds, rfl⟩, Memory.holds_nil⟩
    · exact (hm.stores c hc).of_agree fun x hx => hframe x ((hapart c hc).not_covers hx)
  · intro x hx
    rw [hframe x (hx _ List.mem_cons_self)]
    exact hm.unchanged x fun c hc => hx c (List.mem_cons_of_mem _ hc)

/-- Text goes to the innermost open table if there is one. -/
theorem perform_print_table {c : Capture} {rest : List Capture} (hopened : l.opened = c :: rest)
    (hm : s.machine.memory.Records l memory) {text : String}
    (hsound : (l.record (.print text)).Sound s.machine.memory.size) :
    ∃ memory', perform (.print text) (s.showing l memory) =
        (.ok (), s.showing (l.record (.print text)) memory') ∧
      s.machine.memory.Records (l.record (.print text)) memory' := by
  obtain ⟨screen, opened, closed, shown⟩ := l
  obtain rfl : opened = c :: rest := hopened
  obtain ⟨hfits, hapart, -⟩ := Transcript.sound_cons.mp hsound
  rw [← hm.size] at hfits
  -- What is appended stays within the table on top, from which all others are apart.
  obtain ⟨memory', happend, hsize, hstores, hframe⟩ :=
    Machine.appendText_eq (hm.stores c List.mem_cons_self) hfits
  refine ⟨memory', ?_, hsize.trans hm.size, ?_, ?_⟩
  · refine (output_of_table rfl text).trans (onMachine_eq_iff.mpr ⟨?_, rfl⟩)
    rw [Machine.onMemory_apply]
    show ((Machine.appendText c.table text memory).1, _) = _
    rw [showing, happend]
    rfl
  · intro c' hc'
    rcases List.mem_cons.mp hc' with rfl | hc'
    · exact hstores
    · refine (hm.stores c' (List.mem_cons_of_mem c hc')).of_agree fun x hx => hframe x ?_
      exact (hapart c' hc').not_covers hx
  · intro x hx
    rw [hframe x (hx _ List.mem_cons_self)]
    refine hm.unchanged x fun c' hc' => ?_
    rcases List.mem_cons.mp hc' with rfl | hc'
    · intro hcovers
      exact hx _ List.mem_cons_self (Capture.covers_append text hcovers)
    · exact hx c' (List.mem_cons_of_mem _ hc')

/-- Text goes to the device if no table is open and the screen is on. -/
theorem perform_print_screen (hdevice : Device.Reliable good) (hs : good s.device)
    (hopened : l.opened = []) (text : String) :
    perform (.print text) (s.showing l memory) =
      (.ok (), s.showing (l.record (.print text)) memory) := by
  obtain ⟨screen, opened, closed, shown⟩ := l
  obtain rfl : opened = [] := hopened
  cases screen with
  | false => exact output_of_none rfl text
  | true =>
      obtain ⟨d, hprint, -⟩ := hdevice.print text _ (good_printed hdevice hs shown)
      have hshown : printed (shown ++ [text]) s.device = d := by
        rw [printed, List.foldl_append]
        exact congrArg Prod.snd hprint
      refine (output_of_screen rfl text).trans ((onDevice_eq hprint).trans ?_)
      rw [← hshown]
      rfl

/-- What one operation does: memory and device are as the transcript has it after the operation. -/
theorem perform_record (hdevice : Device.Reliable good) (hs : good s.device)
    (hm : s.machine.memory.Records l memory) {op : OutputOp}
    (hsound : (l.record op).Sound s.machine.memory.size) :
    ∃ memory', perform op (s.showing l memory) = (.ok (), s.showing (l.record op) memory') ∧
      s.machine.memory.Records (l.record op) memory' := by
  cases op with
  | openTable table => exact perform_openTable hm hsound
  | setScreen on =>
      refine ⟨memory, ?_, hm.size, hm.stores, hm.unchanged⟩
      cases on <;> rfl
  | closeTable =>
      obtain ⟨screen, opened, closed, shown⟩ := l
      cases opened with
      | nil => exact ⟨memory, rfl, hm⟩
      | cons c rest =>
          -- the table that is closed is among the others now
          have hperm : (rest ++ c :: closed).Perm (c :: rest ++ closed) := List.perm_middle
          refine ⟨memory, rfl, hm.size, ?_, ?_⟩
          · intro c' hc'
            exact hm.stores c' (hperm.mem_iff.mp hc')
          · intro x hx
            exact hm.unchanged x fun c' hc' => hx c' (hperm.mem_iff.mpr hc')
  | print text =>
      obtain ⟨screen, opened, closed, shown⟩ := l
      cases opened with
      | cons c rest => exact perform_print_table rfl hm hsound
      | nil =>
          refine ⟨memory, perform_print_screen hdevice hs rfl text, ?_⟩
          cases screen with
          | true => exact ⟨hm.size, hm.stores, hm.unchanged⟩
          | false => exact hm

/-- What a sequence of operations does. -/
theorem performAll_after (hdevice : Device.Reliable good) (hs : good s.device)
    (hm : s.machine.memory.Records l memory) {ops : List OutputOp}
    (hsound : (l.after ops).Sound s.machine.memory.size) :
    ∃ memory', performAll ops (s.showing l memory) = (.ok (), s.showing (l.after ops) memory') ∧
      s.machine.memory.Records (l.after ops) memory' := by
  induction ops generalizing l memory with
  | nil => exact ⟨memory, rfl, hm⟩
  | cons op ops ih =>
      have hsound₁ : (l.record op).Sound s.machine.memory.size := Transcript.sound_of_after hsound
      obtain ⟨memory₁, hperform, hm₁⟩ := perform_record hdevice hs hm hsound₁
      obtain ⟨memory₂, hrest, hm₂⟩ := ih hm₁ hsound
      exact ⟨memory₂, (Action.bind_of_ok hperform).trans hrest, hm₂⟩

/-- The transcript of a session before any output. -/
def blank (s : Session δ) : Transcript := { screen := s.machine.streams.screen }

/-- Before any operation, a session shows its blank transcript. -/
theorem showing_blank (hnone : s.machine.streams.tables = []) :
    s.showing s.blank s.machine.memory = s := by
  obtain ⟨⟨story, rules, memory, pc, calls, ⟨screen, tables⟩, random, entropy, quit, count⟩,
    device⟩ := s
  obtain rfl : tables = [] := hnone
  rfl

/-- Operations that are recorded from a blank transcript on succeed, and leave what it says. -/
theorem performAll_blank (hdevice : Device.Reliable good) (hs : good s.device)
    (hnone : s.machine.streams.tables = []) (ops : List OutputOp)
    (hsound : (s.blank.after ops).Sound s.machine.memory.size) :
    ∃ memory, performAll ops s = (.ok (), s.showing (s.blank.after ops) memory) ∧
      s.machine.memory.Records (s.blank.after ops) memory := by
  have hm : s.machine.memory.Records s.blank s.machine.memory :=
    ⟨rfl, fun c hc => absurd hc List.not_mem_nil, fun _ _ => rfl⟩
  have h := performAll_after hdevice hs hm hsound
  rw [showing_blank hnone] at h
  exact h

/-- As long as the tables of a sequence of operations have room and do not overlap, each of the
    operations succeeds, and after each of them the tables in memory hold the text that was
    printed while they were the innermost ones, memory is unchanged outside of them, and the
    device has been given the texts that were printed while no table was open and the screen was
    on. The machine does not depend on how text is divided among prints. Text that does not fit
    into memory is refused and not counted. -/
theorem output_captured (hdevice : Device.Reliable good) (hs : good s.device)
    (hnone : s.machine.streams.tables = []) :
    (∀ ops, (s.blank.after ops).Sound s.machine.memory.size → ∀ before later,
      ops = before ++ later →
      ∃ memory, performAll before s = (.ok (), s.showing (s.blank.after before) memory) ∧
        s.machine.memory.Records (s.blank.after before) memory) ∧
    (∀ before a b later,
      (s.blank.after (before ++ .print (a ++ b) :: later)).Sound s.machine.memory.size →
      ∃ t t', performAll (before ++ .print (a ++ b) :: later) s = (.ok (), t) ∧
        performAll (before ++ .print a :: .print b :: later) s = (.ok (), t') ∧
        t'.machine = t.machine) ∧
    (∀ (t : Session δ) (table : Nat) (rest : List Nat) (text : String),
      t.machine.streams.tables = table :: rest →
      (∀ n, t.machine.memory.wordAt table = .ok n →
        ∃ i < text.length, t.machine.memory.size ≤ table + 2 + n.toNat + i) →
      ∃ a width t', output text t = (.error (.outOfBounds a width t.machine.memory.size), t') ∧
        t'.machine.memory.wordAt table = t.machine.memory.wordAt table) ∧
    ∀ c, (c = '\n' → Machine.tableByte c = 13) ∧
      (c ≠ '\n' → c.toNat < 128 → (Machine.tableByte c).toNat = c.toNat) ∧
      (128 ≤ c.toNat → Machine.tableByte c = 63) := by
  refine ⟨?_, ?_, ?_, Machine.tableByte_cases⟩
  · rintro _ hsound before later rfl
    rw [Transcript.after_append] at hsound
    exact performAll_blank hdevice hs hnone before (Transcript.sound_of_after hsound)
  · intro before a b later hsound
    -- Printing in parts leaves the same tables, and only they decide on memory.
    have hsame : (s.blank.after (before ++ .print a :: .print b :: later)).SameTables
        (s.blank.after (before ++ .print (a ++ b) :: later)) := by
      rw [Transcript.after_append, Transcript.after_append]
      exact (Transcript.sameTables_print _ a b).after later
    obtain ⟨memory, hwhole, hm⟩ := performAll_blank hdevice hs hnone _ hsound
    generalize s.blank.after (before ++ .print (a ++ b) :: later) = l at hsame hsound hwhole hm
    have hdivided := performAll_blank hdevice hs hnone (before ++ .print a :: .print b :: later)
    generalize s.blank.after (before ++ .print a :: .print b :: later) = l' at hsame hdivided
    obtain ⟨screen, opened, closed, shown⟩ := l
    obtain ⟨screen', opened', closed', shown'⟩ := l'
    cases hsame
    obtain ⟨memory', hperform, hm'⟩ := hdivided ⟨hsound.fits, hsound.apart⟩
    -- Both memories record the same tables over the same start.
    have hmemory : memory' = memory :=
      Memory.Records.unique hm' ⟨hm.size, hm.stores, hm.unchanged⟩
    rw [hmemory] at hperform
    exact ⟨_, _, hwhole, hperform, rfl⟩
  · intro t table rest text htables hshort
    obtain ⟨a, width, memory, happend, hword⟩ := Machine.appendText_of_short hshort
    refine ⟨a, width, ⟨{ t.machine with memory }, t.device⟩, ?_, hword⟩
    rw [output_of_table htables]
    refine onMachine_eq_iff.mpr ⟨?_, rfl⟩
    rw [Machine.onMemory_apply, happend]

/-- A table is opened while another one is, and the other one is printed to before and after.
    Behind the last table there is no room for another character. -/
theorem nested_tables_captured :
    let machine : Machine := { Machine.start default {} 0 with memory := ⟨Array.replicate 9 0⟩ }
    let ops : List OutputOp := [.print "x", .openTable 0, .print "a", .openTable 5, .print "é\n",
      .closeTable, .print "b", .closeTable, .print "y"]
    (∃ memory, performAll ops (⟨machine, {}⟩ : Session Scripted) =
        (.ok (), ⟨{ machine with memory }, { output := "xy" }⟩) ∧
      memory.Stores ⟨0, ['a', 'b']⟩ ∧ memory.Stores ⟨5, ['é', '\n']⟩ ∧
      memory.byteAt 4 = .ok 0) ∧
    ∃ a width t, output "z" (⟨{ machine with streams := ⟨true, [7]⟩ }, {}⟩ : Session Scripted) =
        (.error (.outOfBounds a width 9), t) ∧
      t.machine.memory.wordAt 7 = .ok 0 := by
  intro machine ops
  obtain ⟨hcaptured, -, hrefused, -⟩ :=
    output_captured (s := ⟨machine, {}⟩) Scripted.reliable trivial rfl
  constructor
  · obtain ⟨memory, hperform, hrecords⟩ := hcaptured ops (by decide) ops [] rfl
    refine ⟨memory, hperform, hrecords.stores _ (by decide), hrecords.stores _ (by decide), ?_⟩
    have hbetween : memory.bytes[4]? = some 0 := hrecords.unchanged 4 (by decide)
    exact Memory.byteAt_eq_ok.mpr hbetween
  · refine hrefused ⟨{ machine with streams := ⟨true, [7]⟩ }, {}⟩ 7 [] "z" rfl fun n hn => ?_
    exact ⟨0, by decide, Nat.le_add_right 9 n.toNat⟩

end Session

end ZMachine
