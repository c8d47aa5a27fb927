import ZMachine.Device.Scripted
import ZMachine.Proofs.Activation
import ZMachine.Proofs.Bytes
import ZMachine.Proofs.Transfer

/-! # Reading a line

    A line that a story reads goes into two buffers of its memory: its text, and
    for each of its words the dictionary entry, the length and the place of the
    word in the text. The three have to agree, whatever the line is and however
    little room the buffers have.

    * `Dictionary.lookup_eq`: a word can be looked up, and the result depends on
      the entries of the dictionary alone;
    * `Dictionary.writeEntries_eq`, `tokenise_eq`: what goes into a parse buffer;
    * `Session.sread_stores_line`: what reading a line does to memory, and that it
      changes nothing else there. -/

namespace ZMachine

/-! ## Dictionary entries -/

namespace Dictionary

variable {d : Dictionary} {m m' : Memory}

/-- An address of a byte of the entries. -/
def Covers (d : Dictionary) (x : Nat) : Prop :=
  d.entries ≤ x ∧ x < d.entries + d.entryCount.toNat * d.entryLength.toNat

/-- Each entry has room for a key, and all of them lie in memory. -/
structure Fits (d : Dictionary) (m : Memory) : Prop where
  keys : 4 ≤ d.entryLength.toNat
  inside : d.entries + d.entryCount.toNat * d.entryLength.toNat ≤ m.size

/-- Every entry has its encoded text in the dictionary. -/
theorem Fits.entryAddress_le (h : d.Fits m) {i : Nat} (hi : i < d.entryCount.toNat) :
    d.entryAddress i + 4 ≤ d.entries + d.entryCount.toNat * d.entryLength.toNat := by
  have hnext : (i + 1) * d.entryLength.toNat ≤ d.entryCount.toNat * d.entryLength.toNat :=
    Nat.mul_le_mul_right _ hi
  have hkeys := h.keys
  rw [Nat.succ_mul] at hnext
  rw [entryAddress]
  omega

/-- The key of an entry is read from four bytes of it. -/
theorem keyAt_eq {a : Nat} (hin : a + 4 ≤ m.size)
    (hagree : ∀ x, a ≤ x → x < a + 4 → m'.bytes[x]? = m.bytes[x]?) :
    ∃ key, keyAt m a = .ok key ∧ keyAt m' a = .ok key := by
  have hword : ∀ b, a ≤ b → b + 2 ≤ a + 4 → ∃ w, m.wordAt b = .ok w ∧ m'.wordAt b = .ok w := by
    intro b hab hb
    have hlt : b + 1 < m.bytes.size := Nat.lt_of_lt_of_le hb hin
    refine ⟨_, dif_pos hlt, Memory.wordAt_eq_ok.mpr ?_⟩
    refine (Memory.wordAt_eq_ok.mp (dif_pos hlt)).of_agree fun x hx hxb => ?_
    exact hagree x (Nat.le_trans hab hx) (Nat.lt_of_lt_of_le hxb hb)
  obtain ⟨first, hfirst, hfirst'⟩ := hword a (Nat.le_refl a) (by omega)
  obtain ⟨second, hsecond, hsecond'⟩ := hword (a + 2) (by omega) (Nat.le_refl _)
  refine ⟨⟨first, second⟩, ?_, ?_⟩
  · rw [keyAt, hfirst, hsecond]
    rfl
  · rw [keyAt, hfirst', hsecond']
    rfl

/-- One step of a search, by the order of the key and that of the entry in the middle. -/
theorem search_succ {low high : Nat} {entry : Text.Key} (hlt : low < high)
    (hentry : keyAt m (d.entryAddress ((low + high) / 2)) = .ok entry) (key : Text.Key)
    (fuel : Nat) :
    d.search m key (fuel + 1) low high = match key.compare entry with
      | .lt => d.search m key fuel low ((low + high) / 2)
      | .gt => d.search m key fuel ((low + high) / 2 + 1) high
      | .eq => .ok (d.entryAddress ((low + high) / 2)) := by
  rw [search, if_pos hlt]
  dsimp only
  rw [hentry]
  rfl

/-- A search reads nothing but the dictionary, and succeeds if it lies in memory. -/
theorem search_eq (h : d.Fits m) (hagree : ∀ x, d.Covers x → m'.bytes[x]? = m.bytes[x]?)
    (key : Text.Key) {fuel low high : Nat} (hhigh : high ≤ d.entryCount.toNat) :
    ∃ a, d.search m key fuel low high = .ok a ∧ d.search m' key fuel low high = .ok a := by
  induction fuel generalizing low high with
  | zero => exact ⟨0, rfl, rfl⟩
  | succ fuel ih =>
      by_cases hlt : low < high
      · have hmiddle : (low + high) / 2 < d.entryCount.toNat := by omega
        -- The entry in the middle lies in the dictionary, where both memories are alike.
        have hle := h.entryAddress_le hmiddle
        have hentries : d.entries ≤ d.entryAddress ((low + high) / 2) := Nat.le_add_right _ _
        obtain ⟨entry, hentry, hentry'⟩ := keyAt_eq (Nat.le_trans hle h.inside) fun x hx hxb =>
          hagree x ⟨Nat.le_trans hentries hx, Nat.lt_of_lt_of_le hxb hle⟩
        rw [search_succ hlt hentry, search_succ hlt hentry']
        cases key.compare entry with
        | lt => exact ih (Nat.le_of_lt hmiddle)
        | gt => exact ih hhigh
        | eq => exact ⟨_, rfl, rfl⟩
      · rw [search, search, if_neg hlt, if_neg hlt]
        exact ⟨0, rfl, rfl⟩

/-- A word is found, or found to be missing, by the bytes of the entries. -/
theorem lookup_eq (h : d.Fits m) (hagree : ∀ x, d.Covers x → m'.bytes[x]? = m.bytes[x]?)
    (text : String) : ∃ found, d.lookup m text = .ok found ∧ d.lookup m' text = .ok found := by
  obtain ⟨a, hsearch, hsearch'⟩ := search_eq h hagree (Text.encode text) (Nat.le_refl _)
  refine ⟨UInt16.ofNat a, ?_, ?_⟩
  · rw [lookup, hsearch]
    rfl
  · rw [lookup, hsearch']
    rfl

/-! ## Parse buffers -/

/-- From an address on there are entries of tokens, four bytes for each. -/
def HasEntries (d : Dictionary) (m : Memory) (a : Nat) (tokens : List Token) (m' : Memory) :
    Prop :=
  ∀ i t, tokens[i]? = some t → ∃ found, d.lookup m t.text = .ok found ∧
    m'.Holds (a + 4 * i) [highByte found, lowByte found, UInt8.ofNat t.text.utf8ByteSize,
      UInt8.ofNat (t.position + 1)]

/-- One entry, and that its word is looked up before it is written does not matter. -/
theorem writeEntries_cons {a : Nat} {t : Token} {found : UInt16} (hin : a + 4 ≤ m.size)
    (hfound : d.lookup m t.text = .ok found) (ht : t.position < 255) (rest : List Token) :
    ∃ m', d.writeEntries a (t :: rest) m = d.writeEntries (a + 4) rest m' ∧
      m.Overwritten a [highByte found, lowByte found, UInt8.ofNat t.text.utf8ByteSize,
        UInt8.ofNat (t.position + 1)] m' := by
  have hposition : t.position % 256 = t.position := Nat.mod_eq_of_lt (by omega)
  obtain ⟨m₁, hword, h₁⟩ := Memory.writeWord_eq (by omega : a + 2 ≤ m.size) found
  obtain ⟨m₂, hlength, h₂⟩ := Memory.writeByte_eq (by rw [h₁.size]; omega : a + 2 < m₁.size)
    (UInt8.ofNat t.text.utf8ByteSize)
  have h₁₂ := h₁.append h₂
  obtain ⟨m₃, hplace, h₃⟩ := Memory.writeByte_eq (by rw [h₁₂.size]; omega : a + 3 < m₂.size)
    (UInt8.ofNat (t.position + 1))
  refine ⟨m₃, ?_, h₁₂.append h₃⟩
  have hask : Action.ask (d.lookup · t.text) m = (.ok found, m) := by
    rw [Action.ask_apply, hfound]
  rw [writeEntries, Action.bind_of_ok hask, Action.bind_of_ok hword, Action.bind_of_ok hlength]
  dsimp only
  rw [hposition, if_neg (by omega)]
  exact Action.bind_of_ok hplace

/-- The entries of tokens, looked up in a memory with the same dictionary as the one that is
    written to, whatever has been written to it before. -/
theorem writeEntries_eq {a : Nat} {tokens : List Token} (hfits : d.Fits m)
    (hposition : ∀ t ∈ tokens, t.position < 255)
    (hapart : ∀ x, d.Covers x → x < a ∨ a + 4 * tokens.length ≤ x) {m₁ : Memory}
    (hsame : ∀ x, d.Covers x → m₁.bytes[x]? = m.bytes[x]?)
    (hin : a + 4 * tokens.length ≤ m₁.size) :
    ∃ m', d.writeEntries a tokens m₁ = (.ok (), m') ∧ m'.size = m₁.size ∧
      d.HasEntries m a tokens m' ∧
      ∀ x, x < a ∨ a + 4 * tokens.length ≤ x → m'.bytes[x]? = m₁.bytes[x]? := by
  -- On the tokens; the dictionary is apart from the buffer, and so stays as it was.
  induction tokens generalizing a m₁ with
  | nil =>
      refine ⟨m₁, rfl, rfl, ?_, fun _ _ => rfl⟩
      intro i t ht
      cases ht
  | cons t rest ih =>
      rw [List.length_cons] at hapart hin
      obtain ⟨found, hfound, hfound₁⟩ := lookup_eq hfits hsame t.text
      obtain ⟨m₂, hentry, h₂⟩ := writeEntries_cons (a := a) (by omega) hfound₁
        (hposition t List.mem_cons_self) rest
      have hframe : ∀ x, x < a ∨ a + 4 ≤ x → m₂.bytes[x]? = m₁.bytes[x]? := h₂.unchanged
      obtain ⟨m', hrest, hsize, hentries, hunchanged⟩ := ih (a := a + 4)
        (fun u hu => hposition u (List.mem_cons_of_mem t hu))
        (fun x hx => by have := hapart x hx; omega)
        (fun x hx => (hframe x (by have := hapart x hx; omega)).trans (hsame x hx))
        (by rw [h₂.size]; omega)
      refine ⟨m', hentry.trans hrest, hsize.trans h₂.size, ?_, ?_⟩
      · intro i u hu
        cases i with
        | zero =>
            cases hu
            exact ⟨found, hfound, h₂.holds.of_agree fun x _ hx => hunchanged x (.inl hx)⟩
        | succ i =>
            have hplace : a + 4 * (i + 1) = a + 4 + 4 * i := by omega
            rw [hplace]
            exact hentries i u hu
      · intro x hx
        rw [List.length_cons] at hx
        rw [hunchanged x (by omega), hframe x (by omega)]

/-- A parse buffer receives the number of tokens and their entries, as far as it has room. -/
theorem tokenise_eq {line : String} {buffer : Nat} {room : UInt8} (hfits : d.Fits m)
    (hposition : ∀ t ∈ d.split line, t.position < 255)
    (hapart : ∀ x, d.Covers x → x < buffer ∨ buffer + 2 + 4 * room.toNat ≤ x) {m₁ : Memory}
    (hsame : ∀ x, d.Covers x → m₁.bytes[x]? = m.bytes[x]?)
    (hroom : m₁.byteAt buffer = .ok room) (hin : buffer + 2 + 4 * room.toNat ≤ m₁.size) :
    let tokens := (d.split line).take room.toNat
    ∃ m', d.tokenise line buffer m₁ = (.ok (), m') ∧ m'.size = m₁.size ∧
      m'.byteAt (buffer + 1) = .ok (UInt8.ofNat tokens.length) ∧
      d.HasEntries m (buffer + 2) tokens m' ∧
      ∀ x, x ≤ buffer ∨ buffer + 2 + 4 * tokens.length ≤ x → m'.bytes[x]? = m₁.bytes[x]? := by
  intro tokens
  have hlength : tokens.length ≤ room.toNat := List.length_take_le _ _
  obtain ⟨m₂, hcount, h₂⟩ := Memory.writeByte_eq (by omega : buffer + 1 < m₁.size)
    (UInt8.ofNat tokens.length)
  have hframe : ∀ x, x < buffer + 1 ∨ buffer + 2 ≤ x → m₂.bytes[x]? = m₁.bytes[x]? :=
    h₂.unchanged
  have hplaced : ∀ t ∈ tokens, t.position < 255 := fun t ht =>
    hposition t (List.mem_of_mem_take ht)
  -- The entries are written behind the count, which therefore stays.
  obtain ⟨m', hwrite, hsize, hentries, hunchanged⟩ := writeEntries_eq (a := buffer + 2) hfits
    hplaced
    (fun x hx => by have := hapart x hx; omega)
    (fun x hx => (hframe x (by have := hapart x hx; omega)).trans (hsame x hx))
    (by rw [h₂.size]; omega)
  refine ⟨m', ?_, hsize.trans h₂.size, ?_, hentries, ?_⟩
  · have hask : Action.ask (·.byteAt buffer) m₁ = (.ok room, m₁) := by
      rw [Action.ask_apply, hroom]
    rw [tokenise_eq_split, Action.bind_of_ok hask]
    exact (Action.bind_of_ok hcount).trans hwrite
  · rw [Memory.byteAt_eq_ok, hunchanged (buffer + 1) (.inl (by omega)), ← Memory.byteAt_eq_ok]
    exact (Memory.holds_cons.mp h₂.holds).1
  · intro x hx
    rw [hunchanged x (by omega), hframe x (by omega)]

end Dictionary

/-! ## Lines -/

/-- The bytes of characters that are bytes. -/
def textBytes (cs : List Char) : List UInt8 := cs.map fun c => UInt8.ofNat c.toNat

theorem textBytes_append (cs ds : List Char) :
    textBytes (cs ++ ds) = textBytes cs ++ textBytes ds :=
  List.map_append

theorem length_textBytes (cs : List Char) : (textBytes cs).length = cs.length :=
  List.length_map _

namespace Token

variable {t : Token} {cs : List Char}

/-- In a text in printable ASCII, positions and lengths count characters. -/
theorem LiesIn.parts (h : t.LiesIn 0 cs) (hascii : ∀ c ∈ cs, c ≤ '~') :
    ∃ before after, cs = before ++ t.text.toList ++ after ∧ t.position = before.length ∧
      t.text.utf8ByteSize = t.text.toList.length ∧ 0 < t.text.toList.length := by
  obtain ⟨hne, before, after, rfl, hposition⟩ := h
  have hbefore : ∀ c ∈ before, c ≤ '~' := fun c hc =>
    hascii c (List.mem_append_left after (List.mem_append_left _ hc))
  have htext : ∀ c ∈ t.text.toList, c ≤ '~' := fun c hc =>
    hascii c (List.mem_append_left after (List.mem_append_right before hc))
  refine ⟨before, after, rfl, ?_, ?_, List.length_pos_iff.mpr hne⟩
  · rw [hposition, Nat.zero_add, byteLength_eq_length hbefore]
  · rw [← byteLength_eq_length htext, ← utf8ByteSize_ofList, String.ofList_toList]

/-- A token is found in the bytes of its text. -/
theorem LiesIn.holds {m : Memory} {a : Nat} {rest : List UInt8} (h : t.LiesIn 0 cs)
    (hascii : ∀ c ∈ cs, c ≤ '~') (hm : m.Holds a (textBytes cs ++ rest)) :
    m.Holds (a + t.position) (textBytes t.text.toList) := by
  obtain ⟨before, after, rfl, hposition, -⟩ := h.parts hascii
  rw [textBytes_append, textBytes_append, List.append_assoc, List.append_assoc,
    Memory.holds_append, Memory.holds_append] at hm
  rw [hposition, ← length_textBytes before]
  exact hm.2.1

/-- In a line of one-byte characters, a token ends where the line does at the latest. -/
theorem LiesIn.add_length_le (h : t.LiesIn 0 cs) (hascii : ∀ c ∈ cs, c ≤ '~') :
    t.position + t.text.toList.length ≤ cs.length := by
  obtain ⟨before, after, rfl, hposition, -⟩ := h.parts hascii
  rw [hposition, List.length_append, List.length_append]
  exact Nat.le_add_right _ _

end Token

/-- A text buffer and a parse buffer, with the sizes in their first bytes, that lie in memory
    apart from each other and from the entries of the dictionary. -/
structure LineBuffers (d : Dictionary) (m : Memory) (text parse : Nat) (size room : UInt8) :
    Prop where
  size_eq : m.byteAt text = .ok size
  room_eq : m.byteAt parse = .ok room
  text_inside : text + max size.toNat 1 < m.size
  parse_inside : parse + 2 + 4 * room.toNat ≤ m.size
  apart : ∀ x, text ≤ x → x ≤ text + max size.toNat 1 → x < parse ∨ parse + 2 + 4 * room.toNat ≤ x
  fits : d.Fits m
  text_apart : ∀ x, d.Covers x → x < text ∨ text + max size.toNat 1 < x
  parse_apart : ∀ x, d.Covers x → x < parse ∨ parse + 2 + 4 * room.toNat ≤ x

/-- The entry of a token in a parse buffer: the address of its dictionary entry, its length,
    and the place of its text in the text buffer. -/
def ParsedAt (d : Dictionary) (m : Memory) (text entry : Nat) (t : Token) (m' : Memory) : Prop :=
  ∃ found length place, d.lookup m t.text = .ok found ∧ m'.wordAt entry = .ok found ∧
    m'.byteAt (entry + 2) = .ok length ∧ length.toNat = (textBytes t.text.toList).length ∧
    m'.byteAt (entry + 3) = .ok place ∧ 1 ≤ place.toNat ∧ place.toNat ≤ 254 ∧
    m'.Holds (text + place.toNat) (textBytes t.text.toList)

/-- Entries that have been written for the tokens of a text go with the text in its buffer. -/
theorem Dictionary.HasEntries.parsedAt {d : Dictionary} {m m' : Memory} {a i text : Nat}
    {tokens : List Token} {t : Token} {cs : List Char} {rest : List UInt8}
    (h : d.HasEntries m a tokens m') (ht : tokens[i]? = some t) (hlies : t.LiesIn 0 cs)
    (hascii : ∀ c ∈ cs, c ≤ '~') (hlength : cs.length ≤ 254)
    (htext : m'.Holds (text + 1) (textBytes cs ++ rest)) :
    ParsedAt d m text (a + 4 * i) t m' := by
  obtain ⟨found, hfound, hentry⟩ := h i t ht
  obtain ⟨-, -, -, -, hutf8, hpos⟩ := hlies.parts hascii
  have hle := hlies.add_length_le hascii
  rw [Memory.holds_cons, Memory.holds_cons, Memory.holds_cons, Memory.holds_cons] at hentry
  obtain ⟨hhigh, hlow, hsize, hposition, -⟩ := hentry
  -- Positions are counted from the start of the buffer, which has the size before the text.
  have hplace : (UInt8.ofNat (t.position + 1)).toNat = t.position + 1 := by
    rw [UInt8.toNat_ofNat']
    omega
  refine ⟨found, _, _, hfound, ?_, hsize, ?_, hposition, ?_, ?_, ?_⟩
  · exact Memory.wordAt_eq_ok.mpr
      (Memory.holds_cons.mpr ⟨hhigh, Memory.holds_cons.mpr ⟨hlow, Memory.holds_nil⟩⟩)
  · rw [UInt8.toNat_ofNat', length_textBytes, hutf8]
    omega
  · omega
  · omega
  · rw [hplace, Nat.add_comm t.position 1, ← Nat.add_assoc]
    exact hlies.holds hascii htext

/-- A text has been stored in a text buffer, and its tokens in a parse buffer. -/
structure LineStored (d : Dictionary) (m : Memory) (text parse : Nat) (size room : UInt8)
    (stored : List Char) (m' : Memory) : Prop where
  /-- The text and a zero byte after it. -/
  holds : m'.Holds (text + 1) (textBytes stored ++ [0])
  /-- The number of tokens for which there is room. -/
  count : ∃ n, m'.byteAt (parse + 1) = .ok n ∧
    n.toNat = min room.toNat (d.split (String.ofList stored)).length
  /-- The entries of these tokens. -/
  entry : ∀ i t, i < room.toNat → (d.split (String.ofList stored))[i]? = some t →
    ParsedAt d m text (parse + 2 + 4 * i) t m'
  /-- Nothing else changes. -/
  unchanged : ∀ x, ¬ (text + 1 ≤ x ∧ x ≤ text + 1 + stored.length) →
    ¬ (parse + 1 ≤ x ∧ x < parse + 2 + 4 * min room.toNat (d.split (String.ofList stored)).length) →
    m'.bytes[x]? = m.bytes[x]?
  /-- In particular, nothing changes outside of the buffers. -/
  confined : ∀ x, ¬ (text < x ∧ x ≤ text + max size.toNat 1) →
    ¬ (parse < x ∧ x ≤ parse + 1 + 4 * room.toNat) → m'.bytes[x]? = m.bytes[x]?

/-- The text of a line goes into its buffer, and what its words need is left alone. -/
theorem LineBuffers.writeText {d : Dictionary} {m : Memory} {text parse : Nat} {size room : UInt8}
    (h : LineBuffers d m text parse size room) {cs : List Char} (hcs : cs.length ≤ size.toNat - 1) :
    ∃ m', Memory.writeBytes (text + 1) (textBytes cs ++ [0]) m = (.ok (), m') ∧
      m'.size = m.size ∧ m'.Holds (text + 1) (textBytes cs ++ [0]) ∧
      (∀ x, x < text + 1 ∨ text + 1 + cs.length < x → m'.bytes[x]? = m.bytes[x]?) ∧
      m'.byteAt parse = .ok room ∧ ∀ x, d.Covers x → m'.bytes[x]? = m.bytes[x]? := by
  have hinside := h.text_inside
  have hlength : (textBytes cs ++ [0]).length = cs.length + 1 := by
    rw [List.length_append, length_textBytes, List.length_singleton]
  obtain ⟨m', hwrite, h'⟩ := Memory.writeBytes_eq (m := m) (a := text + 1)
    (by rw [hlength]; omega : text + 1 + (textBytes cs ++ [0]).length ≤ m.size)
  -- The text and the zero behind it take up as much as the buffer has at most.
  have hframe : ∀ x, x < text + 1 ∨ text + 1 + cs.length < x →
      m'.bytes[x]? = m.bytes[x]? := by
    intro x hx
    exact h'.unchanged x (by rw [hlength]; omega)
  refine ⟨m', hwrite, h'.size, h'.holds, hframe, ?_, ?_⟩
  · have hapart := h.apart parse
    rw [Memory.byteAt_eq_ok, hframe parse (by omega), ← Memory.byteAt_eq_ok]
    exact h.room_eq
  · intro x hx
    have hapart := h.text_apart x hx
    exact hframe x (by omega)

namespace Machine

/-- A line is stored in buffers that have been laid out for it. -/
theorem storeLine_eq {d : Dictionary} {m : Memory} {text parse : Nat} {size room : UInt8}
    (h : LineBuffers d m text parse size room) (line : String) :
    ∃ m', storeLine d line text parse m = (.ok (), m') ∧
      LineStored d m text parse size room (storedText line (size.toNat - 1)) m' := by
  have hascii : ∀ c ∈ storedText line (size.toNat - 1), c ≤ '~' := fun c => le_of_mem_storedText
  have hlength := length_storedText_le line (size.toNat - 1)
  generalize hstored : storedText line (size.toNat - 1) = stored at hascii hlength
  have hbyte : stored.length ≤ 254 := by
    have hsize := size.toNat_lt
    omega
  obtain ⟨m₁, hwrite, hsize₁, hholds₁, hframe₁, hroom, hsame⟩ := h.writeText hlength
  obtain ⟨m', htokenise, -, hcount, hentries, hframe⟩ := d.tokenise_eq h.fits
    (fun t => d.position_lt_of_mem_split hascii hbyte) h.parse_apart hsame hroom
    (by rw [hsize₁]; exact h.parse_inside)
  rw [List.length_take] at hcount hframe
  -- the entries are written after the text, but apart from it
  have hholds : m'.Holds (text + 1) (textBytes stored ++ [0]) := by
    refine hholds₁.of_agree fun x hx hxb => hframe x ?_
    rw [List.length_append, length_textBytes, List.length_singleton] at hxb
    have hapart := h.apart x (by omega) (by omega)
    omega
  refine ⟨m', ?_, hholds, ⟨_, hcount, ?_⟩, ?_, ?_, ?_⟩
  · have hask : Action.ask (·.byteAt text) m = (.ok size, m) := by
      rw [Action.ask_apply, h.size_eq]
    rw [storeLine, Action.bind_of_ok hask, hstored]
    exact (Action.bind_of_ok hwrite).trans htokenise
  · have hlt := room.toNat_lt
    rw [UInt8.toNat_ofNat']
    omega
  · intro i t hi ht
    have htaken : ((d.split (String.ofList stored)).take room.toNat)[i]? = some t := by
      rw [List.getElem?_take_of_lt hi]
      exact ht
    have hlies := d.liesIn_of_mem_split (List.mem_of_getElem? ht)
    exact hentries.parsedAt htaken hlies hascii hbyte hholds
  · intro x hx hx'
    rw [hframe x (by omega), hframe₁ x (by omega)]
  · intro x hx hx'
    rw [hframe x (by omega), hframe₁ x (by omega)]

/-- The words of the status line are there to be read. -/
structure StatusReadable (m : Machine) (location first second : UInt16) : Prop where
  location : m.memory.wordAt (m.globalAddress locationVariable) = .ok location
  first : m.memory.wordAt (m.globalAddress scoreVariable) = .ok first
  second : m.memory.wordAt (m.globalAddress movesVariable) = .ok second

/-- A status line that can be read is read, and changes nothing. -/
theorem status_eq {m : Machine} {location first second : UInt16}
    (h : m.StatusReadable location first second) :
    status m = (.ok ((m.story.name? location).getD "",
      statusText m.story.header.isTimeGame first second), m) := by
  have hlocation : readVariable locationVariable m = (.ok location, m) := by
    rw [readVariable_global (by decide), h.location]
  have hfirst : readVariable scoreVariable m = (.ok first, m) := by
    rw [readVariable_global (by decide), h.first]
  have hsecond : readVariable movesVariable m = (.ok second, m) := by
    rw [readVariable_global (by decide), h.second]
  rw [status, Action.bind_of_ok hlocation, Action.bind_of_ok (Action.view_apply _ _),
    Action.bind_of_ok hfirst, Action.bind_of_ok hsecond]
  rfl

end Machine

namespace Session

variable {δ : Type} [Device δ]

/-- Reading a line stores it in lower case, in printable ASCII and as far as there is room,
    and its words with it. Only the two buffers change. -/
theorem sread_stores_line {s : Session δ} {text parse : UInt16} {size room : UInt8}
    {location first second : UInt16} {shown left : δ} {line : String}
    (hbuffers : LineBuffers s.machine.story.dictionary s.machine.memory text.toNat parse.toNat
      size room)
    (hstatus : s.machine.StatusReadable location first second)
    (hshow : Device.showStatus ((s.machine.story.name? location).getD "")
      (Machine.statusText s.machine.story.header.isTimeGame first second) s.device =
        (.ok (), shown))
    (hread : Device.readLine shown = (.ok line, left)) (others : List UInt16) :
    let stored := ((Text.lower line).map fun c => if ' ' ≤ c ∧ c ≤ '~' then c else '?').take
      (size.toNat - 1)
    ∃ memory, executeMany .sread (text :: parse :: others) s =
        (.ok (), ⟨{ s.machine with memory }, left⟩) ∧
      LineStored s.machine.story.dictionary s.machine.memory text.toNat parse.toNat size room
        stored memory := by
  intro stored
  obtain ⟨memory, hstore, hstored⟩ := Machine.storeLine_eq hbuffers line
  refine ⟨memory, ?_, hstored⟩
  have hstatus' : onMachine Machine.status s = (.ok _, s) :=
    onMachine_eq_iff.mpr ⟨Machine.status_eq hstatus, rfl⟩
  have hshown : showStatus s = (.ok (), ⟨s.machine, shown⟩) :=
    (Action.bind_of_ok hstatus').trans (onDevice_eq hshow)
  have hline : onDevice Device.readLine (⟨s.machine, shown⟩ : Session δ) =
      (.ok line, ⟨s.machine, left⟩) := onDevice_eq hread
  show readLine text parse s = _
  rw [readLine, Action.bind_of_ok hshown, Action.bind_of_ok hline]
  refine onMachine_eq_iff.mpr ⟨?_, rfl⟩
  refine (Action.bind_of_ok (Action.view_apply _ _)).trans ?_
  rw [Machine.onMemory_apply, hstore]

/-- A story with one word, `go`. After the header come three global variables, at 70 the
    dictionary with a comma for a separator, at 79 a text buffer for five characters, and at 86
    a parse buffer for two words. -/
def goMemory : Memory :=
  ⟨#[3, 0, 0, 0, 0, 0, 0, 64, 0, 70, 16, 0, 0, 64, 0, 64, 0, 0, 56, 55, 48, 49, 48, 49,
     0, 0, 0, 0, 0, 0, 0, 0, 0, 0, 0, 0, 0, 0, 0, 0, 0, 0, 0, 0, 0, 0, 0, 0, 0, 0, 0, 0, 0, 0, 0, 0,
     0, 0, 0, 0, 0, 0, 0, 0,
     0, 0, 0, 0, 0, 0,
     1, 44, 4, 0, 1, 0x32, 0x85, 0x94, 0xA5,
     6, 0, 0, 0, 0, 0, 0,
     2, 0, 0, 0, 0, 0, 0, 0, 0, 0]⟩

/-- What is read from the story when it is loaded. -/
def goStory : Story where
  image := goMemory
  header :=
    { version := 3, flags := 0, release := 0, highMemory := 0, initialPc := 64, dictionary := 70
      objects := 4096, globals := 64, staticMemory := 64, serial := "870101"
      abbreviations := 0, fileLength := 0, checksum := 0 }
  objects := { defaults := 4096, count := 0 }
  names := []
  dictionary :=
    { address := 70, separators := [44], entryLength := 4, entryCount := 1, entries := 75 }

/-- The two buffers of the sample story. -/
theorem lineBuffers_go : LineBuffers goStory.dictionary goMemory 79 86 6 2 where
  size_eq := rfl
  room_eq := rfl
  text_inside := by decide
  parse_inside := by decide
  apart x _ hx := by
    have hx : x ≤ 85 := hx
    omega
  fits := ⟨by decide, by decide⟩
  text_apart x hx := by
    have hx : 75 ≤ x ∧ x < 79 := hx
    omega
  parse_apart x hx := by
    have hx : 75 ≤ x ∧ x < 79 := hx
    omega

/-- Three words of which there is room for two; the last has a letter that is not in ASCII. -/
theorem sread_stores_go :
    let s : Session Scripted := ⟨Machine.start goStory {} 0, { input := ["Go, é"] }⟩
    Story.load goMemory = .ok goStory ∧ LineBuffers goStory.dictionary goMemory 79 86 6 2 ∧
      ∃ memory, executeMany .sread [79, 86] s =
          (.ok (), ⟨{ s.machine with memory }, { status := some ("", "Score: 0  Moves: 0") }⟩) ∧
        LineStored goStory.dictionary goMemory 79 86 6 2 ['g', 'o', ',', ' ', '?'] memory := by
  intro s
  have hbuffers : LineBuffers s.machine.story.dictionary s.machine.memory (79 : UInt16).toNat
      (86 : UInt16).toNat 6 2 := lineBuffers_go
  have hstatus : s.machine.StatusReadable 0 0 0 := ⟨rfl, rfl, rfl⟩
  have hright : Machine.statusText goStory.header.isTimeGame 0 0 = "Score: 0  Moves: 0" := by
    decide
  have hshow : Device.showStatus ((s.machine.story.name? 0).getD "")
      (Machine.statusText s.machine.story.header.isTimeGame 0 0) s.device =
        (.ok (), { input := ["Go, é"], status := some ("", "Score: 0  Moves: 0") }) :=
    congrArg (fun right => Device.showStatus "" right s.device) hright
  obtain ⟨memory, hread, hstored⟩ := sread_stores_line hbuffers hstatus hshow rfl []
  exact ⟨rfl, lineBuffers_go, memory, hread, hstored⟩

end Session

end ZMachine
