import ZMachine.Machine.Input
import ZMachine.Proofs.Conduct
import ZMachine.Proofs.Faults

/-! # Changes to memory

    Every change to memory is made of writes of single bytes and words. None
    of them changes how many bytes there are, and those that fail do so
    because they do not fit. The lines that a story reads need one more fact:
    a text buffer holds at most 254 characters, each of them one byte long, so
    that the position of a word in it fits into a byte even when it counts
    from 1. -/

namespace ZMachine

namespace Memory

theorem size_setByte (m : Memory) (a : Nat) (v : UInt8) : (m.setByte a v).size = m.size :=
  Array.size_setIfInBounds

/-- A byte that is set leaves all others as they are. -/
theorem getElem?_setByte_ne (m : Memory) {a x : Nat} (v : UInt8) (h : a ≠ x) :
    (m.setByte a v).bytes[x]? = m.bytes[x]? :=
  Array.getElem?_setIfInBounds_ne h

/-- Memory keeps its size, and a fault is one that a memory of this size may give rise to. -/
def conduct : Conduct Memory where
  keeps m m' := m'.size = m.size
  mayFail m e := e.OfWork m.size
  position _ := 0
  refl _ := rfl
  trans h h' := h'.trans h
  mayFail_of_keeps h he := h ▸ he

open Conduct

theorem obeys_ask {α : Type} {f : Memory → Except Fault α}
    (hf : ∀ m, FailsOnly (Fault.OfWork m.size) (f m)) : conduct.Obeys (Action.ask f) :=
  .ask hf

theorem obeys_ofExcept {α : Type} {r : Except Fault α}
    (hr : ∀ n, FailsOnly (Fault.OfWork n) r) : conduct.Obeys (Action.ofExcept r) :=
  fun m => ⟨rfl, hr m.size⟩

/-- Writing a byte fails outside memory only, and keeps the size. -/
theorem obeys_writeByte (a : Nat) (v : UInt8) : conduct.Obeys (writeByte a v) := by
  intro m
  unfold writeByte
  split
  · exact ⟨m.size_setByte a v, fun e h => nomatch h⟩
  · exact ⟨rfl, FailsOnly.error trivial⟩

theorem obeys_writeWord (a : Nat) (v : UInt16) : conduct.Obeys (writeWord a v) := by
  intro m
  unfold writeWord
  split
  · refine ⟨?_, fun e h => nomatch h⟩
    show ((m.setByte a (highByte v)).setByte (a + 1) (lowByte v)).size = m.size
    rw [size_setByte, size_setByte]
  · exact ⟨rfl, FailsOnly.error trivial⟩

theorem obeys_writeBytes (bs : List UInt8) (a : Nat) : conduct.Obeys (writeBytes a bs) := by
  induction bs generalizing a with
  | nil => exact .pure ()
  | cons b bs ih => exact (obeys_writeByte a b).bind fun _ => ih (a + 1)

/-- A word that is written leaves all bytes outside of it as they are. -/
theorem getElem?_writeWord {a x : Nat} (v : UInt16) (m : Memory) (hx : x < a ∨ a + 2 ≤ x) :
    (writeWord a v m).2.bytes[x]? = m.bytes[x]? := by
  unfold writeWord
  split
  · rw [getElem?_setByte_ne _ _ (by omega), getElem?_setByte_ne _ _ (by omega)]
  · rfl

end Memory

open Conduct

/-! ## Objects -/

namespace ObjectTable

variable (t : ObjectTable)

/-- A link can be set of an object in memory. -/
theorem obeys_setLink (l : Link) (o target : UInt16) :
    Memory.conduct.Obeys (t.setLink l o target) := by
  have hwrite : Memory.conduct.Obeys (do
      let e ← .ofExcept (t.entry o)
      Memory.writeByte (e + l.offset) (UInt8.ofNat target.toNat)) :=
    (Memory.obeys_ofExcept fun n => t.failsOnly_entry o).bind fun e => Memory.obeys_writeByte _ _
  unfold setLink
  split
  · exact (Obeys.fail fun _ => trivial).bind fun _ => hwrite
  · exact hwrite

/-- A conduct that allows to read the links of objects and to set them. -/
structure Relinks (C : Conduct Memory) : Prop where
  entry : ∀ o, C.Obeys (Action.ofExcept (t.entry o))
  link : ∀ l o, C.Obeys (Action.ask (t.link · l o))
  setLink : ∀ l o target, C.Obeys (t.setLink l o target)

namespace Relinks

variable {t} {C : Conduct Memory} (h : t.Relinks C)

include h

/-- Searching the siblings for an object obeys whatever reading and setting links obeys. -/
theorem bypass (o next : UInt16) (fuel : Nat) (previous : UInt16) :
    C.Obeys (t.bypass o next fuel previous) := by
  induction fuel generalizing previous with
  | zero => exact .pure ()
  | succ fuel ih =>
      rw [ObjectTable.bypass]
      split
      · exact .pure ()
      · refine (h.link .sibling previous).bind ?_
        intro s
        split
        · exact h.setLink _ _ _
        · exact ih s

theorem remove (o : UInt16) : C.Obeys (t.remove o) := by
  have hunlink : C.Obeys (do
      t.setLink .parent o 0
      t.setLink .sibling o 0) :=
    (h.setLink _ _ _).bind fun _ => h.setLink _ _ _
  unfold ObjectTable.remove
  refine (h.link .parent o).bind ?_
  intro parent
  split
  · exact .pure ()
  · refine (h.link .sibling o).bind ?_
    intro next
    refine (h.link .child parent).bind ?_
    intro first
    dsimp only
    split
    · exact (h.setLink _ _ _).bind fun _ => hunlink
    · exact (h.bypass _ _ _ _).bind fun _ => hunlink

theorem insert (o destination : UInt16) : C.Obeys (t.insert o destination) := by
  unfold ObjectTable.insert
  refine (h.entry destination).bind ?_
  intro _
  refine (h.remove o).bind ?_
  intro _
  refine (h.link .child destination).bind ?_
  intro first
  exact (h.setLink _ _ _).bind fun _ => (h.setLink _ _ _).bind fun _ => h.setLink _ _ _

end Relinks

/-- Moving objects keeps the size of memory, and fails with faults of work. -/
theorem relinks_conduct : t.Relinks Memory.conduct where
  entry o := Memory.obeys_ofExcept fun _ => t.failsOnly_entry o
  link l o := Memory.obeys_ask fun _ => t.failsOnly_link o l
  setLink := t.obeys_setLink

theorem obeys_setAttribute (o a : UInt16) (on : Bool) :
    Memory.conduct.Obeys (t.setAttribute o a on) := by
  rw [setAttribute_eq]
  split
  · exact .pure ()
  · refine (Memory.obeys_ofExcept fun n => t.failsOnly_entry o).bind ?_
    intro e
    refine (Memory.obeys_ask fun m => m.failsOnly_byteAt _).bind ?_
    intro b
    exact Memory.obeys_writeByte _ _

theorem obeys_putProperty (o p value : UInt16) :
    Memory.conduct.Obeys (t.putProperty o p value) := by
  unfold putProperty
  refine (Memory.obeys_ask fun m => t.failsOnly_find? o _).bind ?_
  intro found
  split
  · exact Memory.obeys_writeByte _ _
  · exact Memory.obeys_writeWord _ _
  · exact .fail fun _ => trivial
  · exact .fail fun _ => trivial

end ObjectTable

/-! ## Words of a line -/

namespace Token

theorem byteLength_cons (c : Char) (cs : List Char) :
    byteLength (c :: cs) = c.utf8Size + byteLength cs :=
  rfl

theorem byteLength_append (cs ds : List Char) :
    byteLength (cs ++ ds) = byteLength cs + byteLength ds := by
  induction cs with
  | nil => exact (Nat.zero_add _).symm
  | cons c cs ih => rw [List.cons_append, byteLength_cons, byteLength_cons, ih, Nat.add_assoc]

theorem byteLength_reverse (cs : List Char) : byteLength cs.reverse = byteLength cs := by
  induction cs with
  | nil => rfl
  | cons c cs ih =>
      rw [List.reverse_cons, byteLength_append, ih, byteLength_cons]
      exact Nat.add_comm _ _

/-- The token is where it says in a text that starts at a position, and it is not empty. -/
def LiesIn (t : Token) (start : Nat) (line : List Char) : Prop :=
  t.text.toList ≠ [] ∧ ∃ before after, line = before ++ t.text.toList ++ after ∧
    t.position = start + byteLength before

variable {t : Token} {start : Nat} {line : List Char}

/-- A token lies in a line that goes on. -/
theorem LiesIn.append_right (h : t.LiesIn start line) (more : List Char) :
    t.LiesIn start (line ++ more) := by
  obtain ⟨hne, before, after, rfl, hposition⟩ := h
  exact ⟨hne, before, after ++ more, List.append_assoc _ _ _, hposition⟩

/-- A token lies in a line that begins earlier. -/
theorem LiesIn.append_left {more : List Char} (h : t.LiesIn (start + byteLength more) line) :
    t.LiesIn start (more ++ line) := by
  obtain ⟨hne, before, after, rfl, hposition⟩ := h
  refine ⟨hne, more ++ before, after, ?_, ?_⟩
  · simp only [List.append_assoc]
  · rw [hposition, byteLength_append, Nat.add_assoc]

/-- A token begins before the line ends. -/
theorem LiesIn.position_lt (h : t.LiesIn start line) : t.position < start + byteLength line := by
  obtain ⟨hne, before, after, rfl, hposition⟩ := h
  obtain ⟨c, cs, htext⟩ := List.exists_cons_of_ne_nil hne
  have hc := Char.utf8Size_pos c
  rw [hposition, byteLength_append, byteLength_append, htext, byteLength_cons]
  omega

/-- A word that was begun lies where it was begun. -/
theorem liesIn_of_mem_ofReversed {begun : List Char}
    (ht : t ∈ ofReversed begun (start + byteLength begun)) : t.LiesIn start begun.reverse := by
  cases begun with
  | nil => exact nomatch ht
  | cons c cs =>
      obtain rfl := List.mem_singleton.mp ht
      refine ⟨?_, [], [], ?_, Nat.add_sub_cancel _ _⟩
      · rw [String.toList_ofList]
        exact List.reverse_ne_nil_iff.mpr (List.cons_ne_nil c cs)
      · rw [String.toList_ofList, List.nil_append, List.append_nil]

/-- Every token lies where it says in the line. The word that has been begun is the part of
    the line just before the rest. -/
theorem liesIn_of_mem_splitFrom {isSeparator : Char → Bool} {cs begun : List Char}
    (ht : t ∈ splitFrom isSeparator begun (start + byteLength begun) cs) :
    t.LiesIn start (begun.reverse ++ cs) := by
  induction cs generalizing begun start with
  | nil =>
      rw [List.append_nil]
      exact liesIn_of_mem_ofReversed ht
  | cons c cs ih =>
      -- what the character leaves for the rest of the line to be split from
      have hrest : ∀ (start' : Nat) {begun' : List Char},
          t ∈ splitFrom isSeparator begun' (start + byteLength begun + c.utf8Size) cs →
          start' + byteLength begun' = start + byteLength begun + c.utf8Size →
          t.LiesIn start' (begun'.reverse ++ cs) := by
        intro start' begun' hmem hstart
        rw [← hstart] at hmem
        exact ih hmem
      have hafter : t ∈ splitFrom isSeparator [] (start + byteLength begun + c.utf8Size) cs →
          t.LiesIn start (begun.reverse ++ c :: cs) := by
        intro hmem
        have hstart : start + byteLength (begun.reverse ++ [c]) =
            start + byteLength begun + c.utf8Size := by
          rw [byteLength_append, byteLength_reverse, ← Nat.add_assoc]
          rfl
        have hlies := (hrest _ hmem hstart).append_left
        rw [List.append_assoc] at hlies
        exact hlies
      rw [splitFrom] at ht
      split at ht
      · rcases List.mem_append.mp ht with ht | ht
        · exact (liesIn_of_mem_ofReversed ht).append_right (c :: cs)
        rcases List.mem_cons.mp ht with rfl | ht
        · refine ⟨?_, begun.reverse, cs, ?_, ?_⟩
          · rw [String.toList_singleton]
            exact List.cons_ne_nil c []
          · rw [String.toList_singleton, List.append_assoc]
            rfl
          · rw [byteLength_reverse]
        · exact hafter ht
      · split at ht
        · rcases List.mem_append.mp ht with ht | ht
          · exact (liesIn_of_mem_ofReversed ht).append_right (c :: cs)
          · exact hafter ht
        · have hlies := hrest start ht (by rw [byteLength_cons]; omega)
          rw [List.reverse_cons, List.append_assoc] at hlies
          exact hlies

/-- The bytes of a text are those of its characters. -/
theorem utf8ByteSize_ofList (cs : List Char) :
    (String.ofList cs).utf8ByteSize = byteLength cs := by
  induction cs with
  | nil => rfl
  | cons c cs ih =>
      rw [String.ofList_cons, String.utf8ByteSize_append, String.utf8ByteSize_singleton, ih,
        byteLength_cons]

/-- Every character has at least one byte, so a text with a character is not empty. -/
theorem byteLength_pos (c : Char) (cs : List Char) : 0 < byteLength (c :: cs) := by
  have := Char.utf8Size_pos c
  rw [byteLength_cons]
  omega

theorem dropBytes?_append (cs ds : List Char) :
    dropBytes? (byteLength cs) (cs ++ ds) = some ds := by
  induction cs with
  | nil => cases ds <;> rfl
  | cons c cs ih =>
      obtain ⟨n, hn⟩ := Nat.exists_eq_add_one.mpr (byteLength_pos c cs)
      rw [hn, List.cons_append, dropBytes?, ← hn, byteLength_cons, if_pos (Nat.le_add_right _ _),
        Nat.add_sub_cancel_left, ih]

/-- Taking the bytes of some characters takes these characters. -/
theorem takeBytes?_append (cs ds : List Char) :
    takeBytes? (byteLength cs) (cs ++ ds) = some cs := by
  induction cs with
  | nil => cases ds <;> rfl
  | cons c cs ih =>
      obtain ⟨n, hn⟩ := Nat.exists_eq_add_one.mpr (byteLength_pos c cs)
      rw [hn, List.cons_append, takeBytes?, ← hn, byteLength_cons, if_pos (Nat.le_add_right _ _),
        Nat.add_sub_cancel_left, ih]
      rfl

/-- A token that lies in a line where it says can be cut out of it. -/
theorem LiesIn.cut_eq {line : String} (h : t.LiesIn 0 line.toList) : t.cut line = .ok t := by
  obtain ⟨-, before, after, hline, hposition⟩ := h
  have hdrop : dropBytes? t.position line.toList = some (t.text.toList ++ after) := by
    rw [hposition, Nat.zero_add, hline, List.append_assoc, dropBytes?_append]
  have htake : takeBytes? t.text.utf8ByteSize (t.text.toList ++ after) = some t.text.toList := by
    rw [← String.ofList_toList (s := t.text), utf8ByteSize_ofList, String.toList_ofList,
      takeBytes?_append]
  rw [cut, hdrop, Option.bind_some, htake]
  show Except.ok { t with text := String.ofList t.text.toList } = .ok t
  rw [String.ofList_toList]

/-- The bytes of a text in printable ASCII are its characters. -/
theorem byteLength_eq_length {cs : List Char} (h : ∀ c ∈ cs, c ≤ '~') :
    byteLength cs = cs.length := by
  induction cs with
  | nil => rfl
  | cons c cs ih =>
      have hc : c.utf8Size = 1 := by
        have hle : c.val ≤ '~'.val := h c List.mem_cons_self
        exact Char.utf8Size_eq_one_iff.mpr (UInt32.le_trans hle (by decide))
      rw [byteLength_cons, hc, ih fun d hd => h d (List.mem_cons_of_mem c hd), List.length_cons]
      omega

end Token

namespace Dictionary

variable (d : Dictionary)

/-- Every token of a line lies in it where it says. -/
theorem liesIn_of_mem_split {cs : List Char} {t : Token} (ht : t ∈ d.split (String.ofList cs)) :
    t.LiesIn 0 cs := by
  rw [split, String.toList_ofList] at ht
  have hmem : t ∈ Token.splitFrom d.isSeparator [] (0 + Token.byteLength []) cs := ht
  exact Token.liesIn_of_mem_splitFrom hmem

/-- Cutting the words of a line out of it yields the words. -/
theorem cutLine_eq (line : String) : d.cutLine line = .ok (d.split line) := by
  have hcut : ∀ t ∈ d.split line, t.cut line = .ok t := by
    intro t ht
    rw [← String.ofList_toList (s := line)] at ht
    exact (d.liesIn_of_mem_split ht).cut_eq
  rw [cutLine]
  generalize d.split line = tokens at hcut
  induction tokens with
  | nil => rfl
  | cons t tokens ih =>
      obtain ⟨ht, htokens⟩ := List.forall_mem_cons.mp hcut
      rw [List.mapM_cons, ht, ih htokens]
      rfl

/-- The tokens are those of the line, as many as there is room for. -/
theorem tokenise_eq_split (line : String) (buffer : Nat) : d.tokenise line buffer = (do
    let room ← .ask (·.byteAt buffer)
    let tokens := (d.split line).take room.toNat
    Memory.writeByte (buffer + 1) (UInt8.ofNat tokens.length)
    d.writeEntries (buffer + 2) tokens) := by
  rw [tokenise, cutLine_eq]
  rfl

/-- In a line that fits into a text buffer, positions fit into a byte. -/
theorem position_lt_of_mem_split {cs : List Char} {t : Token} (hascii : ∀ c ∈ cs, c ≤ '~')
    (hlength : cs.length ≤ 254) (ht : t ∈ d.split (String.ofList cs)) : t.position < 255 := by
  have hlt := (d.liesIn_of_mem_split ht).position_lt
  rw [Token.byteLength_eq_length hascii] at hlt
  omega

/-- Tokens whose positions fit into a byte can be written. -/
theorem obeys_writeEntries {tokens : List Token} (h : ∀ t ∈ tokens, t.position < 255) (a : Nat) :
    Memory.conduct.Obeys (d.writeEntries a tokens) := by
  induction tokens generalizing a with
  | nil => exact .pure ()
  | cons t rest ih =>
      have ht : t.position < 255 := h t List.mem_cons_self
      rw [writeEntries]
      refine (Memory.obeys_ask fun m => d.failsOnly_lookup t.text).bind ?_
      intro found
      refine (Memory.obeys_writeWord _ _).bind fun _ => ?_
      refine (Memory.obeys_writeByte _ _).bind fun _ => ?_
      dsimp only
      split
      -- The defect would need a token past the positions that a line can have.
      · omega
      · exact (Memory.obeys_writeByte _ _).bind fun _ =>
          ih (fun u hu => h u (List.mem_cons_of_mem t hu)) _

/-- A line in printable ASCII of at most 254 characters can be cut into words. -/
theorem obeys_tokenise {cs : List Char} (hascii : ∀ c ∈ cs, c ≤ '~') (hlength : cs.length ≤ 254)
    (buffer : Nat) : Memory.conduct.Obeys (d.tokenise (String.ofList cs) buffer) := by
  rw [tokenise_eq_split]
  refine (Memory.obeys_ask fun m => m.failsOnly_byteAt buffer).bind ?_
  intro room
  refine (Memory.obeys_writeByte _ _).bind fun _ => ?_
  refine d.obeys_writeEntries ?_ _
  intro t ht
  exact d.position_lt_of_mem_split hascii hlength (List.mem_of_mem_take ht)

end Dictionary

namespace Machine

/-- No more is stored than there is room for. -/
theorem length_storedText_le (line : String) (room : Nat) :
    (storedText line room).length ≤ room :=
  List.length_take_le _ _

/-- A text buffer holds printable ASCII only. -/
theorem le_of_mem_storedText {line : String} {room : Nat} {c : Char}
    (h : c ∈ storedText line room) : c ≤ '~' := by
  obtain ⟨b, -, hb⟩ := List.mem_map.mp (List.mem_of_mem_take h)
  split at hb
  · next hprintable => exact hb ▸ hprintable.2
  · exact hb ▸ (by decide)

/-- Storing a line of input keeps the size of memory, and fails with faults of work. -/
theorem obeys_storeLine (d : Dictionary) (line : String) (text parse : Nat) :
    Memory.conduct.Obeys (storeLine d line text parse) := by
  unfold storeLine
  refine (Memory.obeys_ask fun m => m.failsOnly_byteAt text).bind ?_
  intro size
  refine (Memory.obeys_writeBytes _ _).bind fun _ => ?_
  -- The size of the buffer is a byte, and one of its places is for the end of the text.
  refine d.obeys_tokenise (fun c => le_of_mem_storedText) ?_ parse
  have := length_storedText_le line (size.toNat - 1)
  have := size.toNat_lt
  omega

theorem obeys_appendText (table : Nat) (text : String) :
    Memory.conduct.Obeys (appendText table text) := by
  rw [appendText_counts]
  refine (Memory.obeys_ask fun m => m.failsOnly_wordAt table).bind ?_
  intro count
  exact (Memory.obeys_writeBytes _ _).bind fun _ => Memory.obeys_writeWord _ _

end Machine

end ZMachine
