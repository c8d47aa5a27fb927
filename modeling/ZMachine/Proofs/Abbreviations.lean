import Mathlib.Data.List.Forall2
import ZMachine.Proofs.Spelling

/-! # Abbreviations

    A string in memory is spelled by its own codes; where these refer to the
    abbreviation table, the text of another string stands in, which may refer to
    further ones. This file says what comes of decoding, on any memory:

    * `Spans`: the words of a string are those up to the first one that is
      marked, and the decoder finds them whenever they lie in memory
      (`Extent.spans`, `Spans.starting_eq`);
    * `Stands`, `Expands`: a character stands for itself and a reference for the
      text of its string, decoded alone and from its start;
    * `Chain`: how references lead from string to string. Decoding succeeds
      exactly if all strings at the ends of chains are sound and no chain is too
      long (`exists_decodeNested_iff`).

    The bound on open strings only ever turns a text into a fault: more room
    keeps what was found (`decodeNested_mono`). That is why the text of an
    abbreviation inside another string is the one that it has by itself. -/

namespace ZMachine

/-! ## Sequences of results -/

namespace FailsOnly

variable {α β : Type} {f : α → Except Fault β}

/-- A run over a list yields values exactly if each of its steps does. -/
theorem mapM_eq_ok {l : List α} {bs : List β} :
    l.mapM f = .ok bs ↔ List.Forall₂ (fun a b => f a = .ok b) l bs := by
  induction l generalizing bs with
  | nil =>
      rw [List.mapM_nil, List.forall₂_nil_left_iff]
      constructor
      · intro h
        cases h
        rfl
      · rintro rfl
        rfl
  | cons a l ih =>
      rw [List.mapM_cons, List.forall₂_cons_left_iff, bind_eq_ok]
      constructor
      · rintro ⟨b, hb, h⟩
        obtain ⟨bs', hbs', h⟩ := bind_eq_ok.mp h
        cases h
        exact ⟨b, bs', hb, ih.mp hbs', rfl⟩
      · rintro ⟨b, bs', hb, hbs', rfl⟩
        exact ⟨b, hb, bind_eq_ok.mpr ⟨bs', ih.mpr hbs', rfl⟩⟩

/-- A list of results has a value exactly if each of them has. -/
theorem exists_mapM_eq_ok {l : List α} :
    (∃ bs, l.mapM f = .ok bs) ↔ ∀ a ∈ l, ∃ b, f a = .ok b := by
  simp only [mapM_eq_ok]
  induction l with
  | nil => exact ⟨fun _ a ha => absurd ha List.not_mem_nil, fun _ => ⟨[], .nil⟩⟩
  | cons a l ih =>
      rw [List.forall_mem_cons, ← ih]
      constructor
      · rintro ⟨_, h⟩
        obtain ⟨b, bs, hb, hbs, -⟩ := List.forall₂_cons_left_iff.mp h
        exact ⟨⟨b, hb⟩, ⟨bs, hbs⟩⟩
      · rintro ⟨⟨b, hb⟩, ⟨bs, hbs⟩⟩
        exact ⟨b :: bs, .cons hb hbs⟩

/-- Every value of a run over a list comes from one of its steps. -/
theorem exists_of_mem_mapM {l : List α} {bs : List β} {b : β} (h : l.mapM f = .ok bs)
    (hb : b ∈ bs) : ∃ a ∈ l, f a = .ok b := by
  rw [mapM_eq_ok] at h
  induction h with
  | nil => cases hb
  | @cons a b' l bs hab _ ih =>
      rcases List.mem_cons.mp hb with rfl | hb
      · exact ⟨a, List.mem_cons_self, hab⟩
      · obtain ⟨a', ha', hab'⟩ := ih hb
        exact ⟨a', List.mem_cons_of_mem a ha', hab'⟩

end FailsOnly

/-- A fault that is raised for a word that does not lie in memory. -/
def Memory.Outside (m : Memory) (e : Fault) : Prop :=
  ∃ a, e = m.outside a 2 ∧ m.size ≤ a + 1

/-- Reading a word fails only because it does not lie in memory. -/
theorem Memory.failsOnly_outside (m : Memory) (a : Nat) : FailsOnly m.Outside (m.wordAt a) := by
  unfold wordAt
  split
  · exact .ok _
  · next h => exact .error ⟨a, rfl, Nat.le_of_not_lt h⟩

namespace Text

open ZMachine.Text.Symbol

variable {m : Memory} {table a stop : Nat}

/-! ## The words of a string -/

/-- The words of the string at an address: the one at the address and those after it, up to the
    first that is marked as the last one. The string ends behind that word. -/
structure Spans (m : Memory) (a : Nat) (words : List UInt16) (stop : Nat) : Prop where
  ne_nil : words ≠ []
  word : ∀ i w, words[i]? = some w → m.wordAt (a + 2 * i) = .ok w
  last : ∀ i w, words[i]? = some w → (isLast w = true ↔ i + 1 = words.length)
  stop_eq : stop = a + 2 * words.length

namespace Spans

variable {w : UInt16} {words : List UInt16}

/-- A word that ends a string is a string. -/
theorem single (hw : m.wordAt a = .ok w) (hlast : isLast w = true) : Spans m a [w] (a + 2) where
  ne_nil := List.cons_ne_nil w []
  word i v hv := by
    cases i with
    | zero =>
        cases hv
        exact hw
    | succ i => simp at hv
  last i v hv := by
    cases i with
    | zero =>
        cases hv
        exact ⟨fun _ => rfl, fun _ => hlast⟩
    | succ i => simp at hv
  stop_eq := rfl

/-- A word that does not end a string, followed by a string, is a string. -/
theorem cons (hw : m.wordAt a = .ok w) (hlast : isLast w = false)
    (h : Spans m (a + 2) words stop) : Spans m a (w :: words) stop where
  ne_nil := List.cons_ne_nil w words
  -- The first word is the new one; the others were counted from two bytes further on.
  word i v hv := by
    cases i with
    | zero =>
        cases hv
        exact hw
    | succ i =>
        rw [show a + 2 * (i + 1) = a + 2 + 2 * i by omega]
        exact h.word i v (by simpa using hv)
  -- There is a word behind the new one, so that it may not be the last.
  last i v hv := by
    cases i with
    | zero =>
        cases hv
        have := List.length_pos_iff.mpr h.ne_nil
        rw [hlast, List.length_cons]
        simp only [Bool.false_eq_true, false_iff]
        omega
    | succ i =>
        rw [List.length_cons, Nat.add_right_cancel_iff]
        exact h.last i v (by simpa using hv)
  stop_eq := by
    rw [List.length_cons, h.stop_eq]
    omega

/-- A string of one word consists of a marked word. -/
theorem of_single (h : Spans m a [w] stop) :
    m.wordAt a = .ok w ∧ isLast w = true ∧ stop = a + 2 :=
  ⟨h.word 0 w rfl, (h.last 0 w rfl).mpr rfl, h.stop_eq⟩

/-- Behind a word that is not the only one, the rest of the string is a string. -/
theorem of_cons (h : Spans m a (w :: words) stop) (hwords : words ≠ []) :
    m.wordAt a = .ok w ∧ isLast w = false ∧ Spans m (a + 2) words stop := by
  have hlength := List.length_pos_iff.mpr hwords
  refine ⟨h.word 0 w rfl, ?_, hwords, ?_, ?_, ?_⟩
  · rw [← Bool.not_eq_true, h.last 0 w rfl, List.length_cons]
    omega
  · intro i v hv
    have := h.word (i + 1) v (by simpa using hv)
    rwa [show a + 2 * (i + 1) = a + 2 + 2 * i by omega] at this
  · intro i v hv
    have := h.last (i + 1) v (by simpa using hv)
    rwa [List.length_cons, Nat.add_right_cancel_iff] at this
  · rw [h.stop_eq, List.length_cons]
    omega

end Spans

namespace Extent

/-- The bound on words does not matter once it reaches past the end of memory. -/
theorem ofMemory_succ_of_le {fuel a : Nat} (h : m.size ≤ a + 2 * fuel + 1) :
    ofMemory m (fuel + 1) a = ofMemory m fuel a := by
  induction fuel generalizing a with
  | zero =>
      have hw : m.wordAt a = .error (m.outside a 2) := dif_neg (Nat.not_lt.mpr h)
      simp only [ofMemory, hw]
  | succ fuel ih =>
      have hrest := ih (show m.size ≤ a + 2 + 2 * fuel + 1 by omega)
      simp only [ofMemory] at hrest ⊢
      simp only [hrest]

/-- The extent of a string that ends with its first word. -/
theorem starting_of_last {w : UInt16} (hw : m.wordAt a = .ok w) (hlast : isLast w = true) :
    starting m a = ⟨[w], .ok (a + 2)⟩ := by
  rw [starting, ofMemory, hw]
  exact if_pos hlast

/-- The extent of a string goes on in the next word unless this one ends it. -/
theorem starting_of_not_last {w : UInt16} (hw : m.wordAt a = .ok w) (hlast : isLast w = false) :
    starting m a = ⟨w :: (starting m (a + 2)).words, (starting m (a + 2)).stop⟩ := by
  rw [starting, ofMemory, hw, starting, ofMemory_succ_of_le (by omega)]
  exact if_neg (by rw [hlast]; exact Bool.false_ne_true)

/-- A string that ends consists of the words up to its end. -/
theorem spans {fuel a : Nat} (h : (ofMemory m fuel a).stop = .ok stop) :
    Spans m a (ofMemory m fuel a).words stop := by
  induction fuel generalizing a with
  | zero => cases h
  | succ fuel ih =>
      rw [ofMemory] at h ⊢
      split at h
      · cases h
      · next w hw =>
          split at h
          · next hlast =>
              cases h
              rw [if_pos hlast]
              exact .single hw hlast
          · next hlast =>
              rw [if_neg hlast]
              exact .cons hw (Bool.not_eq_true _ ▸ hlast) (ih h)

/-- Only the end of memory cuts a string short. -/
theorem failsOnly_outside {fuel a : Nat} (h : m.size ≤ a + 2 * fuel + 1) :
    FailsOnly m.Outside (ofMemory m fuel a).stop := by
  induction fuel generalizing a with
  | zero => exact .error ⟨a, rfl, h⟩
  | succ fuel ih =>
      rw [ofMemory]
      split
      · next e he => exact .error (m.failsOnly_outside a e he)
      · split
        · exact .ok _
        · exact ih (by omega)

end Extent

/-- The decoder reads every string that lies in memory, up to its end. -/
theorem Spans.starting_eq {words : List UInt16} (h : Spans m a words stop) :
    Extent.starting m a = ⟨words, .ok stop⟩ := by
  induction words generalizing a with
  | nil => exact absurd rfl h.ne_nil
  | cons w words ih =>
      by_cases hwords : words = []
      · subst hwords
        obtain ⟨hw, hlast, rfl⟩ := h.of_single
        exact Extent.starting_of_last hw hlast
      · obtain ⟨hw, hlast, hrest⟩ := h.of_cons hwords
        rw [Extent.starting_of_not_last hw hlast, ih hrest]

/-! ## What symbols stand for -/

/-- The text of a symbol in a string that may have `nesting` strings open inside. -/
def expand (m : Memory) (table nesting : Nat) : Symbol → Except Fault (List Char)
  | .char c => pure [c]
  | .abbreviation entry => do
      let packed ← m.wordAt (table + 2 * entry)
      let (text, _) ← decodeNested m table nesting (unpack packed)
      pure text
  | .fault e => .error e

/-- One level of decoding: the symbols of the string are expanded one by one. -/
theorem decodeNested_succ (n : Nat) :
    decodeNested m table (n + 1) a =
      (spell (Extent.starting m a).codes).mapM (expand m table n) >>= fun parts =>
        (Extent.starting m a).stop >>= fun stop => pure (parts.flatten, stop) := rfl

/-- An abbreviation stands for the text of the string that its entry points to, one level down. -/
theorem expand_abbreviation_eq_ok {n entry : Nat} {text : List Char} :
    expand m table n (.abbreviation entry) = .ok text ↔
      ∃ packed stop, m.wordAt (table + 2 * entry) = .ok packed ∧
        decodeNested m table n (unpack packed) = .ok (text, stop) := by
  rw [expand, FailsOnly.bind_eq_ok]
  constructor
  · rintro ⟨packed, hpacked, h⟩
    obtain ⟨⟨text', stop⟩, hdecode, h⟩ := FailsOnly.bind_eq_ok.mp h
    cases h
    exact ⟨packed, stop, hpacked, hdecode⟩
  · rintro ⟨packed, stop, hpacked, hdecode⟩
    exact ⟨packed, hpacked, FailsOnly.bind_eq_ok.mpr ⟨(text, stop), hdecode, rfl⟩⟩

/-- A string is decoded exactly if it lies in memory and all of its symbols have a text. -/
theorem decodeNested_eq_ok {n : Nat} {text : List Char} :
    decodeNested m table (n + 1) a = .ok (text, stop) ↔
      ∃ words parts, Spans m a words stop ∧
        (spell (words.flatMap codes)).mapM (expand m table n) = .ok parts ∧
        text = parts.flatten := by
  rw [decodeNested_succ, FailsOnly.bind_eq_ok]
  constructor
  · rintro ⟨parts, hparts, h⟩
    obtain ⟨stop', hstop, h⟩ := FailsOnly.bind_eq_ok.mp h
    cases h
    exact ⟨_, parts, Extent.spans hstop, hparts, rfl⟩
  · rintro ⟨words, parts, hwords, hparts, rfl⟩
    rw [hwords.starting_eq]
    exact ⟨parts, hparts, rfl⟩

/-- Decoding starts with all levels of abbreviations still allowed. -/
theorem decode_eq_ok {text : String} :
    decode m table a = .ok (text, stop) ↔
      decodeNested m table maxNesting a = .ok (text.toList, stop) := by
  rw [decode, FailsOnly.bind_eq_ok]
  constructor
  · rintro ⟨⟨cs, stop'⟩, hdecode, h⟩
    cases h
    rwa [String.toList_ofList]
  · intro h
    refine ⟨_, h, ?_⟩
    show Except.ok (String.ofList text.toList, stop) = _
    rw [String.ofList_toList]

/-! ## Room for more open strings -/

/-- More room for open strings keeps what has been decoded. -/
theorem decodeNested_mono {n k : Nat} {r : List Char × Nat} (hnk : n ≤ k)
    (h : decodeNested m table n a = .ok r) : decodeNested m table k a = .ok r := by
  obtain ⟨text, stop⟩ := r
  -- A reference takes up one place of the room, whatever the room is.
  induction n generalizing k a text stop with
  | zero => cases h
  | succ n ih =>
      obtain ⟨k, rfl⟩ : ∃ k', k = k' + 1 := ⟨k - 1, by omega⟩
      obtain ⟨words, parts, hwords, hparts, rfl⟩ := decodeNested_eq_ok.mp h
      refine decodeNested_eq_ok.mpr ⟨words, parts, hwords, ?_, rfl⟩
      rw [FailsOnly.mapM_eq_ok] at hparts ⊢
      refine hparts.imp ?_
      intro s part hpart
      cases s with
      | char c => exact hpart
      | fault e => cases hpart
      | abbreviation entry =>
          obtain ⟨packed, stop', hpacked, hdecode⟩ := expand_abbreviation_eq_ok.mp hpart
          exact expand_abbreviation_eq_ok.mpr
            ⟨packed, stop', hpacked, ih (by omega) _ _ hdecode⟩

/-- What a symbol stands for: a character for itself, and a reference for the text of the string
    that the table names, decoded alone. -/
inductive Stands (m : Memory) (table : Nat) : Symbol → List Char → Prop where
  | char (c : Char) : Stands m table (.char c) [c]
  | abbreviation {entry stop : Nat} {packed : UInt16} {text : String}
      (hpacked : m.wordAt (table + 2 * entry) = .ok packed)
      (hdecode : decode m table (unpack packed) = .ok (text, stop)) :
      Stands m table (.abbreviation entry) text.toList

/-- What symbols stand for, one after another. -/
inductive Expands (m : Memory) (table : Nat) : List Symbol → List Char → Prop where
  | nil : Expands m table [] []
  | cons {s : Symbol} {ss : List Symbol} {text rest : List Char} (hs : Stands m table s text)
      (hss : Expands m table ss rest) : Expands m table (s :: ss) (text ++ rest)

/-- What a symbol is expanded to is what it stands for. -/
theorem stands_of_expand {n : Nat} {s : Symbol} {text : List Char} (hn : n ≤ maxNesting)
    (h : expand m table n s = .ok text) : Stands m table s text := by
  cases s with
  | char c =>
      cases h
      exact .char c
  | abbreviation entry =>
      obtain ⟨packed, stop, hpacked, hdecode⟩ := expand_abbreviation_eq_ok.mp h
      have := decodeNested_mono hn hdecode
      rw [← String.toList_ofList (l := text)] at this ⊢
      exact .abbreviation hpacked (decode_eq_ok.mpr this)
  | fault e => cases h

/-- The texts of the symbols, put together, are what the symbols stand for. -/
theorem expands_of_mapM {n : Nat} {ss : List Symbol} {parts : List (List Char)}
    (hn : n ≤ maxNesting) (h : ss.mapM (expand m table n) = .ok parts) :
    Expands m table ss parts.flatten := by
  rw [FailsOnly.mapM_eq_ok] at h
  induction h with
  | nil => exact .nil
  | cons hs _ ih => exact .cons (stands_of_expand hn hs) ih

/-- The text of symbols splits wherever the symbols do. -/
theorem expands_append {xs ys : List Symbol} {text : List Char} :
    Expands m table (xs ++ ys) text ↔
      ∃ before behind, text = before ++ behind ∧ Expands m table xs before ∧
        Expands m table ys behind := by
  induction xs generalizing text with
  | nil =>
      constructor
      · intro h
        exact ⟨[], text, rfl, .nil, h⟩
      · rintro ⟨before, behind, rfl, hbefore, hbehind⟩
        cases hbefore
        exact hbehind
  | cons s xs ih =>
      constructor
      · intro h
        cases h with
        | cons hs hrest =>
            obtain ⟨before, behind, rfl, hbefore, hbehind⟩ := ih.mp hrest
            exact ⟨_, behind, (List.append_assoc ..).symm, .cons hs hbefore, hbehind⟩
      · rintro ⟨before, behind, rfl, hbefore, hbehind⟩
        cases hbefore with
        | cons hs hrest =>
            rw [List.append_assoc]
            exact .cons hs (ih.mpr ⟨_, behind, rfl, hrest, hbehind⟩)

/-- The text of symbols around one of them. -/
theorem expands_around {xs ys : List Symbol} {s : Symbol} {text : List Char}
    (h : Expands m table (xs ++ s :: ys) text) :
    ∃ before within behind, text = before ++ within ++ behind ∧ Expands m table xs before ∧
      Stands m table s within ∧ Expands m table ys behind := by
  obtain ⟨before, rest, rfl, hbefore, hrest⟩ := expands_append.mp h
  cases hrest with
  | cons hs hbehind => exact ⟨before, _, _, (List.append_assoc ..).symm, hbefore, hs, hbehind⟩

/-- The text of a string is what its own symbols stand for. -/
theorem expands_of_decode {text : String} (h : decode m table a = .ok (text, stop)) :
    ∃ words, Spans m a words stop ∧
      Expands m table (spell (words.flatMap codes)) text.toList := by
  obtain ⟨words, parts, hwords, hparts, htext⟩ := decodeNested_eq_ok.mp (decode_eq_ok.mp h)
  rw [htext]
  exact ⟨words, hwords, expands_of_mapM (Nat.le_succ 3) hparts⟩

/-! ## References in place -/

namespace Symbol

/-- A code from 1 to 3 starts a reference, whatever the alphabet. -/
theorem next_block {row : Alphabet} {block : Code} (hpos : 1 ≤ block.val) (hle : block.val ≤ 3) :
    next (.none row) block = (none, .abbreviation (block.val - 1)) := by
  have hfirst : ¬ Alphabet.firstCode ≤ block.val :=
    Nat.not_le.mpr (Nat.lt_of_le_of_lt hle (by decide))
  rw [next_none, dif_neg hfirst, if_neg (by omega), if_pos hle]

/-- A reference is spelled by two codes. What stands before it, shifts included, ends there, and
    what follows is spelled as from the start. -/
theorem spell_reference {xs ys : List Code} {block code : Code} {row : Alphabet}
    (hxs : after (.none .lower) xs = .none row) (hpos : 1 ≤ block.val) (hle : block.val ≤ 3) :
    spell (xs ++ block :: code :: ys) =
      spell xs ++ .abbreviation (32 * (block.val - 1) + code.val) :: spell ys := by
  rw [spell, spellFrom_append, hxs, spellFrom, next_block hpos hle]
  rfl

end Symbol

/-! ## Chains of references -/

/-- The codes of one string refer to another one. -/
def Refers (m : Memory) (table a b : Nat) : Prop :=
  ∃ entry packed, .abbreviation entry ∈ spell (Extent.starting m a).codes ∧
    m.wordAt (table + 2 * entry) = .ok packed ∧ b = unpack packed

/-- A number of references lead from one string to another. -/
inductive Chain (m : Memory) (table : Nat) : Nat → Nat → Nat → Prop where
  | here (a : Nat) : Chain m table 0 a a
  | through {n a b c : Nat} (hab : Refers m table a b) (hbc : Chain m table n b c) :
      Chain m table (n + 1) a c

/-- A string that lies in memory and whose references are to entries of a table in memory. -/
def Sound (m : Memory) (table a : Nat) : Prop :=
  ∃ words stop, Spans m a words stop ∧
    ∀ entry, .abbreviation entry ∈ spell (words.flatMap codes) →
      ∃ packed, m.wordAt (table + 2 * entry) = .ok packed

/-- Decoding fails at the end of memory, or where a chain of references uses up the room. -/
theorem failsOnly_chain (n a : Nat) :
    FailsOnly (fun e => m.Outside e ∨ ∃ b, e = .abbreviationDepth b ∧ Chain m table n a b)
      (decodeNested m table n a) := by
  -- On the nesting that is left: a string that is referred to has one level less.
  induction n generalizing a with
  | zero => exact .error (.inr ⟨a, rfl, .here a⟩)
  | succ n ih =>
      rw [decodeNested_succ]
      refine .bind (.mapM_of_mem ?_) fun parts _ => .bind ?_ fun stop _ => .pure _
      · intro s hs
        cases s with
        | char c => exact .pure [c]
        | fault e => exact absurd rfl (ne_fault_of_mem_spellFrom hs e)
        | abbreviation entry =>
            refine .bind ((m.failsOnly_outside _).mono fun _ => .inl) ?_
            intro packed hpacked
            refine .bind ((ih (unpack packed)).mono ?_) fun r _ => .pure r.1
            rintro e (he | ⟨b, rfl, hchain⟩)
            · exact .inl he
            · -- the chain from there is longer by this reference
              exact .inr ⟨b, rfl, .through ⟨entry, packed, hs, hpacked, rfl⟩ hchain⟩
      · exact (Extent.failsOnly_outside (by omega)).mono fun _ => .inl

/-- A string has a text exactly if every chain of references from it stays within the room and
    ends in a sound string. -/
theorem exists_decodeNested_iff {n a : Nat} :
    (∃ r, decodeNested m table n a = .ok r) ↔
      ∀ k b, Chain m table k a b → k < n ∧ Sound m table b := by
  induction n generalizing a with
  | zero =>
      constructor
      · rintro ⟨r, h⟩
        cases h
      · intro h
        exact absurd (h 0 a (.here a)).1 (Nat.lt_irrefl 0)
  | succ n ih =>
      constructor
      · -- A chain ends in the string itself or goes on from one that it refers to.
        rintro ⟨⟨text, stop⟩, h⟩ k b hchain
        obtain ⟨words, parts, hwords, hparts, -⟩ := decodeNested_eq_ok.mp h
        have hsymbols := FailsOnly.exists_mapM_eq_ok.mp ⟨parts, hparts⟩
        cases hchain with
        | here =>
            refine ⟨Nat.succ_pos n, words, stop, hwords, ?_⟩
            intro entry hentry
            obtain ⟨part, hpart⟩ := hsymbols _ hentry
            obtain ⟨packed, _, hpacked, -⟩ := expand_abbreviation_eq_ok.mp hpart
            exact ⟨packed, hpacked⟩
        | through hab hbc =>
            obtain ⟨entry, packed, hentry, hpacked, rfl⟩ := hab
            rw [hwords.starting_eq] at hentry
            obtain ⟨part, hpart⟩ := hsymbols _ hentry
            obtain ⟨packed', stop', hpacked', hdecode⟩ := expand_abbreviation_eq_ok.mp hpart
            cases hpacked.symm.trans hpacked'
            obtain ⟨hk, hb⟩ := ih.mp ⟨_, hdecode⟩ _ b hbc
            exact ⟨Nat.succ_lt_succ hk, hb⟩
      · intro h
        obtain ⟨-, words, stop, hwords, hentries⟩ := h 0 a (.here a)
        have hsymbols : ∀ s ∈ spell (words.flatMap codes),
            ∃ part, expand m table n s = .ok part := by
          intro s hs
          cases s with
          | char c => exact ⟨[c], rfl⟩
          | fault e => exact absurd rfl (ne_fault_of_mem_spellFrom hs e)
          | abbreviation entry =>
              obtain ⟨packed, hpacked⟩ := hentries entry hs
              have hrefers : Refers m table a (unpack packed) := by
                refine ⟨entry, packed, ?_, hpacked, rfl⟩
                rw [hwords.starting_eq]
                exact hs
              -- Chains from there are one shorter than those from here.
              obtain ⟨⟨text, stop'⟩, hdecode⟩ := ih.mpr fun k b hchain =>
                (h (k + 1) b (.through hrefers hchain)).imp_left Nat.lt_of_succ_lt_succ
              exact ⟨text, expand_abbreviation_eq_ok.mpr ⟨packed, stop', hpacked, hdecode⟩⟩
        obtain ⟨parts, hparts⟩ := FailsOnly.exists_mapM_eq_ok.mpr hsymbols
        exact ⟨_, decodeNested_eq_ok.mpr ⟨words, parts, hwords, hparts, rfl⟩⟩

/-- Making text of the characters that were decoded cannot fail. -/
theorem exists_decode_iff :
    (∃ r, decode m table a = .ok r) ↔ ∃ r, decodeNested m table maxNesting a = .ok r := by
  constructor
  · rintro ⟨⟨text, stop⟩, h⟩
    exact ⟨_, decode_eq_ok.mp h⟩
  · rintro ⟨⟨text, stop⟩, h⟩
    rw [← String.toList_ofList (l := text)] at h
    exact ⟨_, decode_eq_ok.mpr h⟩

/-- Decoding fails only outside memory, or at the end of a chain of four abbreviations. -/
theorem failsOnly_decode_chain (a : Nat) :
    FailsOnly (fun e => m.Outside e ∨ ∃ b, e = .abbreviationDepth b ∧ Chain m table 4 a b)
      (decode m table a) :=
  .bind (failsOnly_chain maxNesting a) fun _ _ => .pure _

/-- Decoding a string, on any memory. What is decoded ends behind the first marked word, and its
    text consists of the characters of its own codes and, for each reference, of the text of that
    string alone: codes before a reference, the string behind it and codes after it have no effect
    on one another. Room for more open strings changes no text. The faults are words outside
    memory and chains of four references, and strings without either are decoded. -/
theorem decode_compositional (m : Memory) (table a : Nat) :
    (∀ text stop, decode m table a = .ok (text, stop) →
      ∃ words, Spans m a words stop ∧
        Expands m table (spell (words.flatMap codes)) text.toList ∧
        ∀ xs block code ys row, words.flatMap codes = xs ++ block :: code :: ys →
          after (.none .lower) xs = .none row → 1 ≤ block.val → block.val ≤ 3 →
          ∃ before within behind, text.toList = before ++ within ++ behind ∧
            Expands m table (spell xs) before ∧
            Stands m table (.abbreviation (32 * (block.val - 1) + code.val)) within ∧
            Expands m table (spell ys) behind) ∧
    (∀ n k r, n ≤ k → decodeNested m table n a = .ok r → decodeNested m table k a = .ok r) ∧
    (∀ e, decode m table a = .error e →
      m.Outside e ∨ ∃ b, e = .abbreviationDepth b ∧ Chain m table 4 a b) ∧
    ((∃ r, decode m table a = .ok r) ↔
      ∀ n b, Chain m table n a b → n ≤ 3 ∧ Sound m table b) := by
  refine ⟨?_, fun n k r => decodeNested_mono, failsOnly_decode_chain a, ?_⟩
  · intro text stop h
    obtain ⟨words, hwords, hexpands⟩ := expands_of_decode h
    refine ⟨words, hwords, hexpands, ?_⟩
    intro xs block code ys row hcodes hxs hpos hle
    rw [hcodes, spell_reference hxs hpos hle] at hexpands
    exact expands_around hexpands
  · simp only [exists_decode_iff, exists_decodeNested_iff, maxNesting, Nat.lt_succ_iff]

/-- Memory with two abbreviations: the string at 4 refers to the one at 8 and that one to the one
    at 10. A shift stands before the first reference and at the end of the last string. The table
    at 12 has an entry for the string at 14, which refers to itself. -/
def nestedText : Memory :=
  ⟨#[0x00, 0x04, 0x00, 0x05, 0x10, 0x20, 0xA4, 0xA5, 0x98, 0x21, 0x90, 0xE5,
    0x00, 0x07, 0x84, 0x05]⟩

/-- Shifts stay within their string, and a string that contains itself is given up. -/
theorem decode_compositional_nested :
    decode nestedText 0 4 = .ok ("aBd", 8) ∧
    (∃ before within behind, "aBd".toList = before ++ within ++ behind ∧
      Expands nestedText 0 [] before ∧ Stands nestedText 0 (.abbreviation 0) within ∧
      Expands nestedText 0 [.char 'd'] behind) ∧
    (∀ n b, Chain nestedText 0 n 4 b → n ≤ 3 ∧ Sound nestedText 0 b) ∧
    decode nestedText 12 14 = .error (.abbreviationDepth 14) ∧
    Chain nestedText 12 4 14 14 := by
  have hdecode : decode nestedText 0 4 = .ok ("aBd", 8) := by rfl
  have hself : decode nestedText 12 14 = .error (.abbreviationDepth 14) := by rfl
  obtain ⟨htext, -, -, hchains⟩ := decode_compositional nestedText 0 4
  obtain ⟨words, hwords, -, haround⟩ := htext _ _ hdecode
  cases hwords.starting_eq.symm.trans (show Extent.starting nestedText 4 = _ from rfl)
  refine ⟨hdecode, haround [Code.ofNat 4] (Code.ofNat 1) (Code.ofNat 0)
    [Code.ofNat 9, Code.ofNat 5, Code.ofNat 5] .upper rfl rfl (by decide) (by decide),
    hchains.mp ⟨_, hdecode⟩, hself, ?_⟩
  rcases (decode_compositional nestedText 12 14).2.2.1 _ hself with ⟨b, hb, -⟩ | ⟨b, hb, hchain⟩
  · cases hb
  · cases hb
    exact hchain

end Text

end ZMachine
