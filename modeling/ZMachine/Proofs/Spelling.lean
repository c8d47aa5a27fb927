import Mathlib.Data.Nat.Find
import ZMachine.Proofs.Faults
import ZMachine.Text.Encode

/-! # Dictionary words read back

    A dictionary word is written by looking characters up in the alphabets and
    read by a machine that knows shifts, escapes and abbreviations. This file
    relates the two. Every character is written in one, two or four codes; the
    reader takes them back to the character, up to those that a story cannot
    show, and to the state in which it started. What is cut off in the middle
    of a character, and the shifts that fill up a short word, spell nothing.

    * `Written.spells`: the codes of a character spell it;
    * `Written.spells_cut`: a part of them spells nothing;
    * `spell_take`: the codes of a text, cut anywhere, spell the characters that
      fit as a whole. -/

namespace ZMachine.Text

/-! ## How a character is written -/

/-- The character that is written for one: those outside ASCII count as question marks. -/
def shown (c : Char) : Char := if c.toNat < 128 then c else '?'

/-- The character that is read for one that was written. -/
def readBack (c : Char) : Char :=
  if c = '\n' ∨ c = '\r' then '\n'
  else if ' ' ≤ c ∧ c ≤ '~' then c
  else '?'

/-- The number of codes that a character takes up. -/
def cost (c : Char) : Nat :=
  if c = ' ' ∨ c ∈ Alphabet.lower.characters then 1
  else if c ∈ Alphabet.punctuation.characters ∨ 128 ≤ c.toNat then 2
  else 4

/-- The ways of writing a character: as a space, as a letter, after a shift, or by its number. -/
inductive Written : Char → List Code → Prop where
  | space : Written ' ' [Code.ofNat 0]
  | letter {c : Char} {i : Nat} (hc : Alphabet.lower.characters[i]? = some c) :
      Written c [Code.ofNat (i + 6)]
  | shifted {c : Char} {i : Nat} (hspace : c ≠ ' ') (hlower : c ∉ Alphabet.lower.characters)
      (hc : Alphabet.punctuation.characters[i + 1]? = some (shown c)) :
      Written c [Code.ofNat 5, Code.ofNat (i + 7)]
  | escaped {c : Char} (hspace : c ≠ ' ') (hlower : c ∉ Alphabet.lower.characters)
      (hpunctuation : c ∉ Alphabet.punctuation.characters) (hc : c.toNat < 128) :
      Written c [Code.ofNat 5, Code.ofNat 6, Code.ofNat (c.toNat / 32), Code.ofNat c.toNat]

theorem getElem?_of_findIdx? {cs : List Char} {c : Char} {i : Nat}
    (h : cs.findIdx? (· == c) = some i) : cs[i]? = some c := by
  obtain ⟨hi, heq, -⟩ := List.findIdx?_eq_some_iff_getElem.mp h
  rw [List.getElem?_eq_getElem hi, eq_of_beq heq]

theorem not_mem_of_findIdx? {cs : List Char} {c : Char} (h : cs.findIdx? (· == c) = none) :
    c ∉ cs := by
  intro hc
  have := List.findIdx?_eq_none_iff.mp h c hc
  rw [beq_self_eq_true] at this
  cases this

/-- The alphabets have ASCII characters only. -/
theorem Alphabet.toNat_lt_of_mem {a : Alphabet} {c : Char} (h : c ∈ a.characters) :
    c.toNat < 128 := by
  have hall : a.characters.all (fun c => decide (c.toNat < 128)) = true := by cases a <;> decide
  exact of_decide_eq_true (List.all_eq_true.mp hall c h)

/-- Every character is written in one of these ways. -/
theorem written_charCodes (c : Char) : Written c (charCodes c) := by
  by_cases hspace : c = ' '
  · rw [hspace]
    exact .space
  · rw [charCodes, if_neg hspace]
    by_cases hascii : c.toNat < 128
    · rw [if_pos hascii]
      dsimp only
      cases hlower : Alphabet.lower.place? c with
      | some i => exact .letter (getElem?_of_findIdx? hlower)
      | none =>
          have hlower := not_mem_of_findIdx? hlower
          dsimp only
          cases hp : (Alphabet.punctuation.characters.drop 1).findIdx? (· == c) with
          | some i =>
              have hi := getElem?_of_findIdx? hp
              rw [List.getElem?_drop, Nat.add_comm] at hi
              refine .shifted hspace hlower ?_
              rw [show shown c = c from if_pos hascii]
              exact hi
          | none =>
              refine .escaped hspace hlower ?_ hascii
              intro hc
              -- The first place of the alphabet holds a space.
              rcases List.mem_cons.mp (show c ∈ ' ' :: Alphabet.punctuation.characters.drop 1
                from hc) with hc | hc
              · exact hspace hc
              · exact not_mem_of_findIdx? hp hc
    · have hquestion : shown c = '?' := if_neg hascii
      rw [if_neg hascii]
      dsimp only
      rw [show Alphabet.lower.place? '?' = none by decide,
        show (Alphabet.punctuation.characters.drop 1).findIdx? (· == '?') = some 14 by decide]
      refine .shifted hspace ?_ ?_
      · intro hc
        exact hascii (Alphabet.toNat_lt_of_mem hc)
      · rw [hquestion]
        decide

/-- How a character is written decides on how many codes it takes. -/
theorem Written.length_codes {c : Char} {cs : List Code} (h : Written c cs) :
    cs.length = cost c := by
  cases h with
  | space => rfl
  | letter hc => exact (if_pos (.inr (List.mem_of_getElem? hc))).symm
  | shifted hspace hlower hc =>
      rw [cost, if_neg (not_or.mpr ⟨hspace, hlower⟩), if_pos]
      · rfl
      · by_cases hascii : c.toNat < 128
        · rw [show shown c = c from if_pos hascii] at hc
          exact .inl (List.mem_of_getElem? hc)
        · exact .inr (Nat.le_of_not_lt hascii)
  | escaped hspace hlower hpunctuation hc =>
      rw [cost, if_neg (not_or.mpr ⟨hspace, hlower⟩),
        if_neg (not_or.mpr ⟨hpunctuation, Nat.not_le.mpr hc⟩)]
      rfl

/-- The number of codes of a character. -/
theorem length_charCodes (c : Char) : (charCodes c).length = cost c :=
  (written_charCodes c).length_codes

/-! ## How it is read -/

/-- Characters of the alphabets are read as they were. -/
theorem Alphabet.readBack_of_mem {a : Alphabet} {c : Char} (h : c ∈ a.characters) :
    readBack c = c := by
  have hall : a.characters.all (fun c => readBack c == c) = true := by cases a <;> decide
  exact eq_of_beq (List.all_eq_true.mp hall c h)

/-- Characters outside ASCII are read as question marks. -/
theorem readBack_of_not_ascii {c : Char} (h : 128 ≤ c.toNat) : readBack c = '?' := by
  have hne {d : Char} (hd : d.toNat < 128) : c ≠ d := by
    rintro rfl
    omega
  rw [readBack, if_neg (not_or.mpr ⟨hne (by decide), hne (by decide)⟩), if_neg]
  rintro ⟨-, hc⟩
  have : c.toNat ≤ 126 := hc
  omega

/-- What is looked up in an alphabet is read back as it was written. -/
theorem readBack_eq_shown {a : Alphabet} {c : Char} (h : shown c ∈ a.characters) :
    readBack c = shown c := by
  rw [shown] at h ⊢
  by_cases hascii : c.toNat < 128
  · rw [if_pos hascii] at h ⊢
    exact Alphabet.readBack_of_mem h
  · rw [if_neg hascii]
    exact readBack_of_not_ascii (Nat.le_of_not_lt hascii)

/-- A number in ASCII is read back as the character is, but for the line feed. -/
theorem zscii_toNat {c : Char} (hfeed : c ≠ '\n') (hc : c.toNat < 128) :
    zscii c.toNat = readBack c := by
  by_cases hreturn : c = '\r'
  · subst hreturn
    rfl
  · have hnat : c.toNat ≠ 13 := by
      intro h
      exact hreturn (Char.toNat_inj.mp h)
    rw [zscii, if_neg hnat, readBack, if_neg (not_or.mpr ⟨hfeed, hreturn⟩), Char.ofNat_toNat]
    rfl

namespace Symbol

/-- What is open after codes have been read. -/
def after (p : Pending) : List Code → Pending
  | [] => p
  | code :: rest => after (next p code).2 rest

/-- Codes are spelled in parts, with what is pending between them. -/
theorem spellFrom_append (p : Pending) (xs ys : List Code) :
    spellFrom p (xs ++ ys) = spellFrom p xs ++ spellFrom (after p xs) ys := by
  induction xs generalizing p with
  | nil => rfl
  | cons code xs ih =>
      rw [List.cons_append, spellFrom_cons, spellFrom_cons, after, ih, List.append_assoc]

/-- A code from 6 up stands for a character of the alphabet in force, unless it starts an
    escape. -/
theorem next_character {a : Alphabet} {i : Nat} {c : Char} (hc : a.characters[i]? = some c)
    (hescape : a ≠ .punctuation ∨ i ≠ 0) :
    next (.none a) (Code.ofNat (i + 6)) = (some (char c), .none .lower) := by
  obtain ⟨hi, hget⟩ := List.getElem?_eq_some_iff.mp hc
  have hlength := a.length_characters
  have hval : (Code.ofNat (i + 6)).val = i + 6 := Nat.mod_eq_of_lt (by omega)
  have hfirst : Alphabet.firstCode ≤ (Code.ofNat (i + 6)).val := by
    rw [hval]
    exact Nat.le_add_left 6 i
  -- The only code above the shifts that is no letter is the one that starts an escape.
  rw [next_none, dif_pos hfirst, if_neg]
  · have hcharacter : a.character (Code.ofNat (i + 6)) hfirst = c := by
      rw [Alphabet.character, ← hget, List.get_eq_getElem]
      congr 1
      show (Code.ofNat (i + 6)).val - Alphabet.firstCode = i
      rw [hval]
      exact Nat.add_sub_cancel i 6
    rw [hcharacter]
  · rintro ⟨ha, hcode⟩
    rw [hval] at hcode
    have : i = 0 := Nat.add_right_cancel (hcode.trans (Nat.zero_add 6).symm)
    rcases hescape with h | h
    · exact h ha
    · exact h this

/-- Shifts that nothing follows spell nothing. -/
theorem spellFrom_shifts (a : Alphabet) (n : Nat) :
    spellFrom (.none a) (List.replicate n (Code.ofNat 5)) = [] := by
  induction n generalizing a with
  | zero => rfl
  | succ n ih => exact ih .punctuation

end Symbol

open ZMachine.Text.Symbol

/-- The codes of a character spell what is read for it, and leave nothing open. -/
theorem Written.spells {c : Char} {cs : List Code} (h : Written c cs) :
    spellFrom (.none .lower) cs = [char (readBack c)] ∧
      after (.none .lower) cs = .none .lower := by
  cases h with
  | space => exact ⟨rfl, rfl⟩
  | letter hc =>
      rw [Alphabet.readBack_of_mem (List.mem_of_getElem? hc)]
      simp only [spellFrom, after, next_character hc (.inl fun h => by cases h), and_self]
  | @shifted _ i hspace hlower hc =>
      have hshift : next (.none .lower) (Code.ofNat 5) = (none, .none .punctuation) := rfl
      have hcode : next (.none .punctuation) (Code.ofNat (i + 7)) =
          (some (char (readBack c)), .none .lower) := by
        rw [readBack_eq_shown (List.mem_of_getElem? hc)]
        exact next_character hc (.inr (Nat.succ_ne_zero i))
      simp only [spellFrom, after, hshift, hcode, and_self]
  | escaped hspace hlower hpunctuation hc =>
      have hfeed : c ≠ '\n' := by
        rintro rfl
        exact hpunctuation (by decide)
      -- The two codes hold the number in five bits each.
      have hvalue : 32 * (Code.ofNat (c.toNat / 32)).val + (Code.ofNat c.toNat).val = c.toNat := by
        show 32 * (c.toNat / 32 % 32) + c.toNat % 32 = c.toNat
        omega
      rw [← zscii_toNat hfeed hc]
      refine ⟨?_, rfl⟩
      show [char (zscii (32 * (Code.ofNat (c.toNat / 32)).val + (Code.ofNat c.toNat).val))] = _
      rw [hvalue]

/-- A character that is cut off spells nothing. -/
theorem Written.spells_cut {c : Char} {cs : List Code} (h : Written c cs) {n : Nat}
    (hn : n < cs.length) : spellFrom (.none .lower) (cs.take n) = [] := by
  cases h with
  | space | letter =>
      cases Nat.lt_one_iff.mp hn
      rfl
  | shifted =>
      match n, hn with
      | 0, _ | 1, _ => rfl
  | escaped =>
      match n, hn with
      | 0, _ | 1, _ | 2, _ | 3, _ => rfl

/-! ## Texts -/

/-- The number of codes that characters take up together. -/
def totalCost : List Char → Nat
  | [] => 0
  | c :: cs => cost c + totalCost cs

/-- The number of codes of a text. -/
theorem length_textCodes (s : String) : (textCodes s).length = totalCost (lower s) := by
  rw [textCodes]
  induction lower s with
  | nil => rfl
  | cons c cs ih => rw [List.flatMap_cons, List.length_append, length_charCodes, ih, totalCost]

/-- The leading characters that fit into a number of codes. -/
def fit (room : Nat) : List Char → List Char
  | [] => []
  | c :: cs => if cost c ≤ room then c :: fit (room - cost c) cs else []

/-- The codes of a text, filled up with shifts and cut anywhere, spell the characters that fit. -/
theorem spell_take (room pad : Nat) (cs : List Char) :
    spell ((cs.flatMap charCodes ++ List.replicate pad (Code.ofNat 5)).take room) =
      (fit room cs).map fun c => char (readBack c) := by
  induction cs generalizing room with
  | nil =>
      rw [List.flatMap_nil, List.nil_append, List.take_replicate]
      exact spellFrom_shifts .lower _
  | cons c cs ih =>
      have hc := written_charCodes c
      rw [List.flatMap_cons, List.append_assoc, List.take_append, length_charCodes, spell, fit]
      by_cases hfits : cost c ≤ room
      · obtain ⟨hspells, hafter⟩ := hc.spells
        rw [if_pos hfits, List.take_of_length_le (by rwa [length_charCodes]), spellFrom_append,
          hspells, hafter, List.map_cons, ← ih (room - cost c)]
        rfl
      · rw [if_neg hfits, Nat.sub_eq_zero_of_le (Nat.le_of_not_le hfits), List.take_zero,
          List.append_nil]
        exact hc.spells_cut (by rw [length_charCodes]; omega)

/-- The greatest number of leading characters that fit into a number of codes. -/
def fitting (room : Nat) (cs : List Char) : Nat :=
  Nat.findGreatest (fun k => totalCost (cs.take k) ≤ room) cs.length

/-- The characters that fit are a longest start of the text within the room. -/
theorem exists_fit_eq_take (room : Nat) (cs : List Char) :
    ∃ k ≤ cs.length, fit room cs = cs.take k ∧ totalCost (cs.take k) ≤ room ∧
      ∀ j ≤ cs.length, totalCost (cs.take j) ≤ room → j ≤ k := by
  induction cs generalizing room with
  | nil => exact ⟨0, Nat.le_refl 0, rfl, Nat.zero_le room, fun j hj _ => hj⟩
  | cons c cs ih =>
      rw [fit]
      by_cases hfits : cost c ≤ room
      · -- the first character fits, and the others fit in what is left
        obtain ⟨k, hk, hfit, hcost, hgreatest⟩ := ih (room - cost c)
        refine ⟨k + 1, Nat.succ_le_succ hk, ?_, ?_, ?_⟩
        · rw [if_pos hfits, hfit, List.take_succ_cons]
        · rw [List.take_succ_cons, totalCost]
          omega
        · intro j hj hjcost
          cases j with
          | zero => exact Nat.zero_le _
          | succ j =>
              rw [List.take_succ_cons, totalCost] at hjcost
              exact Nat.succ_le_succ (hgreatest j (Nat.le_of_succ_le_succ hj) (by omega))
      · refine ⟨0, Nat.zero_le _, if_neg hfits, Nat.zero_le _, ?_⟩
        intro j _ hjcost
        cases j with
        | zero => exact Nat.le_refl 0
        | succ j =>
            rw [List.take_succ_cons, totalCost] at hjcost
            omega

/-- The characters that fit are the first ones. -/
theorem fit_eq_take (room : Nat) (cs : List Char) : fit room cs = cs.take (fitting room cs) := by
  obtain ⟨k, hk, hfit, hcost, hgreatest⟩ := exists_fit_eq_take room cs
  have hfitting : fitting room cs = k := by
    refine Nat.findGreatest_eq_iff.mpr ⟨hk, fun _ => hcost, ?_⟩
    intro j hkj hj hjcost
    exact Nat.not_lt.mpr (hgreatest j hj hjcost) hkj
  rw [hfitting, hfit]

/-! ## Keys -/

/-- Three codes have five bits of a word each. -/
theorem toNat_packWord (a b c : Code) :
    (packWord a b c).toNat = 1024 * a.val + 32 * b.val + c.val := by
  have ha := a.isLt
  have hb := b.isLt
  have hc := c.isLt
  rw [packWord, UInt16.toNat_ofNat']
  omega

/-- A word whose number is made of three codes, perhaps with a mark above them, holds these. -/
theorem codes_of_toNat {w : UInt16} {a b c : Code} {mark : Nat}
    (h : w.toNat = 32768 * mark + (1024 * a.val + 32 * b.val + c.val)) :
    codes w = [a, b, c] := by
  have ha := a.isLt
  have hb := b.isLt
  have hc := c.isLt
  have hfirst : Code.ofNat (w.toNat / 1024) = a := Fin.ext (show w.toNat / 1024 % 32 = a by omega)
  have hsecond : Code.ofNat (w.toNat / 32) = b := Fin.ext (show w.toNat / 32 % 32 = b by omega)
  have hthird : Code.ofNat w.toNat = c := Fin.ext (show w.toNat % 32 = c by omega)
  rw [codes, hfirst, hsecond, hthird]

/-- The codes of a word that is not the last. -/
theorem packWord_codes (a b c : Code) :
    isLast (packWord a b c) = false ∧ codes (packWord a b c) = [a, b, c] := by
  have ha := a.isLt
  have hb := b.isLt
  have hc := c.isLt
  have hvalue : (packWord a b c).toNat = 32768 * 0 + (1024 * a.val + 32 * b.val + c.val) := by
    rw [toNat_packWord]
    omega
  refine ⟨beq_eq_false_iff_ne.mpr ?_, codes_of_toNat hvalue⟩
  omega

theorem packLast_codes (a b c : Code) :
    isLast (packWord a b c + 0x8000) = true ∧ codes (packWord a b c + 0x8000) = [a, b, c] := by
  have ha := a.isLt
  have hb := b.isLt
  have hc := c.isLt
  have hvalue : (packWord a b c + 0x8000).toNat =
      32768 * 1 + (1024 * a.val + 32 * b.val + c.val) := by
    rw [UInt16.toNat_add, toNat_packWord]
    show (1024 * a.val + 32 * b.val + c.val + 32768) % 65536 = _
    omega
  refine ⟨beq_iff_eq.mpr ?_, codes_of_toNat hvalue⟩
  omega

/-- The codes of a key are those of its text, filled up with shifts and cut to six. -/
theorem codes_packKey (cs : List Code) :
    codes (packKey cs).first ++ codes (packKey cs).second =
      (cs ++ List.replicate keyLength (Code.ofNat 5)).take keyLength := by
  rw [packKey, (packWord_codes _ _ _).2, (packLast_codes _ _ _).2]
  match cs with
  | [] | [_] | [_, _] | [_, _, _] | [_, _, _, _] | [_, _, _, _, _] => rfl
  | _ :: _ :: _ :: _ :: _ :: _ :: _ => rfl

variable {m : Memory} {a : Nat}

/-- A string of two words ends after the second of them. -/
theorem Extent.starting_eq {w v : UInt16} (hw : m.wordAt a = .ok w) (hv : m.wordAt (a + 2) = .ok v)
    (hfirst : isLast w = false) (hsecond : isLast v = true) :
    Extent.starting m a = ⟨[w, v], .ok (a + 4)⟩ := by
  have hsize := Memory.lt_size_of_wordAt hv
  obtain ⟨n, hn⟩ : ∃ n, m.size = n + 1 := ⟨m.size - 1, by omega⟩
  simp only [starting, hn, ofMemory, hw, hv, hfirst, hsecond]
  rfl

/-- Characters stand for themselves, whatever the abbreviations are. -/
theorem decode_of_spell {table stop : Nat} {cs : List Char}
    (hspell : spell (Extent.starting m a).codes = cs.map char)
    (hstop : (Extent.starting m a).stop = .ok stop) :
    decode m table a = .ok (String.ofList cs, stop) := by
  -- Nothing is referred to, so each symbol is its own part.
  have hparts {f : Symbol → Except Fault (List Char)} (hf : ∀ c, f (char c) = .ok [c]) :
      (cs.map char).mapM f = .ok (cs.map fun c => [c]) := by
    clear hspell
    induction cs with
    | nil => rfl
    | cons c cs ih =>
        rw [List.map_cons, List.mapM_cons, hf, ih]
        rfl
  refine FailsOnly.bind_eq_ok.mpr ⟨(cs, stop), ?_, rfl⟩
  rw [maxNesting, decodeNested]
  refine FailsOnly.bind_eq_ok.mpr ⟨cs.map fun c => [c], ?_, ?_⟩
  · rw [hspell]
    exact hparts fun c => rfl
  · refine FailsOnly.bind_eq_ok.mpr ⟨stop, hstop, ?_⟩
    rw [← List.flatMap_def, List.flatMap_singleton']
    rfl

/-- A dictionary word in memory reads as the characters of its text that fit. -/
theorem decode_key (s : String) {table : Nat} (hfirst : m.wordAt a = .ok (encode s).first)
    (hsecond : m.wordAt (a + 2) = .ok (encode s).second) :
    decode m table a =
      .ok (String.ofList (((lower s).take (fitting keyLength (lower s))).map readBack), a + 4) := by
  have hextent : Extent.starting m a = ⟨[(encode s).first, (encode s).second], .ok (a + 4)⟩ :=
    Extent.starting_eq hfirst hsecond (packWord_codes _ _ _).1 (packLast_codes _ _ _).1
  refine decode_of_spell ?_ (by rw [hextent])
  rw [hextent, Extent.codes]
  show spell (codes (encode s).first ++ (codes (encode s).second ++ [])) = _
  rw [List.append_nil, encode, codes_packKey, textCodes, spell_take, fit_eq_take, List.map_map]
  rfl

/-- Writing a text as a dictionary word and reading it gives back its lower-case form as far as
    it fits into six codes, a character not at all or as a whole; and a text has an exact key
    exactly if all of it fits. -/
theorem decode_encode (s : String) :
    (∀ (m : Memory) (table a : Nat), m.wordAt a = .ok (encode s).first →
      m.wordAt (a + 2) = .ok (encode s).second →
      decode m table a =
        .ok (String.ofList (((lower s).take (fitting 6 (lower s))).map readBack), a + 4)) ∧
    encodeExact s =
      if totalCost (lower s) ≤ 6 then .ok (encode s) else .error (.wordTooLong s) := by
  refine ⟨fun m table a => decode_key s, ?_⟩
  rw [encodeExact, length_textCodes]
  rfl

/-- The tab of this text takes up four codes, of which only three fit: they spell nothing. -/
theorem decode_encode_tab :
    encode "Abc\td" = ⟨0x18E8, 0x94C0⟩ ∧
      decode ⟨#[0x18, 0xE8, 0x94, 0xC0]⟩ 0 0 = .ok ("abc", 4) ∧
      encodeExact "Abc\td" = .error (.wordTooLong "Abc\td") := by
  obtain ⟨hdecode, hexact⟩ := decode_encode "Abc\td"
  have hkey : encode "Abc\td" = ⟨0x18E8, 0x94C0⟩ := by decide
  refine ⟨hkey, ?_, ?_⟩
  · have hfits : ((lower "Abc\td").take (fitting 6 (lower "Abc\td"))).map readBack =
        ['a', 'b', 'c'] := by decide
    rw [hkey, hfits] at hdecode
    exact hdecode ⟨#[0x18, 0xE8, 0x94, 0xC0]⟩ 0 0 rfl rfl
  · rw [hexact, if_neg (by decide)]

end ZMachine.Text
