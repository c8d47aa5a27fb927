import Mathlib.Data.List.Induction
import ZMachine.Proofs.Abbreviations

/-! # How long a shift lasts

    A shift moves the reader of a string to another alphabet. This file says up to
    where. The alphabet goes back to the first one with every symbol that is
    completed, with one exception: a space is read in any alphabet and leaves it as
    it is. So a shift reaches over spaces to the code after them:

    * `Reads`: what reading one code can be, from which follow what it makes of the
      alphabet (`row_of_next`) and what is open after a symbol (`completes`);
    * `after_eq_shifted_iff`: another alphabet than the first is in force exactly
      behind a shift and any number of spaces;
    * `oneCharacter_iff`: in a string every shift lasts for one character exactly if
      none stands directly before a space.

    A shift that is half of something else, the second code of a reference or part of
    an escape, is none: what counts is that nothing was open where it was read. -/

namespace ZMachine.Text

/-- The code that shifts to an alphabet. -/
def Alphabet.shift? : Alphabet → Option Code
  | .lower => none
  | .upper => some (Code.ofNat 4)
  | .punctuation => some (Code.ofNat 5)

namespace Symbol

/-- Codes that end with a shift to an alphabet, read with nothing open, and spaces. -/
def ShiftedTo (row : Alphabet) (xs : List Code) : Prop :=
  ∃ zs shift n r, row.shift? = some shift ∧
    xs = zs ++ shift :: List.replicate n (Code.ofNat 0) ∧ after (.none .lower) zs = .none r

/-- What is pending after codes can be followed in parts. -/
theorem after_append (p : Pending) (xs ys : List Code) :
    after p (xs ++ ys) = after (after p xs) ys := by
  induction xs generalizing p with
  | nil => rfl
  | cons code xs ih => exact ih (next p code).2

/-- The last code decides on what is pending before it. -/
theorem after_concat (p : Pending) (xs : List Code) (code : Code) :
    after p (xs ++ [code]) = (next (after p xs) code).2 := after_append p xs [code]

/-! ## One code -/

/-- A shift selects its alphabet and yields nothing. -/
theorem next_shift {row : Alphabet} {shift : Code} (h : row.shift? = some shift) (r : Alphabet) :
    next (.none r) shift = (none, .none row) := by
  cases row with
  | lower => cases h
  | upper | punctuation =>
      cases h
      rfl

/-- What reading a code can be: the symbol that it completes, if any, and what is open after it. -/
inductive Reads : Pending → Code → Option Symbol → Pending → Prop where
  | reference (block : Nat) (code : Code) :
      Reads (.abbreviation block) code (some (abbreviation (32 * block + code.val))) (.none .lower)
  | escapeHigh (code : Code) : Reads .escapeHigh code none (.escapeLow (32 * code.val))
  | escaped (high : Nat) (code : Code) :
      Reads (.escapeLow high) code (some (char (zscii (high + code.val)))) (.none .lower)
  | escape {code : Code} (hcode : code.val = Alphabet.firstCode) :
      Reads (.none .punctuation) code none .escapeHigh
  | letter (row : Alphabet) {code : Code} (hcode : Alphabet.firstCode ≤ code.val) :
      Reads (.none row) code (some (char (row.character code hcode))) (.none .lower)
  | space (row : Alphabet) : Reads (.none row) (Code.ofNat 0) (some (char ' ')) (.none row)
  | block (row : Alphabet) {code : Code} (hpos : 1 ≤ code.val) (hle : code.val ≤ 3) :
      Reads (.none row) code none (.abbreviation (code.val - 1))
  | shift (row : Alphabet) {code : Code} {row' : Alphabet} (hshift : row'.shift? = some code) :
      Reads (.none row) code none (.none row')

/-- Every code is read by one of the rules. -/
theorem reads_next (p : Pending) (code : Code) : Reads p code (next p code).1 (next p code).2 := by
  cases p with
  | abbreviation block => exact .reference block code
  | escapeHigh => exact .escapeHigh code
  | escapeLow high => exact .escaped high code
  | none row =>
      rw [next_none]
      -- The codes from 6 up are letters, but for one that starts an escape.
      split
      · next hfirst =>
          split
          · next hescape =>
              obtain ⟨rfl, hcode⟩ := hescape
              exact .escape hcode
          · exact .letter row hfirst
      · next hfirst =>
          have hfirst : code.val < 6 := Nat.lt_of_not_le hfirst
          split
          · next hzero =>
              obtain rfl : code = Code.ofNat 0 := Fin.ext hzero
              exact .space row
          · split
            · next hblock => exact .block row (by omega) hblock
            · split
              · next hfour => exact .shift row (congrArg some (Fin.ext hfour).symm)
              · exact .shift row (congrArg some (Fin.ext (show 5 = code.val by omega)))

/-- A code that leaves an alphabet in force: with nothing open before it, it is a space and keeps
    the alphabet or a shift and changes it; any other code goes back to the first alphabet. -/
theorem row_of_next {p : Pending} {code : Code} {row : Alphabet}
    (h : (next p code).2 = .none row) :
    row = .lower ∨ (p = .none row ∧ code = Code.ofNat 0) ∨
      ∃ r, p = .none r ∧ row.shift? = some code := by
  have hreads := reads_next p code
  rw [h] at hreads
  generalize (next p code).1 = s at hreads
  cases hreads with
  | reference | escaped | letter => exact .inl rfl
  | space => exact .inr (.inl ⟨rfl, rfl⟩)
  | shift r hshift => exact .inr (.inr ⟨r, rfl, hshift⟩)

/-- A code that completes a symbol goes back to the first alphabet, unless it is a space. -/
theorem completes {p q : Pending} {code : Code} {s : Symbol} (h : next p code = (some s, q)) :
    q = .none .lower ∨ (code = Code.ofNat 0 ∧ s = char ' ' ∧ q = p ∧ ∃ row, p = .none row) := by
  have hreads := reads_next p code
  rw [h] at hreads
  cases hreads with
  | reference | escaped | letter => exact .inl rfl
  | space row => exact .inr ⟨rfl, rfl, rfl, row, rfl⟩

/-- A letter is taken from the selected alphabet, which is then forgotten. -/
theorem next_of_firstCode_le {row : Alphabet} {code : Code} (h : Alphabet.firstCode ≤ code.val)
    (hescape : ¬ (row = .punctuation ∧ code.val = Alphabet.firstCode)) :
    next (.none row) code = (some (char (row.character code h)), .none .lower) := by
  rw [next_none, dif_pos h, if_neg hescape]

/-! ## Codes in a row -/

/-- Spaces keep the selected alphabet. -/
theorem after_spaces (r : Alphabet) (n : Nat) :
    after (.none r) (List.replicate n (Code.ofNat 0)) = .none r := by
  induction n with
  | zero => rfl
  | succ n ih => exact ih

/-- Another alphabet than the first is in force exactly behind a shift to it and spaces. -/
theorem after_eq_shifted_iff {row : Alphabet} (hrow : row ≠ .lower) (xs : List Code) :
    after (.none .lower) xs = .none row ↔ ShiftedTo row xs := by
  constructor
  · -- The last code is a space, which takes the shift over from the codes before, or the shift.
    induction xs using List.reverseRecOn with
    | nil =>
        intro h
        cases h
        exact absurd rfl hrow
    | append_singleton xs code ih =>
        intro h
        rw [after_concat] at h
        rcases row_of_next h with hlower | ⟨hxs, rfl⟩ | ⟨r, hxs, hshift⟩
        · exact absurd hlower hrow
        · obtain ⟨zs, shift, n, r, hshift, rfl, hzs⟩ := ih hxs
          refine ⟨zs, shift, n + 1, r, hshift, ?_, hzs⟩
          rw [List.replicate_succ', List.append_assoc, List.cons_append]
        · exact ⟨xs, code, 0, r, hshift, rfl, hxs⟩
  · rintro ⟨zs, shift, n, r, hshift, rfl, hzs⟩
    rw [after_append, hzs, after, next_shift hshift, after_spaces]

/-- The last code adds what it yields. -/
theorem spell_concat (xs : List Code) (code : Code) :
    spell (xs ++ [code]) = spell xs ++ (next (after (.none .lower) xs) code).1.toList := by
  rw [spell, spellFrom_append, spellFrom_cons]
  exact congrArg (spell xs ++ ·) (List.append_nil _)

/-- A code that completes a symbol and leaves nothing behind divides what is spelled. -/
theorem spell_around {xs ys : List Code} {code : Code} {s : Symbol}
    (h : next (after (.none .lower) xs) code = (some s, .none .lower)) :
    spell (xs ++ code :: ys) = spell xs ++ s :: spell ys := by
  rw [spell, spellFrom_append, spellFrom, h]
  rfl

/-- What is open after a code that completes a symbol. -/
theorem after_of_completes {xs : List Code} {code : Code} {s : Symbol}
    (h : spell (xs ++ [code]) = spell xs ++ [s]) :
    after (.none .lower) (xs ++ [code]) = .none .lower ∨
      (code = Code.ofNat 0 ∧ s = char ' ' ∧
        after (.none .lower) (xs ++ [code]) = after (.none .lower) xs ∧
        ∃ row, after (.none .lower) xs = .none row) := by
  rw [spell_concat, List.append_cancel_left_eq] at h
  rw [after_concat]
  exact completes (Prod.ext (Option.toList_eq_singleton_iff.mp h) rfl)

/-! ## Strings in which a shift lasts for one character -/

/-- Every shift of a string lasts for one character: a code is looked up in another alphabet than
    the first only directly behind the shift to it, and the first alphabet is in force behind
    every symbol. -/
structure OneCharacter (cs : List Code) : Prop where
  behindShift : ∀ xs code ys row, cs = xs ++ code :: ys → after (.none .lower) xs = .none row →
    Alphabet.firstCode ≤ code.val → row ≠ .lower →
    ∃ zs shift, xs = zs ++ [shift] ∧ row.shift? = some shift
  behindSymbol : ∀ xs code ys s, cs = xs ++ code :: ys → spell (xs ++ [code]) = spell xs ++ [s] →
    after (.none .lower) (xs ++ [code]) = .none .lower

/-- Somewhere in a string a shift, read with nothing open, is followed by a space. -/
def ShiftsSpace (cs : List Code) : Prop :=
  ∃ zs shift ys r, ∃ row : Alphabet, row.shift? = some shift ∧
    cs = zs ++ shift :: Code.ofNat 0 :: ys ∧ after (.none .lower) zs = .none r

/-- A space behind a shift is shifted. -/
theorem ShiftedTo.shiftsSpace {row : Alphabet} {xs : List Code} (h : ShiftedTo row xs)
    (ys : List Code) : ShiftsSpace (xs ++ Code.ofNat 0 :: ys) := by
  obtain ⟨zs, shift, n, r, hshift, rfl, hzs⟩ := h
  refine ⟨zs, shift, List.replicate n (Code.ofNat 0) ++ ys, r, row, hshift, ?_, hzs⟩
  have hspaces : List.replicate n (Code.ofNat 0) ++ Code.ofNat 0 :: ys =
      Code.ofNat 0 :: (List.replicate n (Code.ofNat 0) ++ ys) := by
    rw [List.append_cons, ← List.replicate_succ', List.replicate_succ, List.cons_append]
  rw [List.append_assoc, List.cons_append, hspaces]

/-- Where another alphabet is in force and no shift has a space behind it, the last code is the
    shift. -/
theorem ShiftedTo.directly {row : Alphabet} {xs ys : List Code} (h : ShiftedTo row xs)
    (hspace : ¬ ShiftsSpace (xs ++ ys)) :
    ∃ zs shift, xs = zs ++ [shift] ∧ row.shift? = some shift := by
  obtain ⟨zs, shift, n, r, hshift, rfl, hzs⟩ := h
  cases n with
  | zero => exact ⟨zs, shift, rfl, hshift⟩
  | succ n =>
      refine absurd ?_ hspace
      refine ⟨zs, shift, List.replicate n (Code.ofNat 0) ++ ys, r, row, hshift, ?_, hzs⟩
      rw [List.append_assoc, List.replicate_succ]
      rfl

/-- A shift lasts for one character unless a space follows it. -/
theorem oneCharacter_iff (cs : List Code) : OneCharacter cs ↔ ¬ ShiftsSpace cs := by
  constructor
  · rintro h ⟨zs, shift, ys, r, row, hshift, rfl, hzs⟩
    -- Behind the space the alphabet is still the one of the shift.
    have hafter : after (.none .lower) (zs ++ [shift]) = .none row := by
      rw [after_concat, hzs, next_shift hshift]
    have hspell : spell (zs ++ [shift] ++ [Code.ofNat 0]) =
        spell (zs ++ [shift]) ++ [char ' '] := by
      rw [spell_concat, hafter]
      rfl
    have hlower := h.behindSymbol _ _ ys _ (List.append_cons zs shift _) hspell
    rw [after_concat, hafter] at hlower
    cases hlower
    cases hshift
  · intro hspace
    constructor
    · rintro xs code ys row rfl hxs - hrow
      exact ((after_eq_shifted_iff hrow xs).mp hxs).directly hspace
    · rintro xs code ys s rfl hs
      rcases after_of_completes hs with hlower | ⟨rfl, -, hkeep, row, hrow⟩
      · exact hlower
      · by_cases hlower : row = .lower
        · rw [hkeep, hrow, hlower]
        · exact absurd (((after_eq_shifted_iff hlower xs).mp hrow).shiftsSpace ys) hspace

end Symbol

open ZMachine.Text.Symbol

/-- How long a shift lasts in a decoded string. A code that is looked up is looked up in another
    alphabet than the first exactly if the codes before it end with a shift to it and any number
    of spaces; its character stands between the text of the codes before it and that of the codes
    after it, read from the start. Every symbol but a space goes back to the first alphabet, and
    a space keeps the one in force. So shifts last for one character exactly if none of them is
    followed by a space. -/
theorem shift_scope {m : Memory} {table a stop : Nat} {text : String}
    (hdecode : decode m table a = .ok (text, stop)) :
    ∃ words, Spans m a words stop ∧
      (∀ xs code ys row, words.flatMap codes = xs ++ code :: ys →
        after (.none .lower) xs = .none row → ∀ hcode : Alphabet.firstCode ≤ code.val,
        (∀ r, r ≠ .lower → (row = r ↔ ShiftedTo r xs)) ∧
        (¬ (row = .punctuation ∧ code.val = Alphabet.firstCode) →
          ∃ before behind, text.toList = before ++ [row.character code hcode] ++ behind ∧
            Expands m table (spell xs) before ∧ Expands m table (spell ys) behind)) ∧
      (∀ xs code ys s, words.flatMap codes = xs ++ code :: ys →
        spell (xs ++ [code]) = spell xs ++ [s] →
        after (.none .lower) (xs ++ [code]) = .none .lower ∨
        (code = Code.ofNat 0 ∧ s = char ' ' ∧
          after (.none .lower) (xs ++ [code]) = after (.none .lower) xs)) ∧
      (OneCharacter (words.flatMap codes) ↔ ¬ ShiftsSpace (words.flatMap codes)) := by
  obtain ⟨words, hwords, hexpands⟩ := expands_of_decode hdecode
  refine ⟨words, hwords, ?_, ?_, oneCharacter_iff _⟩
  · intro xs code ys row hcodes hxs hcode
    constructor
    · intro r hr
      rw [← after_eq_shifted_iff hr, hxs, Pending.none.injEq]
    · intro hescape
      rw [hcodes, spell_around (hxs ▸ next_of_firstCode_le hcode hescape)] at hexpands
      obtain ⟨before, within, behind, htext, hbefore, hwithin, hbehind⟩ := expands_around hexpands
      cases hwithin
      exact ⟨before, behind, htext, hbefore, hbehind⟩
  · intro xs code ys s _ hs
    exact (after_of_completes hs).imp_right fun h => ⟨h.1, h.2.1, h.2.2.1⟩

/-- A shift, two spaces and two letters: the first letter is shifted. -/
theorem shift_scope_capital :
    decode ⟨#[0x10, 0x00, 0x9D, 0x05]⟩ 0 0 = .ok ("  Bc", 4) ∧
    ShiftedTo .upper [Code.ofNat 4, Code.ofNat 0, Code.ofNat 0] ∧
    ∃ before behind, "  Bc".toList = before ++ ['B'] ++ behind ∧
      Expands ⟨#[0x10, 0x00, 0x9D, 0x05]⟩ 0 [.char ' ', .char ' '] before ∧
      Expands ⟨#[0x10, 0x00, 0x9D, 0x05]⟩ 0 [.char 'c'] behind := by
  have hdecode : decode ⟨#[0x10, 0x00, 0x9D, 0x05]⟩ 0 0 = .ok ("  Bc", 4) := by rfl
  obtain ⟨words, hwords, hlookup, -, -⟩ := shift_scope hdecode
  cases hwords.starting_eq.symm.trans
    (show Extent.starting ⟨#[0x10, 0x00, 0x9D, 0x05]⟩ 0 = _ from rfl)
  obtain ⟨hrow, htext⟩ := hlookup [Code.ofNat 4, Code.ofNat 0, Code.ofNat 0] (Code.ofNat 7)
    [Code.ofNat 8, Code.ofNat 5] .upper rfl rfl (by decide)
  exact ⟨hdecode, (hrow .upper (by decide)).mp rfl, htext (by decide)⟩

/-- A shift, a space and a code: the code is shifted although the code directly before it is the
    space. -/
theorem shift_outlives_space :
    (Extent.starting ⟨#[0x94, 0x09]⟩ 0).codes = [Code.ofNat 5, Code.ofNat 0, Code.ofNat 9] ∧
    decode ⟨#[0x94, 0x09]⟩ 0 0 = .ok (" 1", 2) ∧
    ¬ OneCharacter (Extent.starting ⟨#[0x94, 0x09]⟩ 0).codes := by
  refine ⟨rfl, rfl, ?_⟩
  intro h
  obtain ⟨zs, shift, hxs, hshift⟩ := h.behindShift [Code.ofNat 5, Code.ofNat 0] (Code.ofNat 9) []
    .punctuation rfl rfl (by decide) (by decide)
  cases hshift
  have hlast := congrArg List.getLast? hxs
  rw [List.getLast?_concat] at hlast
  exact absurd hlast (by decide)

end ZMachine.Text
