import Mathlib.Data.List.Sort
import ZMachine.Proofs.LineInput
import ZMachine.Proofs.Utf8

/-! # How a line is cut into tokens

    A line is cut where its spaces and separators are and nowhere else, and
    nothing but spaces is lost. What this means is said by positions in the
    line, without the scan that does it.

    * `Token.CharAt`: the characters of a line and where they start;
    * `Dictionary.IsToken`: a separator, or a word that no further character of
      the line belongs to; `IsToken.eq_of_covers`: those do not overlap;
    * `Dictionary.Cuts`: a list of them that has the rest of a line;
      `cuts_splitFrom`: the scan gives one;
    * `Dictionary.Splits`: what is asked of the tokens of a line; `splits_iff`:
      the tokens that are found meet it and no others do. -/

namespace ZMachine

/-! ## Positions -/

namespace Token

/-- The character starts at the position of the line. -/
def CharAt (line : List Char) (i : Nat) (c : Char) : Prop :=
  ∃ before after, line = before ++ c :: after ∧ i = byteLength before

/-- The position behind the last byte of the token. -/
def stop (t : Token) : Nat := t.position + t.text.utf8ByteSize

/-- The position is that of a byte of the token. -/
def Covers (t : Token) (i : Nat) : Prop := t.position ≤ i ∧ i < t.stop

/-- A token ends behind its bytes. -/
theorem stop_eq (t : Token) : t.stop = t.position + byteLength t.text.toList := by
  rw [stop, ← utf8ByteSize_ofList, String.ofList_toList]

theorem length_encode (cs : List Char) : (Utf8.encode cs).length = byteLength cs := by
  induction cs with
  | nil => rfl
  | cons c cs ih =>
      rw [Utf8.encode_cons, List.length_append, String.length_utf8EncodeChar, ih, byteLength_cons]

variable {line : List Char} {i j : Nat} {c e : Char} {t u : Token}

/-- A token is given by its text and its position. -/
theorem eq_of_text_eq (htext : t.text = u.text) (hposition : t.position = u.position) : t = u := by
  cases t
  cases u
  cases htext
  cases hposition
  rfl

theorem eq_nil_of_byteLength {cs : List Char} (h : byteLength cs = 0) : cs = [] := by
  cases cs with
  | nil => rfl
  | cons c cs =>
      have hsize := Char.utf8Size_pos c
      rw [byteLength_cons] at h
      omega

/-- Of two places where a line is cut, the one at the lower position is the first one. -/
theorem exists_between {xs ys xs' ys' : List Char} (h : xs ++ ys = xs' ++ ys')
    (hle : byteLength xs ≤ byteLength xs') :
    ∃ between, xs' = xs ++ between ∧ ys = between ++ ys' := by
  rcases List.append_eq_append_iff.mp h with hbetween | ⟨between, rfl, rfl⟩
  · exact hbetween
  · rw [byteLength_append] at hle
    obtain rfl : between = [] := eq_nil_of_byteLength (by omega)
    exact ⟨[], by rw [List.append_nil, List.append_nil], rfl⟩

/-- A line has one place at a position. -/
theorem append_inj_of_byteLength {xs ys xs' ys' : List Char} (h : xs ++ ys = xs' ++ ys')
    (heq : byteLength xs = byteLength xs') : xs = xs' ∧ ys = ys' := by
  obtain ⟨between, rfl, rfl⟩ := exists_between h (Nat.le_of_eq heq)
  rw [byteLength_append] at heq
  obtain rfl : between = [] := eq_nil_of_byteLength (by omega)
  exact ⟨(List.append_nil xs).symm, rfl⟩

theorem CharAt.eq (hc : CharAt line i c) (he : CharAt line i e) : c = e := by
  obtain ⟨before, after, rfl, rfl⟩ := hc
  obtain ⟨before', after', hline, hi⟩ := he
  obtain ⟨-, hrest⟩ := append_inj_of_byteLength hline hi
  exact (List.cons.inj hrest).1

/-- A character ends where the next one starts, or before. -/
theorem CharAt.add_size_le (hc : CharAt line i c) (he : CharAt line j e) (hlt : i < j) :
    i + c.utf8Size ≤ j := by
  obtain ⟨before, after, rfl, rfl⟩ := hc
  obtain ⟨before', after', hline, rfl⟩ := he
  obtain ⟨between, rfl, hrest⟩ := exists_between hline (Nat.le_of_lt hlt)
  rw [byteLength_append] at hlt ⊢
  cases between with
  | nil => exact absurd hlt (Nat.lt_irrefl _)
  | cons x xs =>
      obtain ⟨rfl, -⟩ := List.cons.inj hrest
      rw [byteLength_cons]
      omega

theorem CharAt.lt_byteLength (hc : CharAt line i c) : i < byteLength line := by
  obtain ⟨before, after, rfl, rfl⟩ := hc
  have hsize := Char.utf8Size_pos c
  rw [byteLength_append, byteLength_cons]
  omega

/-! ## Tokens that lie in a line -/

/-- No token is empty. -/
theorem LiesIn.position_lt_stop (h : t.LiesIn 0 line) : t.position < t.stop := by
  have hsize : byteLength t.text.toList ≠ 0 := fun hzero => h.1 (eq_nil_of_byteLength hzero)
  rw [stop_eq]
  omega

/-- A token ends where the line does at the latest. -/
theorem LiesIn.stop_le (h : t.LiesIn 0 line) : t.stop ≤ byteLength line := by
  obtain ⟨-, before, after, rfl, hposition⟩ := h
  rw [stop_eq, hposition, byteLength_append, byteLength_append]
  omega

/-- The first character of a token is that of the line. -/
theorem LiesIn.charAt (h : t.LiesIn 0 line) : ∃ c ∈ t.text.toList, CharAt line t.position c := by
  obtain ⟨hne, before, after, rfl, hposition⟩ := h
  obtain ⟨c, cs, htext⟩ := List.exists_cons_of_ne_nil hne
  refine ⟨c, by rw [htext]; exact List.mem_cons_self, before, cs ++ after, ?_, ?_⟩
  · rw [htext, List.append_assoc, List.cons_append]
  · rw [hposition, Nat.zero_add]

/-- The characters of a line at the positions of a token are those of the token. -/
theorem LiesIn.mem_of_covers (h : t.LiesIn 0 line) (hc : CharAt line i c) (hi : t.Covers i) :
    c ∈ t.text.toList := by
  obtain ⟨hlow, hhigh⟩ := hi
  rw [stop_eq] at hhigh
  obtain ⟨-, before, after, rfl, hposition⟩ := h
  obtain ⟨before', after', hline, rfl⟩ := hc
  rw [hposition, Nat.zero_add] at hlow hhigh
  rw [List.append_assoc] at hline
  -- the character is cut off behind the start of the token, and before its end
  obtain ⟨front, rfl, hrest⟩ := exists_between hline hlow
  rw [byteLength_append] at hhigh
  obtain ⟨back, htext, hback⟩ := exists_between hrest.symm (by omega)
  cases back with
  | nil =>
      rw [htext, List.append_nil] at hhigh
      omega
  | cons x xs =>
      obtain ⟨rfl, -⟩ := List.cons.inj hback
      rw [htext]
      exact List.mem_append_right front List.mem_cons_self

/-- A token of a line is given by where it begins and ends. -/
theorem LiesIn.eq_of_stop_eq (ht : t.LiesIn 0 line) (hu : u.LiesIn 0 line)
    (hposition : t.position = u.position) (hstop : t.stop = u.stop) : t = u := by
  rw [stop_eq, stop_eq, hposition] at hstop
  obtain ⟨-, before, after, rfl, hbefore⟩ := ht
  obtain ⟨-, before', after', hline, hbefore'⟩ := hu
  rw [List.append_assoc, List.append_assoc] at hline
  obtain ⟨-, hrest⟩ := append_inj_of_byteLength hline (by omega)
  obtain ⟨htext, -⟩ := append_inj_of_byteLength hrest (by omega)
  exact eq_of_text_eq (String.toList_inj.mp htext) hposition

/-- A token lies in a line exactly if it is not empty and its bytes are found at its position. -/
theorem liesIn_iff : t.LiesIn 0 line ↔
    t.text ≠ "" ∧ Utf8.encode t.text.toList <+: (Utf8.encode line).drop t.position := by
  have hempty : t.text.toList ≠ [] ↔ t.text ≠ "" := not_congr String.toList_eq_nil_iff
  rw [LiesIn, ← hempty]
  constructor
  · rintro ⟨hne, before, after, rfl, hposition⟩
    refine ⟨hne, Utf8.encode after, ?_⟩
    rw [hposition, Nat.zero_add, ← length_encode, List.append_assoc, Utf8.encode_append,
      List.drop_left, Utf8.encode_append]
  · rintro ⟨hne, rest, hbytes⟩
    obtain ⟨before, after, hline, hposition⟩ := Utf8.exists_of_drop_encode hne hbytes.symm
    exact ⟨hne, before, after, hline, by rw [hposition, length_encode, Nat.zero_add]⟩

end Token

namespace Dictionary

open Token

variable (d : Dictionary)

/-! ## Separators and words -/

/-- The character is the one of an ASCII code in the list of separators. -/
def Separates (c : Char) : Prop := ∃ b ∈ d.separators, b.toNat < 128 ∧ b.toNat = c.toNat

/-- The character does not belong to a word. -/
def Breaks (c : Char) : Prop := c = ' ' ∨ d.Separates c

/-- What the test for separators says. -/
theorem isSeparator_iff (c : Char) : d.isSeparator c = true ↔ d.Separates c := by
  rw [isSeparator, Bool.and_eq_true, decide_eq_true_iff, List.contains_iff_mem]
  constructor
  · rintro ⟨hascii, hmem⟩
    have hcode : (UInt8.ofNat c.toNat).toNat = c.toNat := Utf8.toNat_ofNat_of_lt (by omega)
    exact ⟨_, hmem, by rw [hcode]; exact hascii, hcode⟩
  · rintro ⟨b, hmem, hascii, hcode⟩
    rw [← hcode, UInt8.ofNat_toNat]
    exact ⟨hascii, hmem⟩

/-- The token is a single separator. -/
def IsMark (t : Token) : Prop := ∃ c, d.Separates c ∧ t.text = String.singleton c

/-- The token has no space and no separator in it, and one of them or an end of the line on
    each side. -/
structure IsWord (line : List Char) (t : Token) : Prop where
  plain : ∀ c ∈ t.text.toList, ¬ d.Breaks c
  left : t.position = 0 ∨ ∃ i c, CharAt line i c ∧ i + c.utf8Size = t.position ∧ d.Breaks c
  right : t.stop = byteLength line ∨ ∃ c, CharAt line t.stop c ∧ d.Breaks c

/-- The token lies in the line and is a separator or a word of it. -/
def IsToken (line : List Char) (t : Token) : Prop :=
  t.LiesIn 0 line ∧ (d.IsMark t ∨ d.IsWord line t)

variable {d} {line : List Char} {t u : Token} {i : Nat} {c : Char}

/-- A token that is a separator covers that character only. -/
theorem IsMark.eq_of_covers (h : d.IsMark t) (hlies : t.LiesIn 0 line) (hc : CharAt line i c)
    (hi : t.Covers i) : d.Separates c ∧ t = ⟨String.singleton c, i⟩ := by
  obtain ⟨e, he, htext⟩ := h
  have hmem {x : Char} (hx : x ∈ t.text.toList) : x = e := by
    rw [htext, String.toList_singleton] at hx
    exact List.mem_singleton.mp hx
  obtain rfl : c = e := hmem (hlies.mem_of_covers hc hi)
  -- the separator starts where the token does, and there is only one
  obtain ⟨x, hx, hfirst⟩ := hlies.charAt
  obtain rfl : x = c := hmem hx
  have hposition : t.position = i := by
    refine Nat.le_antisymm hi.1 (Nat.le_of_not_lt fun hlt => ?_)
    have hbehind := hfirst.add_size_le hc hlt
    have hbefore := hi.2
    rw [stop, htext, String.utf8ByteSize_singleton] at hbefore
    omega
  exact ⟨he, eq_of_text_eq htext hposition⟩

/-- A text without a break that shares a byte with a word does not start before it. -/
theorem IsWord.position_le (h : d.IsWord line t) (hu : u.LiesIn 0 line)
    (hplain : ∀ c ∈ u.text.toList, ¬ d.Breaks c) (ht : t.Covers i) (hi : u.Covers i) :
    t.position ≤ u.position := by
  refine Nat.le_of_not_lt fun hlt => ?_
  rcases h.left with hzero | ⟨k, e, he, hk, hbreak⟩
  · omega
  · -- the break before the word would belong to the other text
    obtain ⟨x, -, hx⟩ := hu.charAt
    have hsize := Char.utf8Size_pos e
    have hlow : u.position ≤ k := by
      refine Nat.le_of_not_lt fun hbefore => ?_
      have hbehind := he.add_size_le hx hbefore
      omega
    have hcovers : u.Covers k := by
      have hhigh := Nat.lt_of_le_of_lt ht.1 hi.2
      exact ⟨hlow, by omega⟩
    exact hplain e (hu.mem_of_covers he hcovers) hbreak

/-- A text without a break that shares a byte with a word does not end behind it. -/
theorem IsWord.stop_le (h : d.IsWord line t) (hu : u.LiesIn 0 line)
    (hplain : ∀ c ∈ u.text.toList, ¬ d.Breaks c) (ht : t.Covers i) (hi : u.Covers i) :
    u.stop ≤ t.stop := by
  refine Nat.le_of_not_lt fun hlt => ?_
  rcases h.right with hend | ⟨e, he, hbreak⟩
  · have hstop := hu.stop_le
    omega
  · -- as above, with the break behind the word
    have hcovers : u.Covers t.stop := ⟨Nat.le_of_lt (Nat.lt_of_le_of_lt hi.1 ht.2), hlt⟩
    exact hplain e (hu.mem_of_covers he hcovers) hbreak

/-- A character belongs to one token at most. -/
theorem IsToken.eq_of_covers (ht : d.IsToken line t) (hu : d.IsToken line u)
    (hc : CharAt line i c) (hti : t.Covers i) (hui : u.Covers i) : t = u := by
  obtain ⟨htlies, ht⟩ := ht
  obtain ⟨hulies, hu⟩ := hu
  rcases ht with htmark | htword
  · obtain ⟨hseparates, rfl⟩ := htmark.eq_of_covers htlies hc hti
    rcases hu with humark | huword
    · exact (humark.eq_of_covers hulies hc hui).2.symm
    · exact absurd (.inr hseparates) (huword.plain c (hulies.mem_of_covers hc hui))
  · rcases hu with humark | huword
    · obtain ⟨hseparates, -⟩ := humark.eq_of_covers hulies hc hui
      exact absurd (.inr hseparates) (htword.plain c (htlies.mem_of_covers hc hti))
    · refine htlies.eq_of_stop_eq hulies (Nat.le_antisymm ?_ ?_) (Nat.le_antisymm ?_ ?_)
      · exact htword.position_le hulies huword.plain hti hui
      · exact huword.position_le htlies htword.plain hui hti
      · exact huword.stop_le htlies htword.plain hui hti
      · exact htword.stop_le hulies huword.plain hti hui

/-! ## The scan -/

variable (d) in
/-- The tokens have everything of the line from a position on, in order, but the spaces that
    are not separators. -/
structure Cuts (line : List Char) (start : Nat) (ts : List Token) : Prop where
  tokens : ∀ t ∈ ts, d.IsToken line t
  start_le : ∀ t ∈ ts, start ≤ t.position
  apart : ts.Pairwise fun t u => t.stop ≤ u.position
  covered : ∀ i c, CharAt line i c → start ≤ i → c ≠ ' ' ∨ d.Separates c → ∃ t ∈ ts, t.Covers i

variable {ts : List Token} {earlier begun later : List Char} {start : Nat}

/-- No tokens cut off the end of a line. -/
theorem cuts_nil (line : List Char) : d.Cuts line (byteLength line) [] where
  tokens := List.forall_mem_nil _
  start_le := List.forall_mem_nil _
  apart := .nil
  covered := fun _ _ hc hi => absurd hc.lt_byteLength (Nat.not_lt.mpr hi)

/-- A token may be put before those that begin behind it. -/
theorem Cuts.cons (h : d.Cuts line t.stop ts) (ht : d.IsToken line t) :
    d.Cuts line t.position (t :: ts) where
  tokens := List.forall_mem_cons.mpr ⟨ht, h.tokens⟩
  start_le := by
    refine List.forall_mem_cons.mpr ⟨Nat.le_refl _, fun u hu => ?_⟩
    exact Nat.le_trans (Nat.le_of_lt ht.1.position_lt_stop) (h.start_le u hu)
  apart := List.pairwise_cons.mpr ⟨h.start_le, h.apart⟩
  covered := by
    intro i c hc hi hkept
    by_cases hstop : i < t.stop
    · exact ⟨t, List.mem_cons_self, hi, hstop⟩
    · obtain ⟨u, hu, hcovers⟩ := h.covered i c hc (Nat.not_lt.mp hstop) hkept
      exact ⟨u, List.mem_cons_of_mem t hu, hcovers⟩

/-- A space that is not a separator is left out. -/
theorem Cuts.space (h : d.Cuts line (start + ' '.utf8Size) ts) (hspace : CharAt line start ' ')
    (hseparates : ¬ d.Separates ' ') : d.Cuts line start ts where
  tokens := h.tokens
  start_le := fun t ht => Nat.le_trans (Nat.le_add_right _ _) (h.start_le t ht)
  apart := h.apart
  covered := by
    intro i c hc hi hkept
    rcases Nat.eq_or_lt_of_le hi with rfl | hlt
    · obtain rfl := hc.eq hspace
      rcases hkept with hkept | hkept
      · exact absurd rfl hkept
      · exact absurd hkept hseparates
    · exact h.covered i c hc (hspace.add_size_le hc hlt) hkept

/-- A separator is a token. -/
theorem Cuts.mark (h : d.Cuts line (start + c.utf8Size) ts) (hc : CharAt line start c)
    (hseparates : d.Separates c) : d.Cuts line start (⟨String.singleton c, start⟩ :: ts) := by
  have hstop : (⟨String.singleton c, start⟩ : Token).stop = start + c.utf8Size := by
    rw [stop, String.utf8ByteSize_singleton]
  rw [← hstop] at h
  refine h.cons ⟨?_, .inl ⟨c, hseparates, rfl⟩⟩
  obtain ⟨before, after, rfl, rfl⟩ := hc
  refine ⟨?_, before, after, ?_, (Nat.zero_add _).symm⟩
  · rw [String.toList_singleton]
    exact List.cons_ne_nil c []
  · rw [String.toList_singleton, List.append_assoc, List.singleton_append]

/-- The word that has been begun is a token if the line goes on with a break. -/
theorem Cuts.word (h : d.Cuts line (byteLength (earlier ++ begun.reverse)) ts)
    (hline : line = earlier ++ begun.reverse ++ later) (hplain : ∀ c ∈ begun, ¬ d.Breaks c)
    (hleft : ∀ c, earlier.getLast? = some c → d.Breaks c)
    (hright : ∀ c, later.head? = some c → d.Breaks c) :
    d.Cuts line (byteLength earlier)
      (ofReversed begun (byteLength (earlier ++ begun.reverse)) ++ ts) := by
  cases begun with
  | nil =>
      rw [List.reverse_nil, List.append_nil] at h
      exact h
  | cons e es =>
      generalize hword : (e :: es).reverse = word at h hline ⊢
      have hsize : byteLength (e :: es) = byteLength word := by rw [← hword, byteLength_reverse]
      have hlength : byteLength (earlier ++ word) = byteLength earlier + byteLength word :=
        byteLength_append earlier word
      rw [ofReversed, List.singleton_append, hword, hsize, hlength, Nat.add_sub_cancel]
      have hstop : (⟨String.ofList word, byteLength earlier⟩ : Token).stop =
          byteLength (earlier ++ word) := by
        rw [stop_eq, String.toList_ofList, hlength]
      rw [← hstop] at h
      -- The word is a token: it lies in the line, is plain, and is bounded on both sides.
      refine h.cons ⟨⟨?_, earlier, later, ?_, (Nat.zero_add _).symm⟩, .inr ⟨?_, ?_, ?_⟩⟩
      · rw [String.toList_ofList, ← hword]
        exact List.reverse_ne_nil_iff.mpr (List.cons_ne_nil e es)
      · rw [String.toList_ofList, hline]
      · intro c hc
        rw [String.toList_ofList, ← hword, List.mem_reverse] at hc
        exact hplain c hc
      · rcases List.eq_nil_or_concat earlier with rfl | ⟨before, c, rfl⟩
        · exact .inl rfl
        · rw [List.concat_eq_append] at hline hleft ⊢
          refine .inr ⟨byteLength before, c, ⟨before, word ++ later, ?_, rfl⟩, ?_, hleft c ?_⟩
          · rw [hline, List.append_assoc, List.append_assoc, List.singleton_append]
          · exact (byteLength_append before [c]).symm
          · exact List.getLast?_concat
      · rw [hstop]
        cases later with
        | nil => exact .inl (by rw [hline, List.append_nil])
        | cons c after => exact .inr ⟨c, ⟨earlier ++ word, after, hline, rfl⟩, hright c rfl⟩

/-- What the scan returns has the line from the word that has been begun on. -/
theorem cuts_splitFrom {cs : List Char} (hline : line = earlier ++ begun.reverse ++ cs)
    (hplain : ∀ c ∈ begun, ¬ d.Breaks c) (hleft : ∀ c, earlier.getLast? = some c → d.Breaks c) :
    d.Cuts line (byteLength earlier)
      (splitFrom d.isSeparator begun (byteLength (earlier ++ begun.reverse)) cs) := by
  -- `earlier` ends with a break, so that the word that has been begun starts behind one.
  induction cs generalizing earlier begun with
  | nil =>
      have hend : earlier ++ begun.reverse = line := by rw [hline, List.append_nil]
      have hcuts : d.Cuts line (byteLength (earlier ++ begun.reverse)) [] := by
        rw [hend]
        exact cuts_nil line
      have hword := hcuts.word hline hplain hleft fun _ hhead => by cases hhead
      rw [List.append_nil] at hword
      exact hword
  | cons c cs ih =>
      have hc : CharAt line (byteLength (earlier ++ begun.reverse)) c := ⟨_, cs, hline, rfl⟩
      have hnext : byteLength (earlier ++ begun.reverse) + c.utf8Size =
          byteLength (earlier ++ begun.reverse ++ [c]) :=
        (byteLength_append _ [c]).symm
      have hshift : line = earlier ++ begun.reverse ++ [c] ++ cs := by
        rw [hline, List.append_assoc _ [c], List.singleton_append]
      -- behind a break the scan starts anew
      have hafter (hbreak : d.Breaks c) : d.Cuts line
          (byteLength (earlier ++ begun.reverse) + c.utf8Size)
          (splitFrom d.isSeparator [] (byteLength (earlier ++ begun.reverse) + c.utf8Size) cs) := by
        have hcuts := @ih (earlier ++ begun.reverse ++ [c]) []
        rw [List.reverse_nil, List.append_nil, ← hnext] at hcuts
        refine hcuts hshift (List.forall_mem_nil _) fun e he => ?_
        rw [List.getLast?_concat] at he
        rw [← Option.some.inj he]
        exact hbreak
      have hword {ts : List Token} (hbreak : d.Breaks c)
          (hcuts : d.Cuts line (byteLength (earlier ++ begun.reverse)) ts) :=
        hcuts.word hline hplain hleft fun e he => Option.some.inj he ▸ hbreak
      rw [splitFrom]
      split
      · next hseparator =>
          have hseparates := (d.isSeparator_iff c).mp hseparator
          exact hword (.inr hseparates) ((hafter (.inr hseparates)).mark hc hseparates)
      · next hseparator =>
          have hnone : ¬ d.Separates c := fun h => hseparator ((d.isSeparator_iff c).mpr h)
          split
          · next hspace =>
              subst hspace
              exact hword (.inl rfl) ((hafter (.inl rfl)).space hc hnone)
          · next hspace =>
              have hbreak : ¬ d.Breaks c := not_or.mpr ⟨hspace, hnone⟩
              have hreverse :
                  earlier ++ begun.reverse ++ [c] = earlier ++ (c :: begun).reverse := by
                rw [List.reverse_cons, List.append_assoc]
              rw [hnext, hreverse]
              exact ih (by rw [hshift, hreverse])
                (List.forall_mem_cons.mpr ⟨hbreak, hplain⟩) hleft

/-- The tokens of a line cut it from its start. -/
theorem cuts_split (line : String) : d.Cuts line.toList 0 (d.split line) := by
  have hline : line.toList = [] ++ [].reverse ++ line.toList := rfl
  exact cuts_splitFrom hline (List.forall_mem_nil _) fun _ hlast => by cases hlast

/-! ## The tokens of a line -/

variable (d) in
/-- What the tokens of a line are. -/
structure Splits (line : String) (ts : List Token) : Prop where
  increasing : ts.Pairwise fun t u => t.position < u.position
  apart : ts.Pairwise fun t u => t.stop ≤ u.position
  nonempty : ∀ t ∈ ts, t.text ≠ ""
  /-- The bytes of the line from the position of a token on are those of the token. -/
  found : ∀ t ∈ ts, Utf8.encode t.text.toList <+: (Utf8.encode line.toList).drop t.position
  covered : ∀ i c, CharAt line.toList i c → c ≠ ' ' → ∃! t, t ∈ ts ∧ t.Covers i
  spaces : ∀ i, CharAt line.toList i ' ' → ∀ t ∈ ts, t.Covers i → d.Separates ' '
  separators : ∀ i c, CharAt line.toList i c → d.Separates c → ⟨String.singleton c, i⟩ ∈ ts
  words : ∀ t ∈ ts, d.IsMark t ∨ d.IsWord line.toList t

/-- Tokens of a line are words or separators in it. -/
theorem Splits.isToken {line : String} (h : d.Splits line ts) (ht : t ∈ ts) :
    d.IsToken line.toList t :=
  ⟨liesIn_iff.mpr ⟨h.nonempty t ht, h.found t ht⟩, h.words t ht⟩

/-- No token of the line is missing. -/
theorem Splits.mem_iff {line : String} (h : d.Splits line ts) :
    t ∈ ts ↔ d.IsToken line.toList t := by
  refine ⟨h.isToken, fun ht => ?_⟩
  obtain ⟨c, hmem, hc⟩ := ht.1.charAt
  have hcovers : t.Covers t.position := ⟨Nat.le_refl _, ht.1.position_lt_stop⟩
  -- a word is there because the token that has its first character can only be the word itself
  rcases ht.2 with hmark | hword
  · obtain ⟨hseparates, heq⟩ := hmark.eq_of_covers ht.1 hc hcovers
    rw [heq]
    exact h.separators t.position c hc hseparates
  · have hspace : c ≠ ' ' := fun hspace => hword.plain c hmem (.inl hspace)
    obtain ⟨u, ⟨hu, hucovers⟩, -⟩ := h.covered t.position c hc hspace
    rw [ht.eq_of_covers (h.isToken hu) hc hcovers hucovers]
    exact hu

/-- A list of tokens that leaves out nothing but spaces is what is asked for. -/
theorem Cuts.splits {line : String} (h : d.Cuts line.toList 0 ts) : d.Splits line ts where
  increasing := by
    refine h.apart.imp_of_mem fun ht _ hstop => ?_
    exact Nat.lt_of_lt_of_le (h.tokens _ ht).1.position_lt_stop hstop
  apart := h.apart
  nonempty := fun t ht => (liesIn_iff.mp (h.tokens t ht).1).1
  found := fun t ht => (liesIn_iff.mp (h.tokens t ht).1).2
  covered := by
    intro i c hc hspace
    obtain ⟨t, ht, hcovers⟩ := h.covered i c hc (Nat.zero_le i) (.inl hspace)
    refine ⟨t, ⟨ht, hcovers⟩, ?_⟩
    rintro u ⟨hu, hucovers⟩
    exact (h.tokens u hu).eq_of_covers (h.tokens t ht) hc hucovers hcovers
  -- A word has no spaces, so that only a separator can cover one.
  spaces := by
    intro i hspace t ht hcovers
    obtain ⟨hlies, hmark | hword⟩ := h.tokens t ht
    · exact (hmark.eq_of_covers hlies hspace hcovers).1
    · exact absurd (.inl rfl) (hword.plain ' ' (hlies.mem_of_covers hspace hcovers))
  separators := by
    intro i c hc hseparates
    obtain ⟨t, ht, hcovers⟩ := h.covered i c hc (Nat.zero_le i) (.inr hseparates)
    obtain ⟨hlies, hmark | hword⟩ := h.tokens t ht
    · rw [← (hmark.eq_of_covers hlies hc hcovers).2]
      exact ht
    · exact absurd (.inr hseparates) (hword.plain c (hlies.mem_of_covers hc hcovers))
  words := fun t ht => (h.tokens t ht).2

/-- The tokens of a line are found, and what is asked of them determines them. -/
theorem splits_iff (line : String) (ts : List Token) : d.Splits line ts ↔ ts = d.split line := by
  have hsplit : d.Splits line (d.split line) := (cuts_split line).splits
  constructor
  · intro h
    -- both lists have the tokens of the line, in the order of their positions
    have hasymm : Std.Antisymm fun t u : Token => t.position < u.position :=
      ⟨fun _ _ hlt hgt => absurd hgt (Nat.lt_asymm hlt)⟩
    have hirrefl : Std.Irrefl fun t u : Token => t.position < u.position :=
      ⟨fun _ => Nat.lt_irrefl _⟩
    exact h.increasing.eq_of_mem_iff hsplit.increasing fun t => h.mem_iff.trans hsplit.mem_iff.symm
  · rintro rfl
    exact hsplit

end Dictionary

end ZMachine
