import ZMachine.Text.Utf8

/-! # Characters as bytes

    Reading the bytes of characters gives the characters back. A byte below 128
    stands for the character of this number and for nothing else, so that a
    line ending can be looked for among the bytes.

    * `pieces_encode`, `decode?_encode`, `decodeLossy_encode`: the round trip;
    * `encodeChar_of_mem`, `mem_of_mem_encode`: bytes below 128 are characters;
    * `exists_of_drop_encode`: where the bytes of a text are found, the text is. -/

namespace ZMachine.Utf8

variable {a b : UInt8} {rest : List UInt8} {c : Char}

/-! ## One character -/

theorem pieces_one (h : sequenceLength a.toNat = 1) :
    pieces (a :: rest) = some (Char.ofNat a.toNat) :: pieces rest := by
  rw [pieces.eq_def]
  simp only [h]

theorem pieces_two (h : sequenceLength a.toNat = 2) (hb : isSecond a b = true) :
    pieces (a :: b :: rest) = some (Char.ofNat (extend (a.toNat % 32) b)) :: pieces rest := by
  rw [pieces.eq_def]
  simp only [h, if_pos hb]

theorem pieces_three {d : UInt8} (h : sequenceLength a.toNat = 3) (hb : isSecond a b = true)
    (hd : isFollower d = true) : pieces (a :: b :: d :: rest) =
      some (Char.ofNat (extend (extend (a.toNat % 16) b) d)) :: pieces rest := by
  rw [pieces.eq_def]
  simp only [h, if_pos hb, if_pos hd]

/-- A character of four bytes. -/
theorem pieces_four {d e : UInt8} (h : sequenceLength a.toNat = 4) (hb : isSecond a b = true)
    (hd : isFollower d = true) (he : isFollower e = true) : pieces (a :: b :: d :: e :: rest) =
      some (Char.ofNat (extend (extend (extend (a.toNat % 8) b) d) e)) :: pieces rest := by
  rw [pieces.eq_def]
  simp only [h, if_pos hb, if_pos hd, if_pos he]

/-- What is asked of a second byte, case by case of the first one. -/
theorem isSecond_of (hb : isFollower b = true) (h0 : a.toNat = 0xE0 → 0xA0 ≤ b.toNat)
    (hD : a.toNat = 0xED → b.toNat < 0xA0) (hF : a.toNat = 0xF0 → 0x90 ≤ b.toNat)
    (h4 : a.toNat = 0xF4 → b.toNat < 0x90) : isSecond a b = true := by
  unfold isSecond
  rw [hb, Bool.true_and]
  split
  · next h => exact decide_eq_true (h0 h)
  · next h => exact decide_eq_true (hD h)
  · next h => exact decide_eq_true (hF h)
  · next h => exact decide_eq_true (h4 h)
  · rfl

theorem toNat_ofNat_of_lt {n : Nat} (h : n < 256) : (UInt8.ofNat n).toNat = n :=
  Nat.mod_eq_of_lt h

theorem isFollower_ofNat {n : Nat} (h : n < 64) : isFollower (UInt8.ofNat (n + 128)) = true := by
  rw [isFollower, toNat_ofNat_of_lt (by omega), beq_iff_eq]
  omega

theorem extend_ofNat {high n : Nat} (h : n < 64) :
    extend high (UInt8.ofNat (n + 128)) = 64 * high + n := by
  rw [extend, toNat_ofNat_of_lt (by omega)]
  omega

/-- The number of a character is not that of half a surrogate pair. -/
theorem toNat_valid (c : Char) : c.toNat < 0xD800 ∨ 0xDFFF < c.toNat ∧ c.toNat < 0x110000 :=
  c.valid

/-- The bytes of a character, by their number. -/
theorem encodeChar_eq (c : Char) : String.utf8EncodeChar c =
    if c.toNat ≤ 0x7F then [UInt8.ofNat c.toNat]
    else if c.toNat ≤ 0x7FF then
      [UInt8.ofNat (c.toNat / 64 % 32 + 192), UInt8.ofNat (c.toNat % 64 + 128)]
    else if c.toNat ≤ 0xFFFF then
      [UInt8.ofNat (c.toNat / 4096 % 16 + 224), UInt8.ofNat (c.toNat / 64 % 64 + 128),
        UInt8.ofNat (c.toNat % 64 + 128)]
    else
      [UInt8.ofNat (c.toNat / 262144 % 8 + 240), UInt8.ofNat (c.toNat / 4096 % 64 + 128),
        UInt8.ofNat (c.toNat / 64 % 64 + 128), UInt8.ofNat (c.toNat % 64 + 128)] := rfl

/-- The bytes of a character are read as this character. -/
theorem pieces_encodeChar (c : Char) (rest : List UInt8) :
    pieces (String.utf8EncodeChar c ++ rest) = some c :: pieces rest := by
  have hvalid := toNat_valid c
  have hchar := Char.ofNat_toNat c
  rw [encodeChar_eq]
  generalize c.toNat = n at hvalid hchar ⊢
  have hlast : n % 64 < 64 := Nat.mod_lt n (by decide)
  have hmiddle : n / 64 % 64 < 64 := Nat.mod_lt _ (by decide)
  have hsecond : n / 4096 % 64 < 64 := Nat.mod_lt _ (by decide)
  -- One case for each length. That a second byte is in range needs the bounds of the case: a
  -- shorter encoding would do for a smaller number, and surrogates are excluded by `hvalid`.
  split
  · have hfirst : (UInt8.ofNat n).toNat = n := toNat_ofNat_of_lt (by omega)
    rw [List.singleton_append, pieces_one, hfirst, hchar]
    rw [hfirst, sequenceLength, if_pos (by omega)]
  split
  · have hfirst : (UInt8.ofNat (n / 64 % 32 + 192)).toNat = n / 64 % 32 + 192 :=
      toNat_ofNat_of_lt (by omega)
    rw [List.cons_append, List.singleton_append, pieces_two, extend_ofNat hlast, hfirst]
    · have hnumber : 64 * ((n / 64 % 32 + 192) % 32) + n % 64 = n := by omega
      rw [hnumber, hchar]
    · rw [hfirst, sequenceLength, if_neg (by omega), if_neg (by omega), if_pos (by omega)]
    · refine isSecond_of (isFollower_ofNat hlast) ?_ ?_ ?_ ?_ <;> rw [hfirst] <;> omega
  split
  · have hfirst : (UInt8.ofNat (n / 4096 % 16 + 224)).toNat = n / 4096 % 16 + 224 :=
      toNat_ofNat_of_lt (by omega)
    have hsecond : (UInt8.ofNat (n / 64 % 64 + 128)).toNat = n / 64 % 64 + 128 :=
      toNat_ofNat_of_lt (by omega)
    rw [List.cons_append, List.cons_append, List.singleton_append, pieces_three,
      extend_ofNat hmiddle, extend_ofNat hlast, hfirst]
    · have hnumber : 64 * (64 * ((n / 4096 % 16 + 224) % 16) + n / 64 % 64) + n % 64 = n := by
        omega
      rw [hnumber, hchar]
    · rw [hfirst, sequenceLength, if_neg (by omega), if_neg (by omega), if_neg (by omega),
        if_pos (by omega)]
    · refine isSecond_of (isFollower_ofNat hmiddle) ?_ ?_ ?_ ?_ <;> rw [hfirst, hsecond] <;> omega
    · exact isFollower_ofNat hlast
  · have hfirst : (UInt8.ofNat (n / 262144 % 8 + 240)).toNat = n / 262144 % 8 + 240 :=
      toNat_ofNat_of_lt (by omega)
    have hsecond' : (UInt8.ofNat (n / 4096 % 64 + 128)).toNat = n / 4096 % 64 + 128 :=
      toNat_ofNat_of_lt (by omega)
    rw [List.cons_append, List.cons_append, List.cons_append, List.singleton_append, pieces_four,
      extend_ofNat hsecond, extend_ofNat hmiddle, extend_ofNat hlast, hfirst]
    · have hnumber : 64 * (64 * (64 * ((n / 262144 % 8 + 240) % 8) + n / 4096 % 64)
          + n / 64 % 64) + n % 64 = n := by omega
      rw [hnumber, hchar]
    · rw [hfirst, sequenceLength, if_neg (by omega), if_neg (by omega), if_neg (by omega),
        if_neg (by omega), if_pos (by omega)]
    · refine isSecond_of (isFollower_ofNat hsecond) ?_ ?_ ?_ ?_ <;> rw [hfirst, hsecond'] <;> omega
    · exact isFollower_ofNat hmiddle
    · exact isFollower_ofNat hlast

/-- A byte of a character that is below 128 is all of it. -/
theorem encodeChar_of_mem (hb : b ∈ String.utf8EncodeChar c) (h : b.toNat < 128) :
    c.toNat = b.toNat := by
  rw [encodeChar_eq] at hb
  split at hb
  · next hc =>
      rw [List.mem_singleton.mp hb, toNat_ofNat_of_lt (by omega)]
  · -- all other bytes are at least 128
    exfalso
    have hhigh {n k : Nat} (hk : 128 ≤ k) (hn : n + k < 256) (hb : b = UInt8.ofNat (n + k)) :
        False := by
      rw [hb, toNat_ofNat_of_lt hn] at h
      omega
    split at hb
    · simp only [List.mem_cons, List.not_mem_nil, or_false] at hb
      rcases hb with hb | hb <;> exact hhigh (by decide) (by omega) hb
    split at hb
    · simp only [List.mem_cons, List.not_mem_nil, or_false] at hb
      rcases hb with hb | hb | hb <;> exact hhigh (by decide) (by omega) hb
    · simp only [List.mem_cons, List.not_mem_nil, or_false] at hb
      rcases hb with hb | hb | hb | hb <;> exact hhigh (by decide) (by omega) hb

/-! ## Texts -/

@[simp] theorem encode_nil : encode [] = [] := rfl

@[simp] theorem encode_cons (c : Char) (cs : List Char) :
    encode (c :: cs) = String.utf8EncodeChar c ++ encode cs := rfl

/-- Texts are encoded in parts. -/
theorem encode_append (cs ds : List Char) : encode (cs ++ ds) = encode cs ++ encode ds :=
  List.flatMap_append

/-- The bytes of characters are read as these characters, whatever stands behind them. -/
theorem pieces_encode_append (cs : List Char) (rest : List UInt8) :
    pieces (encode cs ++ rest) = cs.map some ++ pieces rest := by
  induction cs with
  | nil => rfl
  | cons c cs ih =>
      rw [encode_cons, List.append_assoc, pieces_encodeChar, ih, List.map_cons, List.cons_append]

/-- The bytes of characters are cut into these characters. -/
theorem pieces_encode (cs : List Char) : pieces (encode cs) = cs.map some := by
  have h := pieces_encode_append cs []
  rw [List.append_nil, pieces, List.append_nil] at h
  exact h

/-- Nothing is replaced in what was encoded. -/
theorem decodeLossy_encode (cs : List Char) : decodeLossy (encode cs) = String.ofList cs := by
  rw [decodeLossy, pieces_encode, List.map_map]
  exact congrArg String.ofList (List.map_id cs)

/-- What was encoded can be decoded. -/
theorem decode?_encode (cs : List Char) : decode? (encode cs) = some (String.ofList cs) := by
  have hall : (cs.map some).mapM id = some cs := by
    induction cs with
    | nil => rfl
    | cons c cs ih =>
        rw [List.map_cons, List.mapM_cons, ih]
        rfl
  rw [decode?, pieces_encode, hall]
  rfl

/-- A byte below 128 of a text is one of its characters. -/
theorem mem_of_mem_encode {cs : List Char} (hb : b ∈ encode cs) (h : b.toNat < 128) :
    ∃ c ∈ cs, c.toNat = b.toNat := by
  obtain ⟨c, hc, hbc⟩ := List.mem_flatMap.mp hb
  exact ⟨c, hc, encodeChar_of_mem hbc h⟩

/-! ## Finding a text by its bytes -/

/-- Only the bytes behind the first one of a character can follow within it. -/
theorem encodeChar_eq_cons (c : Char) : ∃ first rest, String.utf8EncodeChar c = first :: rest ∧
    isFollower first = false ∧ ∀ b ∈ rest, isFollower b = true := by
  have hvalid := toNat_valid c
  have hlast : c.toNat % 64 < 64 := Nat.mod_lt _ (by decide)
  have hmiddle : c.toNat / 64 % 64 < 64 := Nat.mod_lt _ (by decide)
  have hsecond : c.toNat / 4096 % 64 < 64 := Nat.mod_lt _ (by decide)
  -- First bytes are below 128, or at least 192.
  have hfirst {n : Nat} (hn : n < 256) (hrange : n / 64 ≠ 2) :
      isFollower (UInt8.ofNat n) = false := by
    rw [isFollower, toNat_ofNat_of_lt hn]
    exact beq_false_of_ne hrange
  rw [encodeChar_eq]
  split
  · exact ⟨_, _, rfl, hfirst (by omega) (by omega), List.forall_mem_nil _⟩
  split
  · refine ⟨_, _, rfl, hfirst (by omega) (by omega), ?_⟩
    exact List.forall_mem_singleton.mpr (isFollower_ofNat hlast)
  split
  · refine ⟨_, _, rfl, hfirst (by omega) (by omega), List.forall_mem_cons.mpr ⟨?_, ?_⟩⟩
    · exact isFollower_ofNat hmiddle
    · exact List.forall_mem_singleton.mpr (isFollower_ofNat hlast)
  · refine ⟨_, _, rfl, hfirst (by omega) (by omega), List.forall_mem_cons.mpr
      ⟨isFollower_ofNat hsecond, List.forall_mem_cons.mpr ⟨?_, ?_⟩⟩⟩
    · exact isFollower_ofNat hmiddle
    · exact List.forall_mem_singleton.mpr (isFollower_ofNat hlast)

/-- A text that starts with the bytes of another one starts with its characters. -/
theorem exists_of_encode_eq {cs word : List Char} (h : encode cs = encode word ++ rest) :
    ∃ after, cs = word ++ after := by
  have hpieces : cs.map some = word.map some ++ pieces rest := by
    rw [← pieces_encode, h, pieces_encode_append]
  obtain ⟨front, after, rfl, hfront, -⟩ := List.map_eq_append_iff.mp hpieces
  obtain rfl : front = word := (List.map_inj_right fun _ _ => Option.some.inj).mp hfront
  exact ⟨after, rfl⟩

/-- Where the bytes of a text that is not empty are found among those of another one, it
    is a part of it: no character starts within another. -/
theorem exists_of_drop_encode {cs word : List Char} {position : Nat} (hne : word ≠ [])
    (h : (encode cs).drop position = encode word ++ rest) :
    ∃ before after, cs = before ++ word ++ after ∧ position = (encode before).length := by
  obtain ⟨e, es, rfl⟩ := List.exists_cons_of_ne_nil hne
  obtain ⟨first, bs, hfirst, hleads, -⟩ := encodeChar_eq_cons e
  -- On the text: the position lies at the first character, inside it, or behind it.
  induction cs generalizing position with
  | nil =>
      rw [encode_nil, List.drop_nil, encode_cons, hfirst] at h
      cases h
  | cons c cs ih =>
      obtain ⟨lead, follow, hc, -, hfollow⟩ := encodeChar_eq_cons c
      cases position with
      | zero =>
          obtain ⟨after, hafter⟩ := exists_of_encode_eq h
          exact ⟨[], after, hafter, rfl⟩
      | succ p =>
          rw [encode_cons, hc, List.cons_append, List.drop_succ_cons] at h
          by_cases hp : p < follow.length
          · -- the text would start with a byte that only follows
            rw [List.drop_append_of_le_length (Nat.le_of_lt hp), List.drop_eq_getElem_cons hp,
              encode_cons, hfirst] at h
            have hbyte : follow[p] = first := (List.cons.inj h).1
            have hfollows := hfollow follow[p] (List.getElem_mem hp)
            rw [hbyte, hleads] at hfollows
            cases hfollows
          · obtain ⟨k, rfl⟩ := Nat.exists_eq_add_of_le (Nat.not_lt.mp hp)
            rw [← List.drop_drop, List.drop_left] at h
            obtain ⟨before, after, rfl, hk⟩ := ih h
            refine ⟨c :: before, after, rfl, ?_⟩
            rw [encode_cons, hc, hk, List.length_append, List.length_cons]
            omega

end ZMachine.Utf8
