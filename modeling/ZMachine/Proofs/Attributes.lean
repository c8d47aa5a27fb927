import ZMachine.Object.Attribute
import ZMachine.Proofs.Bytes
import ZMachine.Proofs.Relinking

/-! # Attributes

    The 32 attributes of an object are the bits of the first four bytes of its
    entry, from the most significant bit of the first byte on. Each of them is
    there once, so the attributes of all objects are so many independent
    switches.

    * `Memory.bitAt`: a memory bit by bit; `eq_of_bitAt`: it has nothing else;
    * `setAttribute_eq`: setting an attribute writes one bit;
      `hasAttribute_eq_ok_iff`: testing it reads the same bit;
      `attributeByte_inj`: no two attributes share a bit;
    * `bitAt_afterCalls_of_last`, `bitAt_afterCalls_of_none`: after any sequence
      of calls a bit has the value that the last call about it has given it;
    * `attributes_independent`: one call, and any sequence of calls. -/

namespace ZMachine

/-! ## Bits of a memory -/

/-- A byte is given by its bits. -/
theorem eq_of_getMsbD {b c : UInt8} (h : ∀ i < 8, b.toBitVec.getMsbD i = c.toBitVec.getMsbD i) :
    b = c :=
  UInt8.toBitVec_inj.mp (BitVec.eq_of_getMsbD_eq h)

namespace Memory

variable {m m' : Memory}

/-- A bit of a memory: the `i`-th of the byte at an address, from the most significant one on. -/
def bitAt (m : Memory) (x i : Nat) : Option Bool :=
  m.bytes[x]?.map fun b => b.toBitVec.getMsbD i

/-- The bits of a byte that can be read. -/
theorem bitAt_of_byteAt {x : Nat} {b : UInt8} (h : m.byteAt x = .ok b) (i : Nat) :
    m.bitAt x i = some (b.toBitVec.getMsbD i) := by
  rw [bitAt, byteAt_eq_ok.mp h]
  rfl

theorem bitAt_congr {x : Nat} (h : m'.bytes[x]? = m.bytes[x]?) (i : Nat) :
    m'.bitAt x i = m.bitAt x i := by
  rw [bitAt, bitAt, h]

/-- Memories with the same bits are the same. -/
theorem eq_of_bitAt (h : ∀ x i, i < 8 → m'.bitAt x i = m.bitAt x i) : m' = m := by
  refine eq_of_getElem? fun x => ?_
  have hx (i : Nat) (hi : i < 8) := h x i hi
  simp only [bitAt] at hx
  -- A byte that only one of the memories has would have a bit there only.
  cases hm : m.bytes[x]? with
  | none =>
      have hnone := hx 0 (by decide)
      rw [hm] at hnone
      exact Option.map_eq_none_iff.mp hnone
  | some b =>
      cases hm' : m'.bytes[x]? with
      | none =>
          have hnone := hx 0 (by decide)
          rw [hm, hm'] at hnone
          cases hnone
      | some c =>
          rw [hm, hm'] at hx
          refine congrArg some (eq_of_getMsbD ?_)
          intro i hi
          exact Option.some.inj (hx i hi)

end Memory

namespace ObjectTable

variable {t : ObjectTable} {m m' : Memory} {o p n k : UInt16} {on : Bool}

/-! ## The bit of an attribute -/

/-- The mask of an attribute has one bit, counted from the top. -/
theorem getMsbD_attributeMask (n : Nat) {i : Nat} (hi : i < 8) :
    (attributeMask n).toBitVec.getMsbD i = decide (i = n % 8) := by
  have hall : ∀ k < 8, ∀ i < 8,
      (UInt8.ofNat (1 <<< (7 - k))).toBitVec.getMsbD i = decide (i = k) := by decide
  exact hall (n % 8) (Nat.mod_lt n (by decide)) i hi

/-- The bit of an attribute has the value 128, shifted right by its number in the byte. -/
theorem attributeMask_eq (n : Nat) : attributeMask n = UInt8.ofNat (128 >>> (n % 8)) := by
  have hall : ∀ k < 8, UInt8.ofNat (1 <<< (7 - k)) = UInt8.ofNat (128 >>> k) := by decide
  exact hall (n % 8) (Nat.mod_lt n (by decide))

/-- A byte in which the bit of an attribute has been set to a value. -/
def flagged (b : UInt8) (n : Nat) (on : Bool) : UInt8 :=
  if on then b ||| attributeMask n else b &&& ~~~attributeMask n

/-- No other bit of the byte changes. -/
theorem getMsbD_flagged (b : UInt8) (n : Nat) (on : Bool) {i : Nat} (hi : i < 8) :
    (flagged b n on).toBitVec.getMsbD i = if i = n % 8 then on else b.toBitVec.getMsbD i := by
  cases on with
  | true =>
      show (b ||| attributeMask n).toBitVec.getMsbD i = _
      rw [UInt8.toBitVec_or, BitVec.getMsbD_or, getMsbD_attributeMask n hi]
      by_cases h : i = n % 8 <;> simp [h]
  | false =>
      show (b &&& ~~~attributeMask n).toBitVec.getMsbD i = _
      rw [UInt8.toBitVec_and, UInt8.toBitVec_not, BitVec.getMsbD_and, BitVec.getMsbD_not,
        getMsbD_attributeMask n hi]
      by_cases h : i = n % 8 <;> simp [h, hi]

/-- A flag that is set or cleared leaves the other bits of its byte alone. -/
theorem flagged_and_not_mask (b : UInt8) (n : Nat) (on : Bool) :
    flagged b n on &&& ~~~attributeMask n = b &&& ~~~attributeMask n := by
  refine eq_of_getMsbD fun i hi => ?_
  rw [UInt8.toBitVec_and, UInt8.toBitVec_and, UInt8.toBitVec_not, BitVec.getMsbD_and,
    BitVec.getMsbD_and, BitVec.getMsbD_not, getMsbD_attributeMask n hi, getMsbD_flagged b n on hi]
  by_cases h : i = n % 8 <;> simp [h]

/-- Testing a byte against the mask of an attribute reads its bit. -/
theorem test_attributeMask (b : UInt8) (n : Nat) :
    (b &&& attributeMask n != 0) = b.toBitVec.getMsbD (n % 8) := by
  have hn : n % 8 < 8 := Nat.mod_lt n (by decide)
  -- The mask leaves one bit, so the result is 0 exactly if that bit was.
  have hbit {i : Nat} (hi : i < 8) : (b &&& attributeMask n).toBitVec.getMsbD i =
      (b.toBitVec.getMsbD i && decide (i = n % 8)) := by
    rw [UInt8.toBitVec_and, BitVec.getMsbD_and, getMsbD_attributeMask n hi]
  cases hb : b.toBitVec.getMsbD (n % 8) with
  | true =>
      refine bne_iff_ne.mpr fun hzero => ?_
      have hset := hbit hn
      rw [hzero, hb] at hset
      simp at hset
  | false =>
      refine bne_eq_false_iff_eq.mpr (eq_of_getMsbD fun i hi => ?_)
      rw [hbit hi]
      by_cases h : i = n % 8
      · rw [h, hb]
        simp
      · simp [h]

/-- The address of the byte that has an attribute of an object. -/
def attributeByte (t : ObjectTable) (o n : UInt16) : Nat :=
  firstEntry t.defaults + entrySize * (o.toNat - 1) + n.toNat / 8

/-- No two attributes share a bit. -/
theorem attributeByte_inj (ho : t.IsObject o) (hp : t.IsObject p)
    (hn : n.toNat < attributeCount) (hk : k.toNat < attributeCount)
    (hbyte : t.attributeByte o n = t.attributeByte p k) (hbit : n.toNat % 8 = k.toNat % 8) :
    o = p ∧ n = k := by
  have ho := ho.1
  have hp := hp.1
  simp only [attributeByte, entrySize, attributeCount] at hbyte hn hk
  exact ⟨UInt16.toNat.inj (by omega), UInt16.toNat.inj (by omega)⟩

/-- The attributes stand before the links and the address of the property table. -/
theorem attributeByte_ne (ho : t.IsObject o) (hp : t.IsObject p) (hn : n.toNat < attributeCount)
    {d : Nat} (hlow : 4 ≤ d) (hhigh : d < entrySize) :
    firstEntry t.defaults + entrySize * (p.toNat - 1) + d ≠ t.attributeByte o n := by
  have ho := ho.1
  have hp := hp.1
  simp only [attributeByte, entrySize, attributeCount] at hn hhigh ⊢
  omega

/-- The attributes of an object lie in memory if its entry does. -/
theorem Fits.attributeByte_lt (h : t.Fits m) (ho : t.IsObject o) (hn : n.toNat < attributeCount) :
    t.attributeByte o n < m.size := by
  have hlink := h .parent o ho
  simp only [address, Link.offset, attributeByte, attributeCount] at hlink hn ⊢
  omega

/-- An attribute of an object is a bit of its entry. -/
theorem hasAttribute_of_isObject (ho : t.IsObject o) (hn : n.toNat < attributeCount) :
    t.hasAttribute m o n = (m.byteAt (t.attributeByte o n) >>= fun b =>
      pure (b.toBitVec.getMsbD (n.toNat % 8))) := by
  rw [hasAttribute_eq, if_neg (Nat.not_le.mpr hn), entry_of_isObject ho]
  simp only [← test_attributeMask]
  rfl

/-- Testing an attribute reads its bit. -/
theorem hasAttribute_eq_ok_iff (ho : t.IsObject o) (hn : n.toNat < attributeCount) :
    t.hasAttribute m o n = .ok on ↔
      m.bitAt (t.attributeByte o n) (n.toNat % 8) = some on := by
  rw [hasAttribute_of_isObject ho hn, FailsOnly.bind_eq_ok, Memory.bitAt, Option.map_eq_some_iff]
  constructor
  · rintro ⟨b, hb, hon⟩
    exact ⟨b, Memory.byteAt_eq_ok.mp hb, Except.ok.inj hon⟩
  · rintro ⟨b, hb, rfl⟩
    exact ⟨b, Memory.byteAt_eq_ok.mpr hb, rfl⟩

/-- Attributes from 32 up are never set. -/
theorem hasAttribute_of_high (hn : attributeCount ≤ n.toNat) :
    t.hasAttribute m o n = .ok false := by
  rw [hasAttribute, if_pos hn]
  rfl

/-- Memories with the same bit of an attribute test alike for it. -/
theorem Fits.hasAttribute_congr (h : t.Fits m)
    (hbit : t.IsObject o → n.toNat < attributeCount →
      m'.bitAt (t.attributeByte o n) (n.toNat % 8) = m.bitAt (t.attributeByte o n) (n.toNat % 8)) :
    t.hasAttribute m' o n = t.hasAttribute m o n := by
  by_cases hn : n.toNat < attributeCount
  · by_cases ho : t.IsObject o
    · obtain ⟨b, hb⟩ : ∃ b, m.byteAt (t.attributeByte o n) = .ok b :=
        ⟨_, dif_pos (h.attributeByte_lt ho hn)⟩
      have hold := Memory.bitAt_of_byteAt hb (n.toNat % 8)
      rw [(hasAttribute_eq_ok_iff ho hn).mpr hold, hasAttribute_eq_ok_iff ho hn, hbit ho hn, hold]
    · rw [ObjectTable.hasAttribute_eq, ObjectTable.hasAttribute_eq, entry_of_not_isObject ho]
      rfl
  · rw [hasAttribute_of_high (Nat.not_lt.mp hn), hasAttribute_of_high (Nat.not_lt.mp hn)]

/-- Setting an attribute from 32 up does nothing. -/
theorem setAttribute_of_high (hn : attributeCount ≤ n.toNat) :
    t.setAttribute o n on m = (.ok (), m) := by
  rw [setAttribute, if_pos hn]
  rfl

/-- There is no attribute to set where there is no object. -/
theorem setAttribute_of_not_isObject (ho : ¬ t.IsObject o) (hn : n.toNat < attributeCount) :
    t.setAttribute o n on m = (.error (.invalidObject o), m) := by
  rw [ObjectTable.setAttribute_eq, if_neg (Nat.not_le.mpr hn), entry_of_not_isObject ho]
  rfl

/-- Setting an attribute writes its bit. -/
theorem Fits.setAttribute_eq (h : t.Fits m) (ho : t.IsObject o) (hn : n.toNat < attributeCount)
    (on : Bool) : ∃ b m', m.byteAt (t.attributeByte o n) = .ok b ∧
      t.setAttribute o n on m = (.ok (), m') ∧
      m.Overwritten (t.attributeByte o n) [flagged b n.toNat on] m' := by
  have hlt := h.attributeByte_lt ho hn
  obtain ⟨b, hb⟩ : ∃ b, m.byteAt (t.attributeByte o n) = .ok b := ⟨_, dif_pos hlt⟩
  obtain ⟨m', hwrite, hm'⟩ := Memory.writeByte_eq hlt (flagged b n.toNat on)
  refine ⟨b, m', hb, ?_, hm'⟩
  rw [ObjectTable.setAttribute_eq, if_neg (Nat.not_le.mpr hn), entry_of_isObject ho,
    Action.bind_of_ok (Action.ofExcept_apply _ m)]
  refine (Action.bind_of_ok ?_).trans hwrite
  rw [Action.ask_apply]
  exact congrArg (·, m) hb

/-! ## One call -/

/-- A memory in which an attribute of the object with the entry at `e` has been set. -/
structure AttributeSet (t : ObjectTable) (m : Memory) (o n : UInt16) (on : Bool) (e : Nat)
    (m' : Memory) : Prop where
  self : t.hasAttribute m' o n = .ok on
  others : ∀ p k, (p, k) ≠ (o, n) → t.hasAttribute m' p k = t.hasAttribute m p k
  links : ∀ l p, t.link m' l p = t.link m l p
  properties : ∀ p, t.propertyTable m' p = t.propertyTable m p
  size : m'.size = m.size
  bytes : ∀ x, x ≠ e + n.toNat / 8 → m'.bytes[x]? = m.bytes[x]?
  /-- In the byte of the attribute at most its own bit changes. -/
  bits : ∃ b b', m.byteAt (e + n.toNat / 8) = .ok b ∧ m'.byteAt (e + n.toNat / 8) = .ok b' ∧
    b' &&& ~~~UInt8.ofNat (128 >>> (n.toNat % 8)) = b &&& ~~~UInt8.ofNat (128 >>> (n.toNat % 8))

/-- A bit after an attribute has been set. -/
theorem bitAt_of_overwritten {b : UInt8} (hb : m.byteAt (t.attributeByte o n) = .ok b)
    (hm' : m.Overwritten (t.attributeByte o n) [flagged b n.toNat on] m') {x i : Nat}
    (hi : i < 8) : m'.bitAt x i =
      if x = t.attributeByte o n ∧ i = n.toNat % 8 then some on else m.bitAt x i := by
  by_cases hx : x = t.attributeByte o n
  · have hbyte := (Memory.holds_cons.mp hm'.holds).1
    rw [hx, Memory.bitAt_of_byteAt hbyte, Memory.bitAt_of_byteAt hb, getMsbD_flagged b _ on hi]
    by_cases hbit : i = n.toNat % 8
    · rw [if_pos hbit, if_pos ⟨rfl, hbit⟩]
    · rw [if_neg hbit, if_neg fun hand => hbit hand.2]
  · rw [if_neg fun hand => hx hand.1]
    exact Memory.bitAt_congr (hm'.unchanged_of_ne hx) i

/-- Setting an attribute succeeds, and changes one bit. -/
theorem Fits.attributeSet (h : t.Fits m) (ho : t.IsObject o) (hn : n.toNat < attributeCount)
    (on : Bool) : ∃ m', t.setAttribute o n on m = (.ok (), m') ∧
      t.AttributeSet m o n on (firstEntry t.defaults + entrySize * (o.toNat - 1)) m' := by
  obtain ⟨b, m', hb, hset, hm'⟩ := h.setAttribute_eq ho hn on
  refine ⟨m', hset, ?_, ?_, ?_, ?_, hm'.size, fun x => hm'.unchanged_of_ne, ?_⟩
  · rw [hasAttribute_eq_ok_iff ho hn, bitAt_of_overwritten hb hm' (Nat.mod_lt _ (by decide)),
      if_pos ⟨rfl, rfl⟩]
  · -- any other attribute is another bit, of this object or of another one
    intro p k hne
    refine h.hasAttribute_congr fun hp hk => ?_
    rw [bitAt_of_overwritten hb hm' (Nat.mod_lt _ (by decide)), if_neg]
    rintro ⟨hbyte, hbit⟩
    obtain ⟨rfl, rfl⟩ := attributeByte_inj hp ho hk hn hbyte hbit
    exact hne rfl
  · -- links lie behind the four bytes of attributes
    intro l p
    by_cases hp : t.IsObject p
    · have hoffset : 4 ≤ l.offset ∧ l.offset < entrySize := by cases l <;> decide
      rw [link_of_isObject hp, link_of_isObject hp, Memory.byteAt_congr hm'.size]
      exact hm'.unchanged_of_ne (attributeByte_ne ho hp hn hoffset.1 hoffset.2)
    · rw [link_of_not_isObject hp, link_of_not_isObject hp]
  · -- and so does the address of the property table
    intro p
    by_cases hp : t.IsObject p
    · have hword := Memory.wordAt_congr hm'.size
        (hm'.unchanged_of_ne (attributeByte_ne ho hp hn (d := 7) (by decide) (by decide)))
        (hm'.unchanged_of_ne (attributeByte_ne ho hp hn (d := 8) (by decide) (by decide)))
      rw [propertyTable, propertyTable, entry_of_isObject hp]
      show (m'.wordAt _ >>= _) = (m.wordAt _ >>= _)
      rw [hword]
    · rw [propertyTable, propertyTable, entry_of_not_isObject hp]
      rfl
  · refine ⟨b, _, hb, (Memory.holds_cons.mp hm'.holds).1, ?_⟩
    rw [← attributeMask_eq]
    exact flagged_and_not_mask b n.toNat on

/-! ## Sequences of calls -/

/-- A call that gives an attribute to an object or takes it away. -/
structure AttributeCall where
  object : UInt16
  number : UInt16
  on : Bool
  deriving DecidableEq, Repr

/-- What a call is about. -/
def AttributeCall.pair (c : AttributeCall) : UInt16 × UInt16 := (c.object, c.number)

/-- The last call about each pair of an object and an attribute. -/
def lastCalls : List AttributeCall → List AttributeCall
  | [] => []
  | c :: calls => if calls.any (·.pair == c.pair) then lastCalls calls else c :: lastCalls calls

/-- The memory after calls, one after another. A call that fails leaves it to the next one. -/
def afterCalls (t : ObjectTable) (calls : List AttributeCall) (m : Memory) : Memory :=
  calls.foldl (fun m c => (t.setAttribute c.object c.number c.on m).2) m

variable {c d : AttributeCall} {calls before after : List AttributeCall} {x i : Nat}

/-- The last calls are those that no later call for the same attribute follows. -/
theorem mem_lastCalls_iff : c ∈ lastCalls calls ↔
    ∃ before after, calls = before ++ c :: after ∧ ∀ d ∈ after, d.pair ≠ c.pair := by
  induction calls with
  | nil =>
      constructor
      · intro hc
        cases hc
      · rintro ⟨before, after, heq, -⟩
        cases before <;> cases heq
  | cons a calls ih =>
      rw [lastCalls]
      split
      · next hany =>
          -- The first call is followed by `d` for the same attribute, and so is not a last one.
          obtain ⟨d, hd, hpair⟩ := List.any_eq_true.mp hany
          rw [ih]
          constructor
          · rintro ⟨before, after, rfl, hafter⟩
            exact ⟨a :: before, after, rfl, hafter⟩
          · rintro ⟨before, after, heq, hafter⟩
            cases before with
            | nil =>
                cases heq
                exact absurd (beq_iff_eq.mp hpair) (hafter d hd)
            | cons b before =>
                cases heq
                exact ⟨before, after, rfl, hafter⟩
      · next hany =>
          -- No later call is for the attribute of the first one.
          rw [List.mem_cons, ih]
          constructor
          · rintro (rfl | ⟨before, after, rfl, hafter⟩)
            · refine ⟨[], calls, rfl, ?_⟩
              intro d hd hpair
              exact hany (List.any_eq_true.mpr ⟨d, hd, beq_iff_eq.mpr hpair⟩)
            · exact ⟨a :: before, after, rfl, hafter⟩
          · rintro ⟨before, after, heq, hafter⟩
            cases before with
            | nil =>
                cases heq
                exact .inl rfl
            | cons b before =>
                cases heq
                exact .inr ⟨before, after, rfl, hafter⟩

theorem mem_of_mem_lastCalls (h : c ∈ lastCalls calls) : c ∈ calls := by
  obtain ⟨before, after, rfl, -⟩ := mem_lastCalls_iff.mp h
  exact List.mem_append_right before List.mem_cons_self

/-- Of each attribute, there is at most one last call. -/
theorem nodup_lastCalls (calls : List AttributeCall) :
    ((lastCalls calls).map AttributeCall.pair).Nodup := by
  induction calls with
  | nil => exact List.nodup_nil
  | cons c calls ih =>
      rw [lastCalls]
      split
      · exact ih
      · next hany =>
          rw [List.map_cons, List.nodup_cons]
          refine ⟨?_, ih⟩
          intro hmem
          obtain ⟨d, hd, hpair⟩ := List.mem_map.mp hmem
          exact hany (List.any_eq_true.mpr ⟨d, mem_of_mem_lastCalls hd, beq_iff_eq.mpr hpair⟩)

/-- A call sets the given bit. -/
def Sets (t : ObjectTable) (c : AttributeCall) (x i : Nat) : Prop :=
  t.IsObject c.object ∧ c.number.toNat < attributeCount ∧
    t.attributeByte c.object c.number = x ∧ c.number.toNat % 8 = i

/-- Calls that set the same bit are about the same pair. -/
theorem Sets.pair_eq (hc : t.Sets c x i) (hd : t.Sets d x i) : c.pair = d.pair := by
  obtain ⟨ho, hn, hx, hi⟩ := hc
  obtain ⟨hp, hk, hx', hi'⟩ := hd
  obtain ⟨hobject, hnumber⟩ :=
    attributeByte_inj ho hp hn hk (hx.trans hx'.symm) (hi.trans hi'.symm)
  exact Prod.ext hobject hnumber

/-- Which bit is set depends on the object and the attribute only. -/
theorem Sets.of_pair_eq (hc : t.Sets c x i) (h : d.pair = c.pair) : t.Sets d x i := by
  obtain ⟨hobject, hnumber⟩ := Prod.mk.inj h
  rw [Sets, hobject, hnumber]
  exact hc

/-- A call that sets a bit gives it its value. -/
theorem bitAt_of_sets (h : t.Fits m) (hc : t.Sets c x i) :
    (t.setAttribute c.object c.number c.on m).2.bitAt x i = some c.on := by
  obtain ⟨ho, hn, rfl, rfl⟩ := hc
  obtain ⟨b, m', hb, hset, hm'⟩ := h.setAttribute_eq ho hn c.on
  rw [hset, bitAt_of_overwritten hb hm' (Nat.mod_lt _ (by decide)), if_pos ⟨rfl, rfl⟩]

/-- A call leaves the bits that it does not set. -/
theorem bitAt_of_not_sets (h : t.Fits m) (hi : i < 8) (hc : ¬ t.Sets c x i) :
    (t.setAttribute c.object c.number c.on m).2.bitAt x i = m.bitAt x i := by
  by_cases hn : c.number.toNat < attributeCount
  · by_cases ho : t.IsObject c.object
    · obtain ⟨b, m', hb, hset, hm'⟩ := h.setAttribute_eq ho hn c.on
      rw [hset, bitAt_of_overwritten hb hm' hi, if_neg]
      rintro ⟨rfl, rfl⟩
      exact hc ⟨ho, hn, rfl, rfl⟩
    · rw [setAttribute_of_not_isObject ho hn]
  · rw [setAttribute_of_high (Nat.not_lt.mp hn)]

theorem Fits.afterCalls (h : t.Fits m) (calls : List AttributeCall) :
    t.Fits (t.afterCalls calls m) := by
  induction calls generalizing m with
  | nil => exact h
  | cons c calls ih => exact ih (h.of_size (t.obeys_setAttribute _ _ _ m).1)

/-- A bit that no call is about stays as it was. -/
theorem bitAt_afterCalls_of_none (h : t.Fits m) (hi : i < 8)
    (hcalls : ∀ c ∈ calls, ¬ t.Sets c x i) : (t.afterCalls calls m).bitAt x i = m.bitAt x i := by
  induction calls generalizing m with
  | nil => rfl
  | cons c calls ih =>
      have hrest := ih (h.of_size (t.obeys_setAttribute c.object c.number c.on m).1)
        fun d hd => hcalls d (List.mem_cons_of_mem c hd)
      exact hrest.trans (bitAt_of_not_sets h hi (hcalls c List.mem_cons_self))

/-- A bit is as the last call that is about it has set it. -/
theorem bitAt_afterCalls_of_last (h : t.Fits m) (hi : i < 8) (hc : t.Sets c x i)
    (hafter : ∀ d ∈ after, ¬ t.Sets d x i) :
    (t.afterCalls (before ++ c :: after) m).bitAt x i = some c.on := by
  have hbefore := h.afterCalls before
  have hrest := bitAt_afterCalls_of_none
    (hbefore.of_size (t.obeys_setAttribute c.object c.number c.on _).1) hi hafter
  rw [afterCalls, List.foldl_append, List.foldl_cons]
  exact hrest.trans (bitAt_of_sets hbefore hc)

/-- Of the calls that set a bit, one is the last. -/
theorem exists_last_sets (h : ∃ c ∈ calls, t.Sets c x i) :
    ∃ before c after, calls = before ++ c :: after ∧ t.Sets c x i ∧
      ∀ d ∈ after, ¬ t.Sets d x i := by
  induction calls with
  | nil =>
      obtain ⟨c, hc, -⟩ := h
      cases hc
  | cons a calls ih =>
      by_cases hlater : ∃ c ∈ calls, t.Sets c x i
      · obtain ⟨before, c, after, rfl, hc, hafter⟩ := ih hlater
        exact ⟨a :: before, c, after, rfl, hc, hafter⟩
      · obtain ⟨c, hc, hsets⟩ := h
        rcases List.mem_cons.mp hc with rfl | hc
        · exact ⟨[], c, calls, rfl, hsets, fun d hd hd' => hlater ⟨d, hd, hd'⟩⟩
        · exact absurd ⟨c, hc, hsets⟩ hlater

/-- Only the last call about each pair matters, and the order of these does not. -/
theorem Fits.afterCalls_eq (h : t.Fits m) {last : List AttributeCall}
    (hlast : last.Perm (lastCalls calls)) : t.afterCalls last m = t.afterCalls calls m := by
  refine Memory.eq_of_bitAt fun x i hi => ?_
  -- Bit by bit: each is what its last call says, or what it was if there is none.
  by_cases hsets : ∃ c ∈ calls, t.Sets c x i
  · obtain ⟨before, c, after, rfl, hc, hafter⟩ := exists_last_sets hsets
    have hmem : c ∈ last := by
      refine hlast.mem_iff.mpr (mem_lastCalls_iff.mpr ⟨before, after, rfl, ?_⟩)
      intro d hd hpair
      exact hafter d hd (hc.of_pair_eq hpair)
    obtain ⟨before', after', rfl⟩ := List.append_of_mem hmem
    have hnodup := (hlast.map AttributeCall.pair).nodup_iff.mpr (nodup_lastCalls _)
    -- In the other order, `c` is still the only call for its attribute.
    have hafter' (d : AttributeCall) (hd : d ∈ after') : ¬ t.Sets d x i := by
      intro hd'
      rw [List.map_append, List.map_cons] at hnodup
      refine (List.nodup_cons.mp hnodup.of_append_right).1 ?_
      rw [hc.pair_eq hd']
      exact List.mem_map_of_mem hd
    rw [bitAt_afterCalls_of_last h hi hc hafter', bitAt_afterCalls_of_last h hi hc hafter]
  · have hnone (c : AttributeCall) (hc : c ∈ calls) : ¬ t.Sets c x i := fun hc' =>
      hsets ⟨c, hc, hc'⟩
    rw [bitAt_afterCalls_of_none h hi hnone, bitAt_afterCalls_of_none h hi]
    intro c hc
    exact hnone c (mem_of_mem_lastCalls (hlast.mem_iff.mp hc))

/-- In every memory of the size in which a table was found: setting one of the 32 attributes of an
    object succeeds and changes this attribute alone, by its bit in the first four bytes of the
    entry; whatever calls are made, the memory afterwards is that after the last call about each
    pair of an object and an attribute alone, in any order; and what is above the 32 attributes
    tests false and cannot be set. -/
theorem attributes_independent {image : Memory} {header : Header}
    (ht : ofMemory image header = .ok t) (hsize : m.size = image.size) :
    (∀ o n on, t.IsObject o → n.toNat ≤ 31 → ∃ e m', t.entry o = .ok e ∧
      t.setAttribute o n on m = (.ok (), m') ∧ t.AttributeSet m o n on e m') ∧
    (∀ calls last, last.Perm (lastCalls calls) → t.afterCalls last m = t.afterCalls calls m) ∧
    ∀ o n, 31 < n.toNat →
      t.hasAttribute m o n = .ok false ∧ ∀ on, t.setAttribute o n on m = (.ok (), m) := by
  have h : t.Fits m := fits_of_ofMemory ht hsize
  refine ⟨?_, fun calls last hlast => h.afterCalls_eq hlast, ?_⟩
  · intro o n on ho hn
    obtain ⟨m', hset, hm'⟩ := h.attributeSet ho (Nat.lt_succ_of_le hn) on
    exact ⟨_, m', entry_of_isObject ho, hset, hm'⟩
  · intro o n hn
    exact ⟨hasAttribute_of_high hn, fun on => setAttribute_of_high hn⟩

/-- Attribute 31 of object 2 is given without effect on that of object 1. Of four calls, the first
    is undone by the third, and the others may be made the other way round. -/
theorem family_attributes :
    ofMemory family default = .ok familyTable ∧
    (∃ m', familyTable.setAttribute 2 31 true family = (.ok (), m') ∧
      familyTable.hasAttribute m' 2 31 = .ok true ∧ familyTable.hasAttribute m' 1 31 = .ok false) ∧
    familyTable.afterCalls [⟨2, 31, true⟩, ⟨1, 0, false⟩, ⟨1, 9, true⟩] family =
      familyTable.afterCalls [⟨1, 0, true⟩, ⟨1, 9, true⟩, ⟨1, 0, false⟩, ⟨2, 31, true⟩] family ∧
    familyTable.setAttribute 1 32 true family = (.ok (), family) := by
  have htable : ofMemory family default = .ok familyTable := by rfl
  obtain ⟨hone, hcalls, hhigh⟩ := attributes_independent htable rfl
  refine ⟨htable, ?_, hcalls _ _ (by decide), (hhigh 1 32 (by decide)).2 true⟩
  obtain ⟨e, m', -, hset, hm'⟩ := hone 2 31 true (by decide) (by decide)
  refine ⟨m', hset, hm'.self, ?_⟩
  rw [hm'.others 1 31 (by decide)]
  rfl

end ObjectTable

end ZMachine
