import Mathlib.Order.Bounds.Basic
import ZMachine.Proofs.Bytes

/-! # How many objects there are

    No number in a story says how many objects it has. The entries are counted
    from the front until one would reach into the first property table, and
    where that table is becomes known only while the entries are read: they
    name their property tables in any order.

    * `tables`: the property tables that the first entries name; `StopsAt`: what
      ends the count, with the least of them and without the order of reading;
    * `isLeast_tables_succ`: one more entry keeps the running minimum of the
      count the least table so far; `isLeast_countFrom`: so the count ends at the
      first entry where it has to;
    * `Precedes`: entries in front of their property tables, and
      `Precedes.isLeast`: just these are counted;
    * `counts_entries`: the number of objects of every story. -/

namespace ZMachine.ObjectTable

variable {m : Memory} {start k n lowest : Nat} {w : UInt16}

/-- The addresses of the property tables that the first `k` entries name. -/
def tables (m : Memory) (start k : Nat) : Set Nat :=
  {a | ∃ i < k, ∃ w, m.wordAt (start + entrySize * i + 7) = .ok w ∧ w.toNat = a}

/-- The count cannot go on with entry `k`, where entries are numbered from 0: no object may have
    a greater number, or the first property table of the entries before it is reached, or the
    entry does not fit into memory. -/
def StopsAt (m : Memory) (start k : Nat) : Prop :=
  k = maxObjects ∨
    (∃ lowest, IsLeast (tables m start k) lowest ∧ lowest ≤ start + entrySize * k) ∨
    m.size < start + entrySize * k + entrySize

/-! ## The running minimum -/

theorem tables_zero (m : Memory) (start : Nat) : tables m start 0 = ∅ := by
  ext a
  simp [tables]

theorem tables_mono (h : k ≤ n) : tables m start k ⊆ tables m start n := by
  rintro a ⟨i, hi, hw⟩
  exact ⟨i, Nat.lt_of_lt_of_le hi h, hw⟩

/-- One entry more has one property table more. -/
theorem tables_succ (hw : m.wordAt (start + entrySize * k + 7) = .ok w) :
    tables m start (k + 1) = tables m start k ∪ {w.toNat} := by
  ext a
  constructor
  · rintro ⟨i, hi, v, hv, rfl⟩
    rcases Nat.lt_succ_iff_lt_or_eq.mp hi with hlt | rfl
    · exact .inl ⟨i, hlt, v, hv, rfl⟩
    · cases hw.symm.trans hv
      exact .inr rfl
  · rintro (ha | rfl)
    · exact tables_mono (Nat.le_succ k) ha
    · exact ⟨k, Nat.lt_succ_self k, w, hw, rfl⟩

/-- The count starts from a number above all tables, so that the running minimum is the least
    table once there is one. -/
theorem isLeast_tables_succ (hw : m.wordAt (start + entrySize * k + 7) = .ok w)
    (h : IsLeast ({0x100000000} ∪ tables m start k) lowest) :
    IsLeast ({0x100000000} ∪ tables m start (k + 1)) (min lowest w.toNat) := by
  rw [tables_succ hw, ← Set.union_assoc]
  exact h.union isLeast_singleton

/-- Below the number that the count starts from, the running minimum and the least table are
    the same bound. -/
theorem lowest_le_iff {a : Nat} (ha : a < 0x100000000)
    (h : IsLeast ({0x100000000} ∪ tables m start k) lowest) :
    lowest ≤ a ↔ ∃ l, IsLeast (tables m start k) l ∧ l ≤ a := by
  constructor
  · intro hle
    rcases h.1 with rfl | hmem
    · omega
    · exact ⟨lowest, ⟨hmem, fun l hl => h.2 (.inr hl)⟩, hle⟩
  · rintro ⟨l, hl, hle⟩
    exact Nat.le_trans (h.2 (.inr hl.1)) hle

/-! ## The count -/

/-- An entry where the count does not stop has all its bytes in memory, and its property table
    is named there. -/
theorem exists_wordAt_of_not_stopsAt (h : ¬ StopsAt m start k) :
    ∃ w, m.wordAt (start + entrySize * k + 7) = .ok w := by
  have hfits : ¬ m.size < start + entrySize * k + entrySize := fun hlt => h (.inr (.inr hlt))
  have hword : start + entrySize * k + 7 + 1 < m.bytes.size := by
    simp only [Memory.size, entrySize] at hfits ⊢
    omega
  exact ⟨_, dif_pos hword⟩

/-- One step of the count: it ends where it has to, and otherwise goes on with the minimum of
    one more table. -/
theorem countFrom_succ (room : Nat) (hk : k < maxObjects)
    (haddress : start + entrySize * k < 0x100000000)
    (h : IsLeast ({0x100000000} ∪ tables m start k) lowest) :
    (StopsAt m start k ∧ countFrom m start (room + 1) k lowest = .ok k) ∨
    ∃ w, ¬ StopsAt m start k ∧ m.wordAt (start + entrySize * k + 7) = .ok w ∧
      countFrom m start (room + 1) k lowest =
        countFrom m start room (k + 1) (min lowest w.toNat) := by
  have hstops : StopsAt m start k ↔
      lowest ≤ start + entrySize * k ∨ m.size < start + entrySize * k + entrySize := by
    rw [StopsAt, lowest_le_iff haddress h]
    exact or_iff_right (Nat.ne_of_lt hk)
  rw [countFrom]
  by_cases hstop : StopsAt m start k
  · exact .inl ⟨hstop, if_pos (hstops.mp hstop)⟩
  · obtain ⟨w, hw⟩ := exists_wordAt_of_not_stopsAt hstop
    refine .inr ⟨w, hstop, hw, ?_⟩
    rw [if_neg fun hgoes => hstop (hstops.mpr hgoes), hw]
    rfl

/-- The count ends at the first entry where it has to stop. -/
theorem isLeast_countFrom {room : Nat} (hroom : k + room = maxObjects)
    (haddress : start + entrySize * maxObjects < 0x100000000)
    (h : IsLeast ({0x100000000} ∪ tables m start k) lowest)
    (hbefore : ∀ j, StopsAt m start j → k ≤ j) :
    ∃ n, countFrom m start room k lowest = .ok n ∧ IsLeast {j | StopsAt m start j} n := by
  -- `hbefore` is what has been shown when the count is at `k`: it did not have to stop earlier
  induction room generalizing k lowest with
  | zero => exact ⟨k, rfl, .inl hroom, hbefore⟩
  | succ room ih =>
      have hk : k < maxObjects := by omega
      have haddress' : start + entrySize * k < 0x100000000 := by
        simp only [entrySize] at haddress ⊢
        omega
      rcases countFrom_succ room hk haddress' h with ⟨hstop, hcount⟩ | ⟨w, hstop, hw, hcount⟩
      · exact ⟨k, hcount, hstop, hbefore⟩
      · rw [hcount]
        refine ih (by omega) (isLeast_tables_succ hw h) ?_
        intro j hj
        refine Nat.lt_of_le_of_ne (hbefore j hj) ?_
        rintro rfl
        exact hstop hj

/-! ## Entries in front of their property tables -/

/-- `n` entries in memory that no property table of theirs reaches into. Directly behind the last
    of them there is a property table, unless no more entries could follow. -/
structure Precedes (m : Memory) (start n : Nat) : Prop where
  pos : 1 ≤ n
  le : n ≤ maxObjects
  fits : start + entrySize * n ≤ m.size
  behind : ∀ a ∈ tables m start n, start + entrySize * n ≤ a
  adjacent : n < maxObjects → start + entrySize * n ∈ tables m start n

/-- The number of entries before the property tables is the least at which counting stops. -/
theorem Precedes.isLeast (h : Precedes m start n) : IsLeast {j | StopsAt m start j} n := by
  constructor
  · rcases Nat.lt_or_eq_of_le h.le with hlt | rfl
    · exact .inr (.inl ⟨_, ⟨h.adjacent hlt, h.behind⟩, Nat.le_refl _⟩)
    · exact .inl rfl
  · rintro j (rfl | ⟨lowest, hlowest, hle⟩ | hsize)
    · exact h.le
    · by_contra hlt
      -- a table at or before entry `j` would lie before the end of the entries
      have hbehind := h.behind lowest (tables_mono (by omega) hlowest.1)
      simp only [entrySize] at hbehind hle
      omega
    · have hfits := h.fits
      simp only [entrySize] at hsize hfits
      omega

/-- In every memory the objects are counted up to the first entry at which the count has to
    stop: after 255 of them, at the first property table that the entries before it name, or at
    the end of memory. All bytes of the entries that are counted lie in memory. Entries that
    stand in front of their property tables, one of which follows directly, are counted
    exactly. -/
theorem counts_entries (m : Memory) (header : Header) :
    ∃ t, ofMemory m header = .ok t ∧ t.defaults = header.objects.toNat ∧
      IsLeast {k | StopsAt m (firstEntry t.defaults) k} t.count ∧
      (∀ i < t.count, firstEntry t.defaults + entrySize * i + entrySize ≤ m.size) ∧
      ∀ n, Precedes m (firstEntry t.defaults) n → t.count = n := by
  have hobjects := header.objects.toNat_lt
  -- At most 255 entries behind an address of 16 bits stay within the address space.
  have haddress : firstEntry header.objects.toNat + entrySize * maxObjects < 0x100000000 := by
    simp only [firstEntry, entrySize, maxObjects]
    omega
  have hstart : IsLeast ({0x100000000} ∪ tables m (firstEntry header.objects.toNat) 0)
      0x100000000 := by
    rw [tables_zero, Set.union_empty]
    exact isLeast_singleton
  obtain ⟨n, hcount, hleast⟩ :=
    isLeast_countFrom (Nat.zero_add maxObjects) haddress hstart fun j _ => Nat.zero_le j
  refine ⟨⟨header.objects.toNat, n⟩, ?_, rfl, hleast, ?_, ?_⟩
  · rw [ofMemory, hcount]
    rfl
  · intro i hi
    -- An entry outside memory would have stopped the count.
    by_contra hsize
    exact absurd (hleast.2 (.inr (.inr (Nat.not_le.mp hsize)))) (Nat.not_le.mpr hi)
  · intro k hk
    exact hleast.unique hk.isLeast

/-- Two entries. The second one names the property table that follows them, the first one a
    table behind it. -/
def crossed : Memory :=
  ⟨(List.replicate 69 (0 : UInt8) ++ [0, 90] ++ List.replicate 7 0 ++ [0, 80]
    ++ List.replicate 12 0).toArray⟩

/-- The sample table has two entries. -/
theorem precedes_crossed : Precedes crossed 62 2 where
  pos := by decide
  le := by decide
  fits := by decide
  behind := by
    rintro a ⟨i, hi, w, hw, rfl⟩
    obtain rfl | rfl : i = 0 ∨ i = 1 := by omega
    · have hword : crossed.wordAt 69 = .ok 90 := by rfl
      cases hword.symm.trans hw
      decide
    · have hword : crossed.wordAt 78 = .ok 80 := by rfl
      cases hword.symm.trans hw
      decide
  adjacent _ := ⟨1, by decide, 80, by rfl, rfl⟩

/-- They are counted, although the first property table lies behind the second one. -/
theorem crossed_counted : Precedes crossed 62 2 ∧ ¬ StopsAt crossed 62 1 ∧
    ∃ t, ofMemory crossed default = .ok t ∧ t.count = 2 := by
  obtain ⟨t, ht, hdefaults, hleast, -, hcount⟩ := counts_entries crossed default
  have hstart : firstEntry t.defaults = 62 := by
    rw [hdefaults]
    rfl
  rw [hstart] at hleast hcount
  have htwo := hcount 2 precedes_crossed
  refine ⟨precedes_crossed, ?_, t, ht, htwo⟩
  intro hstop
  have hle := hleast.2 hstop
  omega

end ZMachine.ObjectTable
