import ZMachine.Proofs.LineInput

/-! # Looking words up

    A dictionary is searched by halving: the key of a word is compared with that
    of the entry in the middle of a range, and the search goes on in the half
    where the key has to be if keys ascend.

    * `Text.Key.Before`: the order of keys, first words first;
    * `Dictionary.Searches`: the search without a bound on its steps;
      `exists_searches`: it ends, after looking at few entries, and the bound
      that the search has does not cut it short;
    * `Searches.sound`: what it finds has the key, in any memory;
    * `Searches.exact`: if keys ascend, it finds what there is;
    * `Dictionary.lookup_exact`: the same of words and 16-bit addresses. -/

namespace ZMachine

/-! ## The order of keys -/

namespace Text.Key

/-- Keys are ordered as pairs of words. -/
def Before (k l : Key) : Prop := k.first < l.first ∨ k.first = l.first ∧ k.second < l.second

instance (k l : Key) : Decidable (k.Before l) := inferInstanceAs (Decidable (_ ∨ _))

variable {k l : Key}

theorem Before.irrefl (h : k.Before k) : False := by
  rcases h with h | ⟨-, h⟩
  · exact UInt16.lt_irrefl _ h
  · exact UInt16.lt_irrefl _ h

theorem Before.asymm (h : k.Before l) (h' : l.Before k) : False := by
  simp only [Before, UInt16.lt_iff_toNat_lt, ← UInt16.toNat_inj] at h h'
  omega

theorem compare_eq_lt : k.compare l = .lt ↔ k.Before l := by
  have hword (a b : UInt16) : Ord.compare a b = .lt ↔ a < b := compareOfLessAndEq_eq_lt
  rw [compare, Ordering.then_eq_lt, hword, hword, Std.compare_eq_iff_eq]
  rfl

theorem compare_eq_eq : k.compare l = .eq ↔ k = l := by
  rw [compare, Ordering.then_eq_eq, Std.compare_eq_iff_eq, Std.compare_eq_iff_eq]
  cases k
  cases l
  rw [mk.injEq]

theorem compare_eq_gt : k.compare l = .gt ↔ l.Before k := by
  rw [← compare_eq_lt, compare, compare, Ordering.then_eq_gt, Ordering.then_eq_lt,
    Std.OrientedCmp.gt_iff_lt, Std.OrientedCmp.gt_iff_lt, Std.compare_eq_iff_eq,
    Std.compare_eq_iff_eq, eq_comm (a := k.first)]

end Text.Key

namespace Dictionary

variable {d : Dictionary} {m : Memory} {key : Text.Key} {low high n : Nat}

/-- The search among the entries with an index from `low` up to and without `high`, and what it
    comes to. There is no bound on the number of steps; `n` counts the entries it looks at. -/
inductive Searches (d : Dictionary) (m : Memory) (key : Text.Key) :
    (low high n : Nat) → Except Fault Nat → Prop
  | missing {low high : Nat} (h : ¬ low < high) : Searches d m key low high 0 (.ok 0)
  | unreadable {low high : Nat} {e : Fault} (h : low < high)
      (he : keyAt m (d.entryAddress ((low + high) / 2)) = .error e) :
      Searches d m key low high 1 (.error e)
  | found {low high : Nat} (h : low < high)
      (hkey : keyAt m (d.entryAddress ((low + high) / 2)) = .ok key) :
      Searches d m key low high 1 (.ok (d.entryAddress ((low + high) / 2)))
  | lower {low high n : Nat} {r : Except Fault Nat} {entry : Text.Key} (h : low < high)
      (hentry : keyAt m (d.entryAddress ((low + high) / 2)) = .ok entry) (hlt : key.Before entry)
      (hrest : Searches d m key low ((low + high) / 2) n r) : Searches d m key low high (n + 1) r
  | upper {low high n : Nat} {r : Except Fault Nat} {entry : Text.Key} (h : low < high)
      (hentry : keyAt m (d.entryAddress ((low + high) / 2)) = .ok entry) (hlt : entry.Before key)
      (hrest : Searches d m key ((low + high) / 2 + 1) high n r) :
      Searches d m key low high (n + 1) r

/-- An entry that cannot be read ends the search. -/
theorem search_of_error {e : Fault} (hlt : low < high)
    (he : keyAt m (d.entryAddress ((low + high) / 2)) = .error e) (fuel : Nat) :
    d.search m key (fuel + 1) low high = .error e := by
  rw [search, if_pos hlt]
  dsimp only
  rw [he]
  rfl

/-- Each step at least halves the range, so that a range of less than 2 ^ k entries takes at most
    `k` steps. -/
theorem exists_searches (d : Dictionary) (m : Memory) (key : Text.Key) {k fuel : Nat}
    (hk : high - low < Nat.pow 2 k) (hfuel : high - low ≤ fuel) :
    ∃ n, n ≤ k ∧ d.Searches m key low high n (d.search m key fuel low high) := by
  -- The induction is on the bound; `k` goes down with it, as the window halves.
  induction fuel generalizing low high k with
  | zero =>
      exact ⟨0, Nat.zero_le k, .missing (by omega)⟩
  | succ fuel ih =>
      by_cases hlt : low < high
      · obtain ⟨k, rfl⟩ : ∃ j, k = j + 1 := by
          cases k with
          | zero =>
              have hone : Nat.pow 2 0 = 1 := rfl
              omega
          | succ j => exact ⟨j, rfl⟩
        have hdouble : Nat.pow 2 (k + 1) = Nat.pow 2 k * 2 := rfl
        rw [hdouble] at hk
        cases hentry : keyAt m (d.entryAddress ((low + high) / 2)) with
        | error e =>
            rw [search_of_error hlt hentry]
            exact ⟨1, Nat.le_add_left 1 k, .unreadable hlt hentry⟩
        | ok entry =>
            rw [search_succ hlt hentry]
            cases hcompare : key.compare entry with
            | lt =>
                have hwindow : (low + high) / 2 - low < Nat.pow 2 k := by omega
                obtain ⟨n, hn, hrest⟩ := ih hwindow (by omega)
                exact ⟨n + 1, Nat.succ_le_succ hn,
                  .lower hlt hentry (Text.Key.compare_eq_lt.mp hcompare) hrest⟩
            | gt =>
                have hwindow : high - ((low + high) / 2 + 1) < Nat.pow 2 k := by omega
                obtain ⟨n, hn, hrest⟩ := ih hwindow (by omega)
                exact ⟨n + 1, Nat.succ_le_succ hn,
                  .upper hlt hentry (Text.Key.compare_eq_gt.mp hcompare) hrest⟩
            | eq =>
                obtain rfl := Text.Key.compare_eq_eq.mp hcompare
                exact ⟨1, Nat.le_add_left 1 k, .found hlt hentry⟩
      · rw [search, if_neg hlt]
        exact ⟨0, Nat.zero_le k, .missing hlt⟩

/-- The entries are counted in a word. -/
theorem exists_searches_all (d : Dictionary) (m : Memory) (key : Text.Key) :
    ∃ n, n ≤ 16 ∧ d.Searches m key 0 d.entryCount.toNat n
      (d.search m key d.entryCount.toNat 0 d.entryCount.toNat) :=
  d.exists_searches m key d.entryCount.toNat_lt (Nat.le_refl _)

namespace Searches

variable {r : Except Fault Nat}

/-- Whatever the search comes to is what it comes to within its bound. -/
theorem search_eq (h : d.Searches m key low high n r) {fuel : Nat} (hfuel : high - low ≤ fuel) :
    d.search m key fuel low high = r := by
  -- Each comparison makes the range shorter by one at least, as it does the fuel.
  induction h generalizing fuel with
  | missing h =>
      cases fuel with
      | zero => rfl
      | succ fuel => rw [search, if_neg h]; rfl
  | unreadable hlt he =>
      obtain ⟨fuel, rfl⟩ := Nat.exists_eq_add_one_of_ne_zero (by omega : fuel ≠ 0)
      exact search_of_error hlt he fuel
  | found hlt hkey =>
      obtain ⟨fuel, rfl⟩ := Nat.exists_eq_add_one_of_ne_zero (by omega : fuel ≠ 0)
      rw [search_succ hlt hkey, Text.Key.compare_eq_eq.mpr rfl]
  | lower hlt hentry hbefore _ ih =>
      obtain ⟨fuel, rfl⟩ := Nat.exists_eq_add_one_of_ne_zero (by omega : fuel ≠ 0)
      rw [search_succ hlt hentry, Text.Key.compare_eq_lt.mpr hbefore]
      exact ih (by omega)
  | upper hlt hentry hbefore _ ih =>
      obtain ⟨fuel, rfl⟩ := Nat.exists_eq_add_one_of_ne_zero (by omega : fuel ≠ 0)
      rw [search_succ hlt hentry, Text.Key.compare_eq_gt.mpr hbefore]
      exact ih (by omega)

/-- What is found has the key that was looked for, whether keys ascend or not. -/
theorem sound (h : d.Searches m key low high n r) {a : Nat} (ha : r = .ok a) (hne : a ≠ 0) :
    ∃ i, low ≤ i ∧ i < high ∧ keyAt m (d.entryAddress i) = .ok key ∧ a = d.entryAddress i := by
  induction h with
  | missing h => exact absurd (Except.ok.inj ha).symm hne
  | unreadable hlt he => cases ha
  | found hlt hkey => exact ⟨_, by omega, by omega, hkey, (Except.ok.inj ha).symm⟩
  | lower hlt hentry hbefore _ ih =>
      obtain ⟨i, hlow, hhigh, hkey, rfl⟩ := ih ha
      exact ⟨i, hlow, by omega, hkey, rfl⟩
  | upper hlt hentry hbefore _ ih =>
      obtain ⟨i, hlow, hhigh, hkey, rfl⟩ := ih ha
      exact ⟨i, by omega, hhigh, hkey, rfl⟩

end Searches

/-- The keys of entries ascend strictly. -/
def Ascending (d : Dictionary) (m : Memory) : Prop :=
  ∀ i j k l, i < j → j < d.entryCount.toNat → keyAt m (d.entryAddress i) = .ok k →
    keyAt m (d.entryAddress j) = .ok l → k.Before l

namespace Ascending

variable (h : d.Ascending m) {i j : Nat} {entry : Text.Key}

include h

/-- A key before that of an entry can only be that of an entry before it. -/
theorem lt_of_before (hi : i < d.entryCount.toNat) (hkey : keyAt m (d.entryAddress i) = .ok key)
    (hentry : keyAt m (d.entryAddress j) = .ok entry) (hbefore : key.Before entry) : i < j := by
  rcases Nat.lt_trichotomy i j with hlt | rfl | hlt
  · exact hlt
  · cases hkey.symm.trans hentry
    exact hbefore.irrefl.elim
  · exact (hbefore.asymm (h j i _ _ hlt hi hentry hkey)).elim

/-- No two entries have the same key. -/
theorem eq_of_key (hi : i < d.entryCount.toNat) (hj : j < d.entryCount.toNat)
    (hkey : keyAt m (d.entryAddress i) = .ok key) (hkey' : keyAt m (d.entryAddress j) = .ok key) :
    i = j := by
  rcases Nat.lt_trichotomy i j with hlt | heq | hlt
  · exact (h i j _ _ hlt hj hkey hkey').irrefl.elim
  · exact heq
  · exact (h j i _ _ hlt hi hkey' hkey).irrefl.elim

end Ascending

/-- If keys ascend, an entry with the key is found: it is never in the half that is left out. -/
theorem Searches.exact {r : Except Fault Nat} (h : d.Searches m key low high n r)
    (hasc : d.Ascending m) (hhigh : high ≤ d.entryCount.toNat) {i : Nat} (hlow : low ≤ i)
    (hi : i < high) (hkey : keyAt m (d.entryAddress i) = .ok key)
    (hread : ∀ j, j < d.entryCount.toNat → ∃ k, keyAt m (d.entryAddress j) = .ok k) :
    r = .ok (d.entryAddress i) := by
  -- The entry stays within the window at every step.
  induction h with
  | missing h => omega
  | @unreadable low high e hlt he =>
      obtain ⟨k, hk⟩ := hread ((low + high) / 2) (by omega)
      cases he.symm.trans hk
  | found hlt hfound =>
      rw [hasc.eq_of_key (by omega) (by omega) hkey hfound]
  | lower hlt hentry hbefore _ ih =>
      exact ih (by omega) hlow (hasc.lt_of_before (by omega) hkey hentry hbefore)
  | upper hlt hentry hbefore _ ih =>
      exact ih hhigh (hasc.lt_of_before (by omega) hentry hkey hbefore) hi

/-! ## Words -/

/-- Whether the entry with a given index has a key. -/
def hasKey (d : Dictionary) (m : Memory) (key : Text.Key) (i : Nat) : Bool :=
  match keyAt m (d.entryAddress i) with
  | .ok k => decide (k = key)
  | .error _ => false

/-- The address of the first entry with a key, or 0: all entries are looked at one by one. -/
def linearSearch (d : Dictionary) (m : Memory) (key : Text.Key) : Nat :=
  match (List.range d.entryCount.toNat).find? (d.hasKey m key) with
  | some i => d.entryAddress i
  | none => 0

theorem hasKey_iff {i : Nat} : d.hasKey m key i = true ↔ keyAt m (d.entryAddress i) = .ok key := by
  rw [hasKey]
  cases keyAt m (d.entryAddress i) with
  | ok k => simp
  | error e => simp

/-- The linear search finds an entry with the key, or there is none. -/
theorem linearSearch_cases (d : Dictionary) (m : Memory) (key : Text.Key) :
    (∃ i, i < d.entryCount.toNat ∧ keyAt m (d.entryAddress i) = .ok key ∧
      d.linearSearch m key = d.entryAddress i) ∨
    ((∀ i, i < d.entryCount.toNat → keyAt m (d.entryAddress i) ≠ .ok key) ∧
      d.linearSearch m key = 0) := by
  rw [linearSearch]
  cases hfind : (List.range d.entryCount.toNat).find? (d.hasKey m key) with
  | some i =>
      have hi := List.mem_range.mp (List.mem_of_find?_eq_some hfind)
      exact .inl ⟨i, hi, hasKey_iff.mp (List.find?_some hfind), rfl⟩
  | none =>
      refine .inr ⟨fun i hi hkey => ?_, rfl⟩
      exact List.find?_eq_none.mp hfind i (List.mem_range.mpr hi) (hasKey_iff.mpr hkey)

/-- A word is looked up by searching for its key. -/
theorem lookup_of_search {word : String} {a : Nat}
    (h : d.search m (Text.encode word) d.entryCount.toNat 0 d.entryCount.toNat = .ok a) :
    d.lookup m word = .ok (UInt16.ofNat a) := by
  rw [lookup, h]
  rfl

/-- An answer is the one that a key asks for: the address of the entry with this key, or 0 if
    there is none. -/
structure Exact (d : Dictionary) (m : Memory) (key : Text.Key) (r : Except Fault UInt16) :
    Prop where
  present : ∀ i, i < d.entryCount.toNat → keyAt m (d.entryAddress i) = .ok key →
    ∃ a : UInt16, r = .ok a ∧ a.toNat = d.entryAddress i
  absent : (∀ i, i < d.entryCount.toNat → keyAt m (d.entryAddress i) ≠ .ok key) → r = .ok 0
  scanned : ∃ a : UInt16, r = .ok a ∧ a.toNat = d.linearSearch m key

section Exact

variable (hfits : d.Fits m)

include hfits

/-- Every entry of a dictionary that lies in memory has a key. -/
theorem Fits.exists_keyAt {i : Nat} (hi : i < d.entryCount.toNat) :
    ∃ k, keyAt m (d.entryAddress i) = .ok k := by
  have hin := Nat.le_trans (hfits.entryAddress_le hi) hfits.inside
  obtain ⟨k, hk, -⟩ := keyAt_eq hin fun x _ _ => (rfl : m.bytes[x]? = _)
  exact ⟨k, hk⟩

/-- In ascending entries, the search finds the one with the key. -/
theorem search_of_key (hasc : d.Ascending m) {i : Nat} (hi : i < d.entryCount.toNat)
    (hkey : keyAt m (d.entryAddress i) = .ok key) :
    d.search m key d.entryCount.toNat 0 d.entryCount.toNat = .ok (d.entryAddress i) := by
  obtain ⟨n, -, hsearch⟩ := d.exists_searches_all m key
  exact hsearch.exact hasc (Nat.le_refl _) (Nat.zero_le i) hi hkey fun j hj => hfits.exists_keyAt hj

/-- If no entry has the key then the search finds nothing, ascending or not. -/
theorem search_of_no_key
    (hkey : ∀ i, i < d.entryCount.toNat → keyAt m (d.entryAddress i) ≠ .ok key) :
    d.search m key d.entryCount.toNat 0 d.entryCount.toNat = .ok 0 := by
  obtain ⟨n, -, hsearch⟩ := d.exists_searches_all m key
  obtain ⟨a, ha⟩ : ∃ a, d.search m key d.entryCount.toNat 0 d.entryCount.toNat = .ok a := by
    obtain ⟨a, ha, -⟩ := search_eq hfits (fun x _ => (rfl : m.bytes[x]? = _)) key (Nat.le_refl _)
    exact ⟨a, ha⟩
  -- an address other than 0 would be that of an entry with the key
  by_cases hne : a = 0
  · rw [ha, hne]
  · obtain ⟨i, -, hi, hfound, -⟩ := hsearch.sound ha hne
    exact absurd hfound (hkey i hi)

/-- If keys ascend and the entries lie in the first 64K, a lookup gives the right answer. -/
theorem exact_lookup (hlow : d.entries + d.entryCount.toNat * d.entryLength.toNat ≤ 0x10000)
    (hasc : d.Ascending m) (word : String) :
    d.Exact m (Text.encode word) (d.lookup m word) := by
  have hpresent {i : Nat} (hi : i < d.entryCount.toNat)
      (hkey : keyAt m (d.entryAddress i) = .ok (Text.encode word)) :
      ∃ a : UInt16, d.lookup m word = .ok a ∧ a.toNat = d.entryAddress i := by
    refine ⟨_, lookup_of_search (search_of_key hfits hasc hi hkey), ?_⟩
    have hle := hfits.entryAddress_le hi
    rw [UInt16.toNat_ofNat']
    exact Nat.mod_eq_of_lt (by omega)
  refine ⟨fun i => hpresent, fun hkey => lookup_of_search (search_of_no_key hfits hkey), ?_⟩
  rcases d.linearSearch_cases m (Text.encode word) with ⟨i, hi, hkey, hscan⟩ | ⟨hkey, hscan⟩
  · rw [hscan]
    exact hpresent hi hkey
  · rw [hscan]
    exact ⟨0, lookup_of_search (search_of_no_key hfits hkey), rfl⟩

end Exact

/-- Looking a word up gives the address of its entry, or 0 if it has none, as looking at all entries
    one by one does, if keys ascend and the entries lie in the first 64K. In any memory at all the
    search comes to one end, after looking at no more than 16 entries, and what it finds is an entry
    with the key of the word. -/
theorem lookup_exact (d : Dictionary) (m : Memory) (word : String) :
    (d.Fits m → d.entries + d.entryCount.toNat * d.entryLength.toNat ≤ 0x10000 → d.Ascending m →
      d.Exact m (Text.encode word) (d.lookup m word)) ∧
    (∃ n r, n ≤ 16 ∧ d.Searches m (Text.encode word) 0 d.entryCount.toNat n r) ∧
    (∀ n r, d.Searches m (Text.encode word) 0 d.entryCount.toNat n r →
      d.lookup m word = UInt16.ofNat <$> r) ∧
    ∀ a, d.lookup m word = .ok a → a ≠ 0 → ∃ i, i < d.entryCount.toNat ∧
      keyAt m (d.entryAddress i) = .ok (Text.encode word) ∧ a = UInt16.ofNat (d.entryAddress i) ∧
      (d.entryAddress i < 0x10000 → a.toNat = d.entryAddress i) := by
  obtain ⟨n, hn, hsearch⟩ := d.exists_searches_all m (Text.encode word)
  refine ⟨fun hfits hlow hasc => exact_lookup hfits hlow hasc word, ⟨n, _, hn, hsearch⟩, ?_, ?_⟩
  · intro n r h
    have hr : d.search m (Text.encode word) d.entryCount.toNat 0 d.entryCount.toNat = r :=
      h.search_eq (Nat.le_refl _)
    rw [lookup, hr]
    exact bind_pure_comp _ _
  · intro a ha hne
    obtain ⟨b, hb, hab⟩ := FailsOnly.bind_eq_ok.mp ha
    obtain rfl : UInt16.ofNat b = a := Except.ok.inj hab
    -- Reduced to a word, an address other than 0 comes from one other than 0.
    have hb0 : b ≠ 0 := by
      rintro rfl
      exact hne rfl
    obtain ⟨i, -, hi, hkey, rfl⟩ := hsearch.sound hb hb0
    refine ⟨i, hi, hkey, rfl, fun hlt => ?_⟩
    rw [UInt16.toNat_ofNat']
    exact Nat.mod_eq_of_lt hlt

/-- A dictionary with the words `door`, `open` and `the`, each with three more bytes. -/
def doorMemory : Memory :=
  ⟨#[0, 7, 0, 3,
    0x26, 0x94, 0xDC, 0xA5, 1, 2, 3,
    0x52, 0xAA, 0xCC, 0xA5, 4, 5, 6,
    0x65, 0xAA, 0x94, 0xA5, 7, 8, 9]⟩

/-- The dictionary of the sample memory. -/
def doorDictionary : Dictionary where
  address := 0
  separators := []
  entryLength := 7
  entryCount := 3
  entries := 4

theorem fits_door : doorDictionary.Fits doorMemory := ⟨by decide, by decide⟩

theorem ascending_door : doorDictionary.Ascending doorMemory := by
  intro i j k l hij hj hk hl
  have hj : j < 3 := hj
  obtain ⟨rfl, rfl⟩ | ⟨rfl, rfl⟩ | ⟨rfl, rfl⟩ : i = 0 ∧ j = 1 ∨ i = 0 ∧ j = 2 ∨ i = 1 ∧ j = 2 := by
    omega
  · cases hk
    cases hl
    decide
  · cases hk
    cases hl
    decide
  · cases hk
    cases hl
    decide

/-- One word is found in the small dictionary, another one is not. -/
theorem lookup_exact_door :
    doorDictionary.Fits doorMemory ∧ doorDictionary.Ascending doorMemory ∧
      (∃ a : UInt16, doorDictionary.lookup doorMemory "Open" = .ok a ∧ a.toNat = 11) ∧
      doorDictionary.lookup doorMemory "window" = .ok 0 := by
  have hlow : doorDictionary.entries + doorDictionary.entryCount.toNat *
      doorDictionary.entryLength.toNat ≤ 0x10000 := by decide
  have hopen := (lookup_exact doorDictionary doorMemory "Open").1 fits_door hlow ascending_door
  have hwindow := (lookup_exact doorDictionary doorMemory "window").1 fits_door hlow ascending_door
  refine ⟨fits_door, ascending_door, hopen.present 1 (by decide) ?_, hwindow.absent ?_⟩
  · rfl
  · intro i hi
    have hi : i < 3 := hi
    rw [Ne, ← hasKey_iff]
    obtain rfl | rfl | rfl : i = 0 ∨ i = 1 ∨ i = 2 := by omega
    all_goals decide

end Dictionary

end ZMachine
