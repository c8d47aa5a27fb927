import ZMachine.Proofs.Branching

/-! # Division and remainder

    Words are added and multiplied modulo 2 ^ 16, but divided as signed numbers
    whose quotient is cut off toward zero. The two fit together: quotient,
    divisor and remainder give the dividend back, even for the one quotient that
    is no signed number of 16 bits.

    * `ofSigned_signed`, `ofSigned_add`, `ofSigned_mul`: arithmetic on words is
      arithmetic on signed numbers up to multiples of 2 ^ 16;
    * `mul_quotient_add_remainder`, `signed_quotient`, `signed_remainder`: the
      numbers;
    * `Machine.Stores`: an operation puts a value into its result variable,
      where it is then found;
    * `Machine.division_identity`: the operations. -/

namespace ZMachine

/-! ## Words as signed numbers -/

variable {a b w : UInt16}

/-- A word is the word of the number that it stands for. -/
theorem ofSigned_signed (w : UInt16) : ofSigned (signed w) = w := by
  have hw := w.toNat_lt
  apply UInt16.toNat.inj
  simp only [ofSigned, signed, UInt16.toNat_ofNat']
  split <;> omega

/-- The word of a number is the number, in 16 bits. -/
theorem toNat_ofSigned (i : Int) : ((ofSigned i).toNat : Int) = i % 0x10000 := by
  simp only [ofSigned, UInt16.toNat_ofNat']
  omega

/-- A word is given by its number up to multiples of 2 ^ 16. -/
theorem eq_ofSigned_of_emod {i : Int} (h : (w.toNat : Int) = i % 0x10000) : w = ofSigned i := by
  apply UInt16.toNat.inj
  have hi := toNat_ofSigned i
  omega

/-- Adding words adds the numbers that they stand for, in 16 bits. -/
theorem ofSigned_add (i j : Int) : ofSigned (i + j) = ofSigned i + ofSigned j := by
  refine (eq_ofSigned_of_emod ?_).symm
  have hi := toNat_ofSigned i
  have hj := toNat_ofSigned j
  rw [UInt16.toNat_add]
  omega

/-- Multiplying words multiplies the numbers that they stand for, in 16 bits. -/
theorem ofSigned_mul (i j : Int) : ofSigned (i * j) = ofSigned i * ofSigned j := by
  refine (eq_ofSigned_of_emod ?_).symm
  rw [UInt16.toNat_mul, Int.natCast_emod, Int.natCast_mul, toNat_ofSigned, toNat_ofSigned]
  exact (Int.mul_emod i j 0x10000).symm

theorem signed_bounds (w : UInt16) : -0x8000 ≤ signed w ∧ signed w < 0x8000 := by
  have hw := w.toNat_lt
  simp only [signed]
  split <;> omega

theorem signed_eq_iff {v w : UInt16} : signed v = signed w ↔ v = w := by
  constructor
  · intro h
    rw [← ofSigned_signed v, h, ofSigned_signed]
  · rintro rfl
    rfl

theorem signed_ne_zero (h : w ≠ 0) : signed w ≠ 0 :=
  fun hw => h (signed_eq_iff.mp hw)

namespace Machine

/-! ## Quotient and remainder -/

/-- Quotient and remainder make up the dividend, even where the quotient does not fit into a word.
    -/
theorem mul_quotient_add_remainder (a b : UInt16) : b * quotient a b + remainder a b = a := by
  calc b * quotient a b + remainder a b
      = ofSigned (signed b) * ofSigned ((signed a).tdiv (signed b))
          + ofSigned ((signed a).tmod (signed b)) := by rw [ofSigned_signed, quotient, remainder]
    _ = ofSigned (signed b * (signed a).tdiv (signed b) + (signed a).tmod (signed b)) := by
          rw [ofSigned_add, ofSigned_mul]
    _ = a := by rw [Int.mul_tdiv_add_tmod, ofSigned_signed]

/-- The remainder always fits into a word, and has the sign of the dividend. -/
theorem signed_remainder (hb : b ≠ 0) :
    signed (remainder a b) = (signed a).tmod (signed b) := by
  have habs := Int.natAbs_tmod (signed a) (signed b)
  have hlt := Nat.mod_lt (signed a).natAbs (Int.natAbs_pos.mpr (signed_ne_zero hb))
  have hbounds := signed_bounds b
  exact signed_ofSigned (by omega) (by omega)

/-- The remainder is nearer to zero than the divisor. -/
theorem natAbs_remainder_lt (hb : b ≠ 0) :
    (signed (remainder a b)).natAbs < (signed b).natAbs := by
  rw [signed_remainder hb, Int.natAbs_tmod]
  exact Nat.mod_lt _ (Int.natAbs_pos.mpr (signed_ne_zero hb))

/-- The remainder is zero or on the same side of it as the dividend. -/
theorem sign_remainder (hb : b ≠ 0) :
    remainder a b = 0 ∨ (signed (remainder a b)).sign = (signed a).sign := by
  by_cases hzero : remainder a b = 0
  · exact .inl hzero
  · have hne := signed_ne_zero hzero
    rw [signed_remainder hb] at hne ⊢
    refine .inr ?_
    rcases Int.lt_trichotomy (signed a) 0 with hneg | ha | hpos
    · have hle := Int.tmod_nonneg (signed b) (show 0 ≤ -signed a by omega)
      rw [Int.neg_tmod] at hle
      rw [Int.sign_eq_neg_one_of_neg hneg, Int.sign_eq_neg_one_of_neg (by omega)]
    · rw [ha, Int.zero_tmod] at hne
      exact absurd rfl hne
    · have hle := Int.tmod_nonneg (signed b) (Int.le_of_lt hpos)
      rw [Int.sign_eq_one_of_pos hpos, Int.sign_eq_one_of_pos (by omega)]

/-- The quotient is a signed number of 16 bits, but for the least one divided by -1. -/
theorem signed_quotient (hb : b ≠ 0) (h : ¬ (a = 0x8000 ∧ b = 0xFFFF)) :
    signed (quotient a b) = (signed a).tdiv (signed b) := by
  have hbounds := signed_bounds a
  by_cases hunit : (signed b).natAbs = 1
  · rcases Int.natAbs_eq_iff.mp hunit with hone | hminus
    · refine signed_ofSigned ?_ ?_ <;> rw [hone, Int.natCast_one, Int.tdiv_one] <;> omega
    · have hb' : b = 0xFFFF := signed_eq_iff.mp (hminus.trans (by decide))
      have ha : signed a ≠ -0x8000 := fun ha => h ⟨signed_eq_iff.mp (ha.trans (by decide)), hb'⟩
      refine signed_ofSigned ?_ ?_ <;>
        rw [hminus, Int.natCast_one, Int.tdiv_neg, Int.tdiv_one] <;> omega
  · -- a divisor of 2 or more at least halves the dividend
    have hpos := Int.natAbs_pos.mpr (signed_ne_zero hb)
    have habs : ((signed a).tdiv (signed b)).natAbs = (signed a).natAbs / (signed b).natAbs :=
      Int.natAbs_tdiv _ _
    have hhalf : (signed a).natAbs / (signed b).natAbs ≤ (signed a).natAbs / 2 :=
      Nat.div_le_div_left (by omega) (by decide)
    exact signed_ofSigned (by omega) (by omega)

/-! ## Storing a result -/

variable {m : Machine} {v : UInt8}

/-- The byte at the pc names a variable that a result can be stored in. -/
def Receives (m : Machine) (v : UInt8) : Prop :=
  m.memory.byteAt m.pc = .ok v ∧ (v ≠ 0 → ∃ old, m.cell v = .ok old)

/-- An operation does in every state what storing a value does; where a result can be stored,
    the value is then found there. -/
structure Stores (x : Action Machine Unit) (value : UInt16) : Prop where
  same : ∀ m, x m = storeResult value m
  found : ∀ m v, m.Receives v → ∃ m', x m = (.ok (), m') ∧ readIndirect v m' = (.ok value, m')

/-- A result that is stored is read again from the variable that receives it. -/
theorem storeResult_of_receives (h : m.Receives v) (x : UInt16) :
    ∃ m', storeResult x m = (.ok (), m') ∧ readIndirect v m' = (.ok x, m') := by
  obtain ⟨hbyte, hcell⟩ := h
  rw [storeResult_of_byte hbyte]
  by_cases hzero : v = 0
  · subst hzero
    exact ⟨_, writeVariable_zero x _, peek_of_cons (setStack_stack _ _)⟩
  · obtain ⟨old, hold⟩ := hcell hzero
    rcases writeVariable_cases hzero x { m with pc := m.pc + 1 } with
      ⟨e, herror, -⟩ | ⟨_, m', -, hwrite, hassigns, -⟩
    · cases hold.symm.trans herror
    · refine ⟨m', hwrite, ?_⟩
      rw [readIndirect, if_neg hzero]
      exact hassigns.value

/-- An instruction that does what storing a value does, stores that value. -/
theorem Stores.of_eq {x : Action Machine Unit} {value : UInt16}
    (h : ∀ m, x m = storeResult value m) : Stores x value := by
  refine ⟨h, ?_⟩
  intro m v hv
  rw [h]
  exact storeResult_of_receives hv value

/-- Unless the divisor is 0, division and remainder store numbers from which multiplication and
    addition get the dividend back. As signed numbers, the remainder is nearer to zero than the
    divisor and has the sign of the dividend unless it is 0, and the quotient is cut off toward
    zero; -32768 divided by -1 gives -32768. A divisor of 0 is a fault that changes nothing, so
    that not even the byte for the result is passed. -/
theorem division_identity (a b : UInt16) :
    (b ≠ 0 → ∃ q r p,
      Stores (executePair .div a b) q ∧ Stores (executePair .mod a b) r ∧
      Stores (executePair .mul b q) p ∧ Stores (executePair .add p r) a ∧
      (signed r).natAbs < (signed b).natAbs ∧
      (r = 0 ∨ (signed r).sign = (signed a).sign) ∧
      (¬ (a = 0x8000 ∧ b = 0xFFFF) → signed q = (signed a).tdiv (signed b)) ∧
      (a = 0x8000 ∧ b = 0xFFFF → q = 0x8000)) ∧
    (b = 0 → ∀ m, executePair .div a b m = (.error .divisionByZero, m) ∧
      executePair .mod a b m = (.error .moduloByZero, m)) := by
  constructor
  · intro hb
    have hdiv : executePair .div a b = storeResult (quotient a b) := if_neg hb
    have hmod : executePair .mod a b = storeResult (remainder a b) := if_neg hb
    refine ⟨quotient a b, remainder a b, b * quotient a b, .of_eq (congrFun hdiv),
      .of_eq (congrFun hmod), .of_eq fun _ => rfl, .of_eq fun m => ?_, natAbs_remainder_lt hb,
      sign_remainder hb, signed_quotient hb, ?_⟩
    · show storeResult (b * quotient a b + remainder a b) m = storeResult a m
      rw [mul_quotient_add_remainder]
    · rintro ⟨rfl, rfl⟩
      decide
  · rintro rfl m
    exact ⟨rfl, rfl⟩

/-- In any state, -7 divided by 2 is -3, and -32768 divided by -1 is -32768. -/
theorem division_rounds_toward_zero :
    (∃ q r p, Stores (executePair .div 0xFFF9 2) q ∧ Stores (executePair .mod 0xFFF9 2) r ∧
      Stores (executePair .mul 2 q) p ∧ Stores (executePair .add p r) 0xFFF9 ∧ signed q = -3) ∧
    (∃ r p, Stores (executePair .div 0x8000 0xFFFF) 0x8000 ∧
      Stores (executePair .mod 0x8000 0xFFFF) r ∧
      Stores (executePair .mul 0xFFFF 0x8000) p ∧ Stores (executePair .add p r) 0x8000) := by
  constructor
  · obtain ⟨q, r, p, hdiv, hmod, hmul, hadd, -, -, hq, -⟩ :=
      (division_identity 0xFFF9 2).1 (by decide)
    exact ⟨q, r, p, hdiv, hmod, hmul, hadd, (hq (by decide)).trans (by decide)⟩
  · obtain ⟨q, r, p, hdiv, hmod, hmul, hadd, -, -, -, hq⟩ :=
      (division_identity 0x8000 0xFFFF).1 (by decide)
    obtain rfl := hq (by decide)
    exact ⟨r, p, hdiv, hmod, hmul, hadd⟩

end Machine

end ZMachine
