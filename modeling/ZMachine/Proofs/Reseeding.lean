import Mathlib.Data.List.Forall2
import ZMachine.Proofs.Devices
import ZMachine.Proofs.Variables

/-! # Random numbers after reseeding

    A generator that is given a seed starts over: which numbers it draws depends
    on the seed and on the ranges that are asked for, and on nothing else that a
    machine has done or holds.

    * `Random.streamWord_congr`: the keystream repeats after its period, so that a
      search through one period is a search through all of it;
    * `Generator.draw?_cases`: a draw takes the first word that is not refused,
      and there is none only if all are refused; `Generator.drawn_draws`: what
      draws one after the other come to;
    * `Machine.Rolls`: the numbers that `random` operations hand over to be
      stored; `rolls_iff`: only the generator matters to them;
    * `Machine.reseeding_forgets_history`: after the same seed, all machines draw
      the same numbers. -/

namespace ZMachine

namespace Random

/-- Words at positions that are a multiple of the period apart are the same. -/
theorem streamWord_congr {p q : Nat} (key : StreamKey) (h : p % period = q % period) :
    streamWord key p = streamWord key q := by
  have hcounter : UInt64.ofNat (p / 16) = UInt64.ofNat (q / 16) := by
    apply UInt64.toNat.inj
    simp only [UInt64.toNat_ofNat', period] at h ⊢
    omega
  have hindex : Fin.ofNat 16 p = Fin.ofNat 16 q := by
    apply Fin.ext
    simp only [Fin.val_ofNat, period] at h ⊢
    omega
  simp only [streamWord, hcounter, hindex]

namespace Generator

variable {g : Generator} {key : StreamKey} {ranges : List UInt16}

/-! ## One draw -/

/-- The word at a position is refused for a range. -/
def Refuses (key : StreamKey) (range p : Nat) : Prop :=
  zone range < (streamWord key p).toNat * range % 0x100000000

/-- Whether a draw is refused depends on the position in the key stream. -/
theorem refuses_congr {p q : Nat} (range : Nat) (h : p % period = q % period) :
    Refuses key range p ↔ Refuses key range q := by
  rw [Refuses, Refuses, streamWord_congr key h]

/-- The search finds the first position whose word is not refused, if there is one among those
    that it may look at. -/
theorem accepted?_cases (key : StreamKey) (range fuel position : Nat) :
    (∃ p, accepted? key range fuel position = some p ∧ position ≤ p ∧ ¬ Refuses key range p ∧
      ∀ q, position ≤ q → q < p → Refuses key range q) ∨
    (accepted? key range fuel position = none ∧
      ∀ p, position ≤ p → p < position + fuel → Refuses key range p) := by
  induction fuel generalizing position with
  | zero => exact .inr ⟨rfl, fun p hlow hhigh => by omega⟩
  | succ fuel ih =>
      rw [accepted?]
      by_cases haccept : (streamWord key position).toNat * range % 0x100000000 ≤ zone range
      · rw [if_pos haccept]
        refine .inl ⟨position, rfl, Nat.le_refl _, Nat.not_lt.mpr haccept, ?_⟩
        intro q hlow hhigh
        omega
      · have hrefused : Refuses key range position := Nat.not_le.mp haccept
        -- What is known from the next position on, and of this one, is known from here on.
        have hfirst : ∀ q, position ≤ q → (position + 1 ≤ q → Refuses key range q) →
            Refuses key range q := by
          intro q hlow hlater
          rcases Nat.eq_or_lt_of_le hlow with rfl | hlt
          · exact hrefused
          · exact hlater hlt
        rw [if_neg haccept]
        rcases ih (position + 1) with ⟨p, hp, hle, hnot, hbefore⟩ | ⟨hnone, hall⟩
        · refine .inl ⟨p, hp, Nat.le_of_succ_le hle, hnot, fun q hlow hhigh => ?_⟩
          exact hfirst q hlow fun hlow' => hbefore q hlow' hhigh
        · refine .inr ⟨hnone, fun p hlow hhigh => ?_⟩
          exact hfirst p hlow fun hlow' => hall p hlow' (by omega)

/-- If all words of one period are refused, then all words are. -/
theorem refuses_of_period {range position : Nat}
    (h : ∀ p, position ≤ p → p < position + period → Refuses key range p) {p : Nat}
    (hp : position ≤ p) : Refuses key range p := by
  have hlt : (p - position) % period < period := Nat.mod_lt _ (by decide)
  have hsame : (position + (p - position) % period) % period = p % period := by
    simp only [period] at hlt ⊢
    omega
  exact (refuses_congr range hsame).mp (h _ (Nat.le_add_right _ _) (Nat.add_lt_add_left hlt _))

/-- The number that the word at a position stands for. -/
def numberAt (key : StreamKey) (range p : Nat) : Nat :=
  1 + (streamWord key p).toNat * range / 0x100000000

/-- The high half of a product with the range is below the range. -/
theorem numberAt_le (key : StreamKey) {range : Nat} (hrange : 0 < range) (p : Nat) :
    numberAt key range p ≤ range := by
  have hword := (streamWord key p).toNat_lt
  have hhigh : (streamWord key p).toNat * range / 0x100000000 < range :=
    Nat.div_lt_of_lt_mul (Nat.mul_lt_mul_of_pos_right hword hrange)
  rw [numberAt]
  omega

/-- A draw takes the first word from its position on that is not refused. There is no number
    only if the stream has no such word. -/
theorem draw?_cases (g : Generator) {range : UInt16} (hrange : 0 < range.toNat) :
    (∃ x p, g.draw? range = some (x, { g with position := p + 1 }) ∧ g.position ≤ p ∧
      ¬ Refuses g.key range.toNat p ∧
      (∀ q, g.position ≤ q → q < p → Refuses g.key range.toNat q) ∧
      x.toNat = numberAt g.key range.toNat p) ∨
    (g.draw? range = none ∧ ∀ p, g.position ≤ p → Refuses g.key range.toNat p) := by
  have hmax : max range.toNat 1 = range.toNat := Nat.max_eq_left hrange
  rcases accepted?_cases g.key range.toNat period g.position with
    ⟨p, hp, hle, hnot, hbefore⟩ | ⟨hnone, hall⟩
  · refine .inl ⟨UInt16.ofNat (numberAt g.key range.toNat p), p, ?_, hle, hnot, hbefore, ?_⟩
    · simp only [draw?, hmax, hp, Option.map_some]
      rfl
    · have hnumber := numberAt_le g.key hrange p
      exact UInt16.toNat_ofNat_of_lt (Nat.lt_of_le_of_lt hnumber range.toNat_lt)
  · refine .inr ⟨?_, fun p hp => refuses_of_period hall hp⟩
    simp only [draw?, hmax, hnone, Option.map_none]

/-! ## Draws in sequence -/

/-- What draws for ranges come to, one after the other. One that has no number leaves the
    generator where it was. -/
def draws : Generator → List UInt16 → List (Except Fault UInt16)
  | _, [] => []
  | g, range :: ranges =>
      match g.draw? range with
      | some (x, g') => .ok x :: draws g' ranges
      | none => .error (.defect .keystreamExhausted) :: draws g ranges

/-- What a draw for a range can come to: a number from 1 up to the range or, if the stream has no
    more words that are accepted, nothing. -/
inductive Drawn (key : StreamKey) (range : UInt16) : Except Fault UInt16 → Prop
  | number {x : UInt16} (low : 1 ≤ x.toNat) (high : x.toNat ≤ range.toNat) : Drawn key range (.ok x)
  | never {position : Nat} (refused : ∀ p, position ≤ p → Refuses key range.toNat p) :
      Drawn key range (.error (.defect .keystreamExhausted))

/-- Every draw is the first one that is not refused. -/
theorem drawn_draws (g : Generator) (h : ∀ r ∈ ranges, 0 < r.toNat) :
    List.Forall₂ (Drawn g.key) ranges (g.draws ranges) := by
  induction ranges generalizing g with
  | nil => exact .nil
  | cons range ranges ih =>
      have hrange := h range List.mem_cons_self
      have hranges : ∀ r ∈ ranges, 0 < r.toNat := fun r hr => h r (List.mem_cons_of_mem range hr)
      rcases g.draw?_cases hrange with ⟨x, p, hdraw, -, -, -, hx⟩ | ⟨hnone, hrefused⟩
      · rw [draws, hdraw]
        have hle := numberAt_le g.key hrange p
        refine .cons (.number ?_ (hx ▸ hle)) (ih { g with position := p + 1 } hranges)
        rw [hx, numberAt]
        omega
      · rw [draws, hnone]
        exact .cons (.never hrefused) (ih g hranges)

end Generator

end Random

namespace Machine

variable {m m' : Machine} {range : UInt16} {ranges : List UInt16}

/-! ## The operation -/

/-- Storing a result leaves the generator alone, also when it fails. -/
theorem random_storeResult (x : UInt16) (m : Machine) :
    (storeResult x m).2.random = m.random := by
  cases hbyte : m.memory.byteAt m.pc with
  | error e => rw [storeResult_of_outside hbyte]
  | ok v =>
      rw [storeResult_of_byte hbyte]
      by_cases hzero : v = 0
      · subst hzero
        rfl
      · rcases writeVariable_cases hzero x { m with pc := m.pc + 1 } with
          ⟨e, -, hwrite⟩ | ⟨_, m', -, hwrite, hassigns, -⟩
        · rw [hwrite]
        · obtain ⟨memory, locals, rfl⟩ := hassigns.rest
          rw [hwrite]

/-- A positive range asks for a number. -/
theorem storeRandom_of_pos (h : 0 < signed range) (m : Machine) :
    storeRandom range m = (drawRandom range >>= storeResult) m := by
  rw [storeRandom, if_pos h]

/-- A negative range sets the seed. -/
theorem storeRandom_of_neg {n : Nat} (h : signed range = -n) (hn : 0 < n) (m : Machine) :
    storeRandom range m =
      storeResult 0 { m with random := .predictable (UInt64.ofNat n) } := by
  have hzero : range ≠ 0 := by
    rintro rfl
    have hsigned : signed 0 = 0 := rfl
    omega
  have habs : (signed range).natAbs = n := by omega
  rw [storeRandom, if_neg (by omega), if_neg hzero, habs]
  rfl

theorem toNat_pos_of_signed (h : 0 < signed range) : 0 < range.toNat := by
  refine Nat.pos_of_ne_zero fun hzero => ?_
  obtain rfl : range = 0 := UInt16.toNat.inj hzero
  exact absurd h (by decide)

/-- What `random` operations with positive ranges hand over to be stored, one after the other:
    each one stores what it draws. In between, anything may happen that leaves the generator
    alone, and whether a number can be stored makes no difference. -/
inductive Rolls : Machine → List UInt16 → List (Except Fault UInt16) → Prop
  | nil {m : Machine} : Rolls m [] []
  | cons {m m' : Machine} {range : UInt16} {ranges : List UInt16}
      {values : List (Except Fault UInt16)} (positive : 0 < signed range)
      (generator : m'.random = m.random) (rest : Rolls (storeRandom range m').2 ranges values) :
      Rolls m (range :: ranges) ((drawRandom range m').1 :: values)

/-- One operation: what it hands over, and the generator that it leaves. -/
theorem draws_cons (h : 0 < signed range) (m : Machine) (ranges : List UInt16) :
    m.random.draws (range :: ranges) =
      (drawRandom range m).1 :: (storeRandom range m).2.random.draws ranges := by
  rw [storeRandom_of_pos h, Random.Generator.draws]
  cases hdraw : m.random.draw? range with
  | none =>
      have hrun : drawRandom range m = (.error (.defect .keystreamExhausted), m) := by
        simp only [drawRandom, hdraw]
      rw [Action.bind_of_error hrun, hrun]
  | some r =>
      have hrun : drawRandom range m = (.ok r.1, { m with random := r.2 }) := by
        simp only [drawRandom, hdraw]
      rw [Action.bind_of_ok hrun, hrun, random_storeResult]

/-- The operations hand over what their generator draws. -/
theorem rolls_iff (h : ∀ r ∈ ranges, 0 < signed r) {values : List (Except Fault UInt16)} :
    m.Rolls ranges values ↔ values = m.random.draws ranges := by
  constructor
  · intro hrolls
    induction hrolls with
    | nil => rfl
    | @cons m m' range ranges values positive generator rest ih =>
        rw [← generator, draws_cons positive,
          ih fun r hr => h r (List.mem_cons_of_mem range hr)]
  · rintro rfl
    induction ranges generalizing m with
    | nil => exact .nil
    | cons range ranges ih =>
        have hrange := h range List.mem_cons_self
        rw [draws_cons hrange]
        exact .cons hrange rfl (ih fun r hr => h r (List.mem_cons_of_mem range hr))

/-- A seed that is given makes the numbers predictable from the start. -/
theorem random_of_load {image : Memory} {rules : Rules} {entropy seed : UInt64}
    (hseed : rules.seed = some seed) (h : load image rules entropy = .ok m) :
    m.random = .predictable seed := by
  obtain ⟨story, -, rfl⟩ := exists_story_of_load h
  show firstGenerator rules entropy = .predictable seed
  rw [firstGenerator, hseed]

/-- A negative range is a seed, and 0 is stored for it. From then on, whatever the machine is and
    did before, `random` operations store the same numbers for the same positive ranges: those of
    a machine that is loaded with this seed. Each of them lies between 1 and its range; there is
    none only if the keystream has no more words that are accepted. -/
theorem reseeding_forgets_history {s : UInt16} {n : Nat} (hs : signed s = -n) (hn : 0 < n)
    (hranges : ∀ r ∈ ranges, 0 < signed r) :
    (∀ r ∈ ranges, ∀ m, storeRandom r m = (drawRandom r >>= storeResult) m) ∧
    ∃ values, List.Forall₂ (Random.Generator.Drawn (.ofSeed (UInt64.ofNat n))) ranges values ∧
      (∀ m, storeRandom s m = storeResult 0 { m with random := .predictable (UInt64.ofNat n) } ∧
        ∀ vs, (storeRandom s m).2.Rolls ranges vs ↔ vs = values) ∧
      ∀ image rules entropy fresh, rules.seed = some (UInt64.ofNat n) →
        load image rules entropy = .ok fresh → ∀ vs, fresh.Rolls ranges vs ↔ vs = values := by
  have hpositive : ∀ r ∈ ranges, 0 < r.toNat := fun r hr => toNat_pos_of_signed (hranges r hr)
  refine ⟨fun r hr => storeRandom_of_pos (hranges r hr), _,
    Random.Generator.drawn_draws (.predictable (UInt64.ofNat n)) hpositive, ?_, ?_⟩
  · intro m
    have hreseed := storeRandom_of_neg hs hn m
    refine ⟨hreseed, fun vs => ?_⟩
    rw [rolls_iff hranges, hreseed, random_storeResult]
  · intro image rules entropy fresh hrules hload vs
    rw [rolls_iff hranges, random_of_load hrules hload]

/-- With -1 as the seed, 100 and 6 as the ranges give 83 and 6, in a routine that is running and
    in every other machine, and so they do in a story that is loaded with the seed 1. -/
theorem busy_reseeded :
    (storeRandom 0xFFFF busy).2.Rolls [100, 6] [.ok 83, .ok 6] ∧
    (∀ m vs, (storeRandom 0xFFFF m).2.Rolls [100, 6] vs ↔ vs = [.ok 83, .ok 6]) ∧
    ∃ fresh, load Session.echo { seed := some 1 } 0 = .ok fresh ∧
      fresh.Rolls [100, 6] [.ok 83, .ok 6] := by
  have hranges : ∀ r ∈ ([100, 6] : List UInt16), 0 < signed r :=
    List.forall_mem_cons.mpr ⟨by decide, List.forall_mem_singleton.mpr (by decide)⟩
  have hdraws : (Random.Generator.predictable 1).draws [100, 6] = [.ok 83, .ok 6] := by
    decide +kernel
  obtain ⟨-, values, -, hmachines, hloaded⟩ :=
    reseeding_forgets_history (s := 0xFFFF) (n := 1) (by decide) (by decide) hranges
  have hbusy : (storeRandom 0xFFFF busy).2.Rolls [100, 6] [.ok 83, .ok 6] := by
    rw [rolls_iff hranges, (hmachines busy).1, random_storeResult]
    exact hdraws.symm
  obtain rfl := ((hmachines busy).2 _).mp hbusy
  have hload := Session.load_echo { seed := some 1 } 0
  exact ⟨hbusy, fun m => (hmachines m).2, _, hload, (hloaded _ _ _ _ rfl hload _).mpr rfl⟩

end Machine

end ZMachine
