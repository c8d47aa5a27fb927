import ZMachine.Proofs.Checks

/-! # Faults of reading a story

    A defect is a fault that no story should be able to raise. This file goes
    through everything that reads story memory (strings, objects, properties,
    the dictionary) and shows which faults can come out of it. There are two
    defects that remain possible:

    * a walk along a property list leaves the 32-bit address space, but only
      in a memory that fills it up to the last eight bytes;
    * a random draw finds no word in a whole period of the keystream. -/

namespace ZMachine

/-- The faults that reading `n` bytes of memory may raise: all but defects, and of these the
    one that cannot be excluded in a memory that fills the address space. -/
def Fault.Expected (n : Nat) : Fault → Prop
  | .defect .addressSpace => 0x100000000 < n + 9
  | .defect _ => False
  | _ => True

/-- The faults that work on `n` bytes of memory and within a routine may raise by itself. Illegal
    instructions, returns from the bottom frame, routines at odd addresses and what concerns
    story files, devices and settings are not among them. -/
def Fault.OfWork (n : Nat) : Fault → Prop
  | .outOfBounds _ _ _ | .tooManyLocals _ _ | .stackUnderflow _ | .localOutOfRange _ _
  | .divisionByZero | .moduloByZero | .operandCount _ _ _ | .invalidObject _
  | .missingProperty _ _ | .propertyNumber _ _ | .propertyLength _ _ _ _
  | .abbreviationDepth _ => True
  | .defect .addressSpace => 0x100000000 < n + 9
  | _ => False

/-- The faults of work are among the expected ones. -/
theorem Fault.OfWork.expected {n : Nat} {e : Fault} (h : e.OfWork n) : e.Expected n := by
  cases e with
  | defect c =>
      cases c with
      | addressSpace => exact h
      | _ => exact h
  | _ => trivial

/-- If a result is a fault, then one of the given kind. -/
def FailsOnly {α : Type} (E : Fault → Prop) (r : Except Fault α) : Prop :=
  ∀ e, r = .error e → E e

namespace FailsOnly

variable {α β : Type} {E : Fault → Prop}

/-- A wider class of faults may be allowed. -/
theorem mono {E' : Fault → Prop} {r : Except Fault α} (h : FailsOnly E r)
    (hE : ∀ e, E e → E' e) : FailsOnly E' r :=
  fun e he => hE e (h e he)

theorem ok (a : α) : FailsOnly E (.ok a : Except Fault α) := fun _ h => nomatch h

theorem pure (a : α) : FailsOnly E (pure a : Except Fault α) := fun _ h => nomatch h

theorem error {e : Fault} (he : E e) : FailsOnly E (.error e : Except Fault α) := by
  intro e' h
  cases h
  exact he

/-- The second part of a sequence runs on a value that the first part has yielded. -/
theorem bind {x : Except Fault α} {f : α → Except Fault β} (hx : FailsOnly E x)
    (hf : ∀ a, x = .ok a → FailsOnly E (f a)) : FailsOnly E (x >>= f) := by
  cases x with
  | ok a => exact hf a rfl
  | error e => exact error (hx e rfl)

/-- A sequence of results yields a value exactly if both of its parts do. -/
theorem bind_eq_ok {x : Except Fault α} {f : α → Except Fault β} {b : β} :
    x >>= f = .ok b ↔ ∃ a, x = .ok a ∧ f a = .ok b := by
  cases x with
  | ok a =>
      constructor
      · intro h
        exact ⟨a, rfl, h⟩
      · rintro ⟨a', h, hf⟩
        cases h
        exact hf
  | error e =>
      constructor
      · intro h
        exact nomatch h
      · rintro ⟨a', h, -⟩
        exact nomatch h

/-- Work on a list fails only as the work on its members does. -/
theorem mapM_of_mem {f : α → Except Fault β} {l : List α} (hf : ∀ a ∈ l, FailsOnly E (f a)) :
    FailsOnly E (l.mapM f) := by
  induction l with
  | nil =>
      rw [List.mapM_nil]
      exact pure []
  | cons a l ih =>
      obtain ⟨ha, hl⟩ := List.forall_mem_cons.mp hf
      rw [List.mapM_cons]
      refine bind ha ?_
      intro b _
      refine bind (ih hl) ?_
      intro bs _
      exact pure (b :: bs)

/-- The same for work that is known to fail only so anywhere. -/
theorem mapM {f : α → Except Fault β} (hf : ∀ a, FailsOnly E (f a)) (l : List α) :
    FailsOnly E (l.mapM f) :=
  mapM_of_mem fun a _ => hf a

end FailsOnly

variable {n : Nat} {m : Memory}

/-! ## Memory -/

namespace Memory

/-- A byte can be read exactly where there is one. -/
theorem byteAt_eq_ok {a : Nat} {b : UInt8} : m.byteAt a = .ok b ↔ m.bytes[a]? = some b := by
  unfold byteAt
  by_cases h : a < m.bytes.size
  · rw [dif_pos h, Array.getElem?_eq_getElem h]
    constructor
    · intro hb
      exact congrArg some (Except.ok.inj hb)
    · intro hb
      exact congrArg Except.ok (Option.some.inj hb)
  · rw [dif_neg h, Array.getElem?_eq_none (Nat.le_of_not_lt h)]
    constructor
    · intro hb
      exact nomatch hb
    · intro hb
      exact nomatch hb

/-- A byte that can be read lies in memory. -/
theorem lt_size_of_byteAt {a : Nat} {b : UInt8} (h : m.byteAt a = .ok b) : a < m.size :=
  (Array.getElem?_eq_some_iff.mp (byteAt_eq_ok.mp h)).1

/-- A word that can be read lies in memory. -/
theorem lt_size_of_wordAt {a : Nat} {w : UInt16} (h : m.wordAt a = .ok w) : a + 1 < m.size := by
  unfold wordAt at h
  by_cases ha : a + 1 < m.bytes.size
  · exact ha
  · rw [dif_neg ha] at h
    exact nomatch h

theorem failsOnly_byteAt (a : Nat) : FailsOnly (Fault.OfWork n) (m.byteAt a) := by
  unfold byteAt
  split
  · exact .ok _
  · exact .error trivial

theorem failsOnly_wordAt (a : Nat) : FailsOnly (Fault.OfWork n) (m.wordAt a) := by
  unfold wordAt
  split
  · exact .ok _
  · exact .error trivial

end Memory

/-! ## Strings -/

namespace Text

theorem Extent.failsOnly_stop (fuel a : Nat) :
    FailsOnly (Fault.OfWork n) (Extent.ofMemory m fuel a).stop := by
  induction fuel generalizing a with
  | zero => exact .error trivial
  | succ fuel ih =>
      rw [Extent.ofMemory]
      split
      · next e he => exact .error (m.failsOnly_wordAt a e he)
      · next w _ =>
          split
          · exact .ok _
          · exact ih (a + 2)

/-- Decoding a string fails at the end of memory, or at abbreviations nested too deep. -/
theorem failsOnly_decodeNested (table nesting a : Nat) :
    FailsOnly (Fault.OfWork n) (decodeNested m table nesting a) := by
  induction nesting generalizing a with
  | zero => exact .error trivial
  | succ nesting ih =>
      rw [decodeNested]
      refine .bind (.mapM_of_mem ?_) fun parts _ =>
        .bind (Extent.failsOnly_stop _ a) fun stop _ => .pure _
      intro symbol hsymbol
      -- The symbols of a string are characters and references; nothing else is spelled.
      match symbol with
      | .char c => exact .pure [c]
      | .fault e => exact absurd rfl (Symbol.ne_fault_of_mem_spellFrom hsymbol e)
      | .abbreviation entry =>
          refine .bind (m.failsOnly_wordAt _) ?_
          intro packed _
          refine .bind (ih _) ?_
          rintro ⟨text, stop⟩ _
          exact .pure text

/-- The same for the text of a whole string. -/
theorem failsOnly_decode (table a : Nat) :
    FailsOnly (Fault.OfWork n) (decode m table a) := by
  unfold decode
  refine .bind (failsOnly_decodeNested table maxNesting a) ?_
  rintro ⟨text, stop⟩ _
  exact .pure _

end Text

/-! ## Objects -/

namespace ObjectTable

variable (t : ObjectTable) (o : UInt16)

theorem failsOnly_entry : FailsOnly (Fault.OfWork n) (t.entry o) := by
  rw [entry_eq]
  split
  · exact .ok _
  · exact .error trivial

theorem failsOnly_link (l : Link) : FailsOnly (Fault.OfWork n) (t.link m l o) := by
  unfold link
  refine .bind (t.failsOnly_entry o) ?_
  intro e _
  refine .bind (m.failsOnly_byteAt _) ?_
  intro b _
  exact .pure _

theorem failsOnly_hasAttribute (a : UInt16) :
    FailsOnly (Fault.OfWork n) (t.hasAttribute m o a) := by
  rw [hasAttribute_eq]
  split
  · exact .pure false
  · refine .bind (t.failsOnly_entry o) ?_
    intro e _
    refine .bind (m.failsOnly_byteAt _) ?_
    intro b _
    exact .pure _

theorem failsOnly_propertyTable : FailsOnly (Fault.OfWork n) (t.propertyTable m o) := by
  unfold propertyTable
  refine .bind (t.failsOnly_entry o) ?_
  intro e _
  refine .bind (m.failsOnly_wordAt _) ?_
  intro a _
  exact .pure _

/-- A property has at most eight bytes. -/
theorem propertyLength_le (size : UInt8) : propertyLength size ≤ 8 := by
  have := size.toNat_lt
  unfold propertyLength
  omega

/-- An address less than nine bytes past the last byte of memory can be reached unless memory
    almost fills the address space. -/
theorem failsOnly_advance {a k : Nat} (h : a + k < m.size + 9) :
    FailsOnly (Fault.OfWork m.size) (advance a k) := by
  unfold advance
  split
  · exact .ok _
  · next hak =>
      refine .error ?_
      show 0x100000000 < m.size + 9
      omega

/-- The properties of an object begin behind its name. -/
theorem failsOnly_firstProperty : FailsOnly (Fault.OfWork n) (t.firstProperty m o) := by
  unfold firstProperty
  refine .bind (t.failsOnly_propertyTable o) ?_
  intro a _
  refine .bind (m.failsOnly_byteAt a) ?_
  intro nameWords _
  exact .pure _

/-- Walking along the properties fails outside memory, or where the addresses end. -/
theorem failsOnly_findFrom (property fuel a : Nat) :
    FailsOnly (Fault.OfWork m.size) (findFrom m property fuel a) := by
  induction fuel generalizing a with
  | zero => exact .error trivial
  | succ fuel ih =>
      rw [findFrom]
      refine .bind (m.failsOnly_byteAt a) ?_
      intro size hsize
      split
      · exact .pure none
      · split
        · exact .pure _
        · have ha := Memory.lt_size_of_byteAt hsize
          have hl := propertyLength_le size
          refine .bind (failsOnly_advance (by omega)) ?_
          intro next _
          exact ih next

/-- A property that is found starts in memory, or right after its end, and is short. -/
theorem bounds_of_findFrom {property fuel a : Nat} {p : Property}
    (h : findFrom m property fuel a = .ok (some p)) : p.address ≤ m.size ∧ p.length ≤ 8 := by
  induction fuel generalizing a with
  | zero => exact nomatch h
  | succ fuel ih =>
      rw [findFrom] at h
      obtain ⟨size, hsize, h⟩ := FailsOnly.bind_eq_ok.mp h
      split at h
      · exact nomatch h
      · split at h
        · cases h
          exact ⟨Memory.lt_size_of_byteAt hsize, propertyLength_le size⟩
        · obtain ⟨next, -, h⟩ := FailsOnly.bind_eq_ok.mp h
          exact ih h

theorem failsOnly_find? (property : Nat) :
    FailsOnly (Fault.OfWork m.size) (t.find? m o property) := by
  unfold find?
  refine .bind (t.failsOnly_firstProperty o) ?_
  intro a _
  exact failsOnly_findFrom property _ a

/-- A property that is found begins in memory, and has at most eight bytes. -/
theorem bounds_of_find? {property : Nat} {p : Property}
    (h : t.find? m o property = .ok (some p)) : p.address ≤ m.size ∧ p.length ≤ 8 := by
  unfold find? at h
  obtain ⟨a, -, h⟩ := FailsOnly.bind_eq_ok.mp h
  exact bounds_of_findFrom h

/-- The value of a property: it is looked for, or the default is read. -/
theorem failsOnly_property (p : UInt16) :
    FailsOnly (Fault.OfWork m.size) (t.property m o p) := by
  unfold property
  split
  · next hp =>
      refine .bind (t.failsOnly_find? o _) ?_
      intro found _
      split
      · refine .bind (m.failsOnly_byteAt _) ?_
        intro b _
        exact .pure _
      · exact m.failsOnly_wordAt _
      · exact .error trivial
      · rw [Checked.sub_of_le hp.1]
        exact m.failsOnly_wordAt _
  · exact .error trivial

/-- The address of a property: it is looked for. -/
theorem failsOnly_propertyAddress (p : UInt16) :
    FailsOnly (Fault.OfWork m.size) (t.propertyAddress m o p) := by
  unfold propertyAddress
  refine .bind (t.failsOnly_find? o _) ?_
  intro found _
  split
  · exact .pure _
  · exact .pure 0

/-- The length of a property: its size byte is read. -/
theorem failsOnly_lengthAt (a : UInt16) : FailsOnly (Fault.OfWork n) (lengthAt m a) := by
  rw [lengthAt_eq]
  split
  · exact .pure 0
  · refine .bind (m.failsOnly_byteAt _) ?_
    intro size _
    exact .pure _

/-- The property after another one: that one is looked for. -/
theorem failsOnly_nextProperty (p : UInt16) :
    FailsOnly (Fault.OfWork m.size) (t.nextProperty m o p) := by
  have hnumber (a : Nat) : FailsOnly (Fault.OfWork m.size) (do
      let size ← m.byteAt a
      pure (UInt16.ofNat (propertyNumber size))) := by
    refine .bind (m.failsOnly_byteAt a) ?_
    intro size _
    exact .pure _
  unfold nextProperty
  dsimp only
  split
  · refine .bind (t.failsOnly_firstProperty o) ?_
    intro a _
    exact hnumber a
  · refine .bind (t.failsOnly_find? o _) ?_
    intro found hfound
    match found with
    | some found =>
        -- What was found begins in memory, and is too short to end far outside.
        obtain ⟨ha, hl⟩ := t.bounds_of_find? o hfound
        refine .bind (failsOnly_advance (by omega)) ?_
        intro a _
        exact hnumber a
    | none =>
        refine .bind (.error trivial) ?_
        intro a _
        exact hnumber a

end ObjectTable

/-! ## Dictionary -/

namespace Dictionary

variable (d : Dictionary)

/-- Searching the dictionary compares entries in memory. -/
theorem failsOnly_search (key : Text.Key) (fuel low high : Nat) :
    FailsOnly (Fault.OfWork n) (d.search m key fuel low high) := by
  -- Every comparison halves what is left to search; all that can fail is reading the entry.
  induction fuel generalizing low high with
  | zero => exact .pure 0
  | succ fuel ih =>
      rw [search]
      split
      · refine .bind ?_ ?_
        · unfold keyAt
          refine .bind (m.failsOnly_wordAt _) ?_
          intro first _
          refine .bind (m.failsOnly_wordAt _) ?_
          intro second _
          exact .pure _
        · intro entry _
          split
          · exact ih _ _
          · exact ih _ _
          · exact .pure _
      · exact .pure 0

theorem failsOnly_lookup (text : String) : FailsOnly (Fault.OfWork n) (d.lookup m text) := by
  unfold lookup
  refine .bind (d.failsOnly_search _ _ _ _) ?_
  intro a _
  exact .pure _

end Dictionary

end ZMachine
