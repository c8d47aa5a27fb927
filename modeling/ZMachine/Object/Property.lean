import ZMachine.Object.Table

/-! # Properties

    A property table holds the short name of its object and then the object's
    properties in descending order of their numbers, 31 to 1. A property is a
    size byte, which gives its number and its length of 1 to 8 bytes, and its
    data; a size byte of zero ends the list. A property that an object lacks
    has the default value of the table. -/

namespace ZMachine

/-- Where the data of a property is. -/
structure Property where
  address : Nat
  length : Nat
  deriving DecidableEq, Repr

namespace ObjectTable

/-- The greatest number of a property. -/
def maxProperty : Nat := 31

/-- The number of a property with a given size byte. -/
def propertyNumber (size : UInt8) : Nat := size.toNat % 32

/-- The length of a property with a given size byte. -/
def propertyLength (size : UInt8) : Nat := size.toNat / 32 + 1

/-- The address `n` bytes on, which must stay within 32 bits. -/
def advance (a n : Nat) : Except Fault Nat :=
  if a + n < 0x100000000 then .ok (a + n) else .error (.defect .addressSpace)

/-- The address of the first size byte of an object. -/
def firstProperty (t : ObjectTable) (m : Memory) (o : UInt16) : Except Fault Nat := do
  let a ← t.propertyTable m o
  let nameWords ← m.byteAt a
  pure (a + 1 + 2 * nameWords.toNat)

/-- Looks for a property among at most `fuel` size bytes from an address on. -/
def findFrom (m : Memory) (property : Nat) : (fuel a : Nat) → Except Fault (Option Property)
  | 0, a => .error (m.outside a 1)
  | fuel + 1, a => do
      let size ← m.byteAt a
      if size = 0 ∨ propertyNumber size < property then pure none
      else if propertyNumber size = property then
        pure (some ⟨a + 1, propertyLength size⟩)
      else
        let next ← advance a (1 + propertyLength size)
        findFrom m property fuel next

/-- Looks for a property of an object. No list has more size bytes than memory has bytes. -/
def find? (t : ObjectTable) (m : Memory) (o : UInt16) (property : Nat) :
    Except Fault (Option Property) := do
  let a ← t.firstProperty m o
  findFrom m property (m.size + 1) a

/-- The value of a property: a byte, a word, or the default value. -/
def property (t : ObjectTable) (m : Memory) (o p : UInt16) : Except Fault UInt16 := do
  if 1 ≤ p.toNat ∧ p.toNat ≤ maxProperty then
    match ← t.find? m o p.toNat with
    | some ⟨a, 1⟩ => do
        let b ← m.byteAt a
        pure b.toUInt16
    | some ⟨a, 2⟩ => m.wordAt a
    | some ⟨_, n⟩ => .error (.propertyLength "get_prop" o p n)
    | none => do
        let i ← Checked.sub .defaultNumber p.toNat 1
        m.wordAt (t.defaults + 2 * i)
  else .error (.propertyNumber o p)

/-- Sets a property of one or two bytes. -/
def putProperty (t : ObjectTable) (o p value : UInt16) : Action Memory Unit := do
  match ← .ask (t.find? · o p.toNat) with
  | some ⟨a, 1⟩ => Memory.writeByte a (lowByte value)
  | some ⟨a, 2⟩ => Memory.writeWord a value
  | some ⟨_, n⟩ => .fail (.propertyLength "put_prop" o p n)
  | none => .fail (.missingProperty o p)

/-- The address of the data of a property, in 16 bits, or 0 if the object lacks it. -/
def propertyAddress (t : ObjectTable) (m : Memory) (o p : UInt16) : Except Fault UInt16 := do
  match ← t.find? m o p.toNat with
  | some found => pure (UInt16.ofNat found.address)
  | none => pure 0

/-- The length of the property whose data is at an address; 0 for address 0. -/
def lengthAt (m : Memory) (a : UInt16) : Except Fault UInt16 := do
  if a = 0 then pure 0
  else
    let before ← Checked.sub .sizeAddress a.toNat 1
    let size ← m.byteAt before
    pure (UInt16.ofNat (propertyLength size))

/-- The number of the property after `p`, or of the first one if `p` is 0; 0 at the end of
    the list. -/
def nextProperty (t : ObjectTable) (m : Memory) (o p : UInt16) : Except Fault UInt16 := do
  let a ←
    if p = 0 then t.firstProperty m o
    else
      match ← t.find? m o p.toNat with
      | some found => advance found.address found.length
      | none => .error (.missingProperty o p)
  let size ← m.byteAt a
  pure (UInt16.ofNat (propertyNumber size))

end ObjectTable

end ZMachine
