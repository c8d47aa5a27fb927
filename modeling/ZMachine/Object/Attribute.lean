import ZMachine.Object.Table

/-! # Attributes

    Each object has 32 attributes, one bit each, starting with the most
    significant bit of the first byte of its entry. Higher numbers name no
    attribute: they test false and cannot be set. -/

namespace ZMachine.ObjectTable

/-- The number of attributes of an object. -/
def attributeCount : Nat := 32

/-- The number of bytes that the attributes of an object take up. -/
def attributeBytes : Nat := 4

/-- The bit of an attribute within its byte. -/
def attributeMask (n : Nat) : UInt8 := UInt8.ofNat (1 <<< (7 - n % 8))

/-- The byte of an attribute within the entry of an object. -/
def attributeOffset (n : Nat) : Except Fault Nat := do
  Checked.require .attributeIndex (n < 8 * attributeBytes)
  pure (n / 8)

/-- Whether an object has an attribute. -/
def hasAttribute (t : ObjectTable) (m : Memory) (o n : UInt16) : Except Fault Bool := do
  if attributeCount ≤ n.toNat then pure false
  else
    let e ← t.entry o
    let i ← attributeOffset n.toNat
    let b ← m.byteAt (e + i)
    pure (b &&& attributeMask n.toNat != 0)

/-- Gives an attribute to an object or takes it away. -/
def setAttribute (t : ObjectTable) (o n : UInt16) (on : Bool) : Action Memory Unit := do
  if attributeCount ≤ n.toNat then pure ()
  else
    let e ← .ofExcept (t.entry o)
    let i ← .ofExcept (attributeOffset n.toNat)
    let a := e + i
    let b ← .ask (·.byteAt a)
    let mask := attributeMask n.toNat
    Memory.writeByte a (if on then b ||| mask else b &&& ~~~mask)

end ZMachine.ObjectTable
