import ZMachine.Text.Decode

/-! # Object table

    The table starts with 31 words, the default values of the properties, and
    goes on with nine bytes for each object: four bytes of attributes, the
    numbers of its parent, sibling and child, and the address of its property
    table. Objects are numbered from 1. The table does not say how many there
    are: it ends where the first property table starts. -/

namespace ZMachine

/-- Where the objects of a story are and how many there are. -/
structure ObjectTable where
  /-- The address of the default property values. -/
  defaults : Nat
  count : Nat
  deriving DecidableEq, Repr, Inhabited

namespace ObjectTable

/-- The greatest number of objects. -/
def maxObjects : Nat := 255

/-- The number of bytes of an entry. -/
def entrySize : Nat := 9

/-- The address of the first entry of a table. -/
def firstEntry (defaults : Nat) : Nat := defaults + 62

/-- The number of entries from the `k`-th on, at most `room` more, plus `k`.
    Counting stops at an entry that does not fit into memory, and at an entry
    at or after `lowest`, the lowest address of a property table so far. -/
def countFrom (m : Memory) (start : Nat) : (room k lowest : Nat) → Except Fault Nat
  | 0, k, _ => pure k
  | room + 1, k, lowest =>
      let e := start + entrySize * k
      if lowest ≤ e ∨ m.size < e + entrySize then pure k
      else do
        let properties ← m.wordAt (e + 7)
        countFrom m start room (k + 1) (min lowest properties.toNat)

/-- Locates the objects that a header names. Before the first entry there is no
    lowest property table, so the search starts from an address above all tables. -/
def ofMemory (m : Memory) (h : Header) : Except Fault ObjectTable := do
  let defaults := h.objects.toNat
  let count ← countFrom m (firstEntry defaults) maxObjects 0 0x100000000
  pure { defaults, count }

/-- The address of the entry of an object. -/
def entry (t : ObjectTable) (o : UInt16) : Except Fault Nat :=
  if 1 ≤ o.toNat ∧ o.toNat ≤ t.count then do
    let i ← Checked.sub .objectNumber o.toNat 1
    pure (firstEntry t.defaults + entrySize * i)
  else .error (.invalidObject o)

/-- The address of the property table of an object. -/
def propertyTable (t : ObjectTable) (m : Memory) (o : UInt16) : Except Fault Nat := do
  let e ← t.entry o
  let a ← m.wordAt (e + 7)
  pure a.toNat

/-- The short name of an object; `abbreviations` is the address of the abbreviation table. -/
def shortName (t : ObjectTable) (m : Memory) (abbreviations : Nat) (o : UInt16) :
    Except Fault String := do
  let a ← t.propertyTable m o
  let length ← m.byteAt a
  if length = 0 then pure ""
  else
    let (text, _) ← Text.decode m abbreviations (a + 1)
    pure text

/-- The short names of all objects, in the order of their numbers. -/
def names (t : ObjectTable) (m : Memory) (abbreviations : Nat) : Except Fault (List String) :=
  (List.range t.count).mapM fun i => t.shortName m abbreviations (UInt16.ofNat (i + 1))

/-- The entry of an object in a listing of short names. -/
def describeName (number : Nat) (name : String) : String :=
  Numeral.decimal ' ' 3 number ++ ": \"" ++ name ++ "\""

end ObjectTable

end ZMachine
