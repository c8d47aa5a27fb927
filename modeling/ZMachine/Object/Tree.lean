import ZMachine.Object.Table

/-! # Object tree

    An object names its parent, its next sibling and its first child; 0 stands
    for none. Removing an object takes it out of the list of its parent's
    children, and inserting puts it in front of the children of another. The
    links may be inconsistent, so the walk along a list of children visits no
    more objects than there are. -/

namespace ZMachine

/-- The links of an object. -/
inductive Link where
  | parent
  | sibling
  | child
  deriving DecidableEq, Repr

namespace Link

/-- Where a link stands in the entry of an object. -/
def offset : Link → Nat
  | parent => 4
  | sibling => 5
  | child => 6

end Link

namespace ObjectTable

/-- The object that a link of an object names. -/
def link (t : ObjectTable) (m : Memory) (l : Link) (o : UInt16) : Except Fault UInt16 := do
  let e ← t.entry o
  let b ← m.byteAt (e + l.offset)
  pure b.toUInt16

/-- Sets a link of an object. A number that does not fit into a byte is refused first. -/
def setLink (t : ObjectTable) (l : Link) (o target : UInt16) : Action Memory Unit := do
  if maxObjects < target.toNat then .fail (.invalidObject target)
  let e ← .ofExcept (t.entry o)
  Memory.writeByte (e + l.offset) (UInt8.ofNat target.toNat)

/-- Walks along siblings from `previous` for at most `fuel` objects and makes the
    one right before `o` point to `next`. -/
def bypass (t : ObjectTable) (o next : UInt16) : (fuel : Nat) → (previous : UInt16) →
    Action Memory Unit
  | 0, _ => pure ()
  | fuel + 1, previous =>
      if previous = 0 then pure ()
      else do
        let s ← .ask (t.link · .sibling previous)
        if s = o then t.setLink .sibling previous next
        else bypass t o next fuel s

/-- Takes an object out of the children of its parent. -/
def remove (t : ObjectTable) (o : UInt16) : Action Memory Unit := do
  let parent ← .ask (t.link · .parent o)
  if parent = 0 then pure ()
  else
    let next ← .ask (t.link · .sibling o)
    let first ← .ask (t.link · .child parent)
    if first = o then t.setLink .child parent next
    else t.bypass o next (t.count + 1) first
    t.setLink .parent o 0
    t.setLink .sibling o 0

/-- Makes an object the first child of another. -/
def insert (t : ObjectTable) (o destination : UInt16) : Action Memory Unit := do
  let _ ← .ofExcept (t.entry destination)
  t.remove o
  let first ← .ask (t.link · .child destination)
  t.setLink .sibling o first
  t.setLink .parent o destination
  t.setLink .child destination o

end ObjectTable

end ZMachine
