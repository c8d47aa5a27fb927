import ZMachine.Checked
import ZMachine.Memory.Scan

/-! # Instructions

    An instruction in memory is an opcode byte, for the variable form a byte
    that lists the kinds of its operands, and the operands. What follows (the
    byte that names the variable for a result, the branch descriptor, a
    string) is not part of it: the operation reads those itself. -/

namespace ZMachine

/-- The layouts of an instruction. -/
inductive Form where
  | long
  | short
  | variadic
  deriving DecidableEq, Repr

/-- The kinds of operand. -/
inductive OperandKind where
  | large
  | small
  | var
  deriving DecidableEq, Repr

namespace OperandKind

/-- The kind that two bits stand for; the value 3 stands for no operand. -/
def ofBits? (bits : Nat) : Option OperandKind :=
  match bits % 4 with
  | 0 => some large
  | 1 => some small
  | 2 => some var
  | _ => none

/-- The number of bytes of an operand. -/
def size : OperandKind → Nat
  | large => 2
  | small => 1
  | var => 1

end OperandKind

/-- An operand as it is encoded: a constant word, a constant byte, or the number of a variable. -/
inductive Operand where
  | large (value : UInt16)
  | small (value : UInt8)
  | var (number : UInt8)
  deriving DecidableEq, Repr

namespace Operand

/-- The kind of an operand. -/
def kind : Operand → OperandKind
  | large _ => .large
  | small _ => .small
  | var _ => .var

/-- The encoded value of an operand. -/
def raw : Operand → UInt16
  | large value => value
  | small value => value.toUInt16
  | var number => number.toUInt16

/-- Reads an operand of a kind. -/
def scan : OperandKind → Scan Operand
  | .large => large <$> Scan.word
  | .small => small <$> Scan.byte
  | .var => var <$> Scan.byte

/-- Reads operands of the given kinds, in order. -/
def scanAll : List OperandKind → Scan (List Operand)
  | [] => pure []
  | k :: ks => do
      let x ← scan k
      let xs ← scanAll ks
      pure (x :: xs)

open Numeral in
/-- An operand in a listing: the stack, a local or a global variable, or a constant. -/
def describe : Operand → String
  | large value => "#" ++ hex 4 value.toNat
  | small value => "#" ++ hex 4 value.toNat
  | var number =>
      if number.toNat = 0 then "(SP)"
      else if number.toNat < 16 then "L" ++ hex 2 (number.toNat - 1)
      else "G" ++ hex 2 (number.toNat - 16)

end Operand

/-- A decoded instruction. -/
structure Instruction where
  /-- The address of the opcode byte. -/
  address : Nat
  form : Form
  opClass : OpClass
  /-- The number of the operation within its class. -/
  number : Nat
  operands : List Operand
  /-- The number of bytes from the opcode byte to the last operand. -/
  size : Nat
  deriving DecidableEq, Repr

namespace Instruction

/-- The kinds that a type byte lists: four pairs of bits, up to the first that stands for none. -/
def kinds (types : UInt8) : List OperandKind :=
  ([types.toNat / 64, types.toNat / 16, types.toNat / 4, types.toNat].map
    OperandKind.ofBits?).takeWhile Option.isSome |>.filterMap id

/-- The kind of an operand in the long form. -/
def longKind (isVar : Bool) : OperandKind := if isVar then .var else .small

/-- Form, class, number and operand kinds of an instruction with a given opcode
    byte; the variable form reads its type byte. -/
def scanHead (opcode : UInt8) : Scan (Form × OpClass × Nat × List OperandKind) := do
  let b := opcode.toNat
  if b < 128 then
    pure (.long, .two, b % 32, [longKind (b / 64 % 2 == 1), longKind (b / 32 % 2 == 1)])
  else if b < 192 then
    match OperandKind.ofBits? (b / 16) with
    | none => pure (.short, .zero, b % 16, [])
    | some k => pure (.short, .one, b % 16, [k])
  else
    let types ← Scan.byte
    pure (.variadic, if b / 32 % 2 == 0 then .two else .many, b % 32, kinds types)

/-- Reads an instruction. -/
def scan : Scan Instruction := do
  let address ← Scan.position
  let opcode ← Scan.byte
  let (form, opClass, number, ks) ← scanHead opcode
  let operands ← Operand.scanAll ks
  let stop ← Scan.position
  let size ← Scan.ofExcept (Checked.sub .instructionSize stop address)
  pure { address, form, opClass, number, operands, size }

/-- The mnemonic of an instruction. -/
def name (i : Instruction) : String := i.opClass.mnemonic i.number

/-- An instruction in a listing. -/
def describe (i : Instruction) : String :=
  Numeral.hex 5 i.address ++ ": " ++ i.name
    ++ String.join (i.operands.map fun x => " " ++ x.describe)

end Instruction

end ZMachine
