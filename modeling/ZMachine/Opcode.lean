/-! # Opcodes of the version 3 instruction set

    An instruction belongs to one of four classes, by the number of operands
    that its encoding provides for, and carries a number within its class.
    Each class has an enumeration of the operations that are defined in it;
    `ofNumber?` says which number stands for which operation, and a number
    without an operation is illegal. -/

namespace ZMachine

/-- The operand classes of an instruction. -/
inductive OpClass where
  | zero
  | one
  | two
  | many
  deriving DecidableEq, Repr, Inhabited

namespace OpClass

/-- The name of a class in listings and reports. -/
def label : OpClass → String
  | zero => "OP0"
  | one => "OP1"
  | two => "OP2"
  | many => "VAR"

end OpClass

/-- Operations without operands. -/
inductive ZeroOp where
  | rtrue | rfalse | print | printRet | nop | save | restore | restart
  | retPopped | pop | quit | newLine | showStatus | verify
  deriving DecidableEq, Repr

namespace ZeroOp

/-- The operation that a number stands for. -/
def ofNumber? : Nat → Option ZeroOp
  | 0 => some rtrue
  | 1 => some rfalse
  | 2 => some print
  | 3 => some printRet
  | 4 => some nop
  | 5 => some save
  | 6 => some restore
  | 7 => some restart
  | 8 => some retPopped
  | 9 => some pop
  | 10 => some quit
  | 11 => some newLine
  | 12 => some showStatus
  | 13 => some verify
  | _ => none

/-- The mnemonic of an operation. -/
def name : ZeroOp → String
  | rtrue => "rtrue"
  | rfalse => "rfalse"
  | print => "print"
  | printRet => "print_ret"
  | nop => "nop"
  | save => "save"
  | restore => "restore"
  | restart => "restart"
  | retPopped => "ret_popped"
  | pop => "pop"
  | quit => "quit"
  | newLine => "new_line"
  | showStatus => "show_status"
  | verify => "verify"

end ZeroOp

/-- Operations with one operand. -/
inductive OneOp where
  | jz | getSibling | getChild | getParent | getPropLen | inc | dec | printAddr
  | removeObj | printObj | ret | jump | printPaddr | load | not
  deriving DecidableEq, Repr

namespace OneOp

/-- The operation that a number stands for. -/
def ofNumber? : Nat → Option OneOp
  | 0 => some jz
  | 1 => some getSibling
  | 2 => some getChild
  | 3 => some getParent
  | 4 => some getPropLen
  | 5 => some inc
  | 6 => some dec
  | 7 => some printAddr
  | 9 => some removeObj
  | 10 => some printObj
  | 11 => some ret
  | 12 => some jump
  | 13 => some printPaddr
  | 14 => some load
  | 15 => some not
  | _ => none

/-- The mnemonic of an operation. -/
def name : OneOp → String
  | jz => "jz"
  | getSibling => "get_sibling"
  | getChild => "get_child"
  | getParent => "get_parent"
  | getPropLen => "get_prop_len"
  | inc => "inc"
  | dec => "dec"
  | printAddr => "print_addr"
  | removeObj => "remove_obj"
  | printObj => "print_obj"
  | ret => "ret"
  | jump => "jump"
  | printPaddr => "print_paddr"
  | load => "load"
  | not => "not"

end OneOp

/-- Operations with two operands; `je` takes from one to four. -/
inductive TwoOp where
  | je | jl | jg | decChk | incChk | jin | test | or | and | testAttr | setAttr
  | clearAttr | store | insertObj | loadw | loadb | getProp | getPropAddr
  | getNextProp | add | sub | mul | div | mod
  deriving DecidableEq, Repr

namespace TwoOp

/-- The operation that a number stands for. -/
def ofNumber? : Nat → Option TwoOp
  | 1 => some je
  | 2 => some jl
  | 3 => some jg
  | 4 => some decChk
  | 5 => some incChk
  | 6 => some jin
  | 7 => some test
  | 8 => some or
  | 9 => some and
  | 10 => some testAttr
  | 11 => some setAttr
  | 12 => some clearAttr
  | 13 => some store
  | 14 => some insertObj
  | 15 => some loadw
  | 16 => some loadb
  | 17 => some getProp
  | 18 => some getPropAddr
  | 19 => some getNextProp
  | 20 => some add
  | 21 => some sub
  | 22 => some mul
  | 23 => some div
  | 24 => some mod
  | _ => none

/-- The mnemonic of an operation. -/
def name : TwoOp → String
  | je => "je"
  | jl => "jl"
  | jg => "jg"
  | decChk => "dec_chk"
  | incChk => "inc_chk"
  | jin => "jin"
  | test => "test"
  | or => "or"
  | and => "and"
  | testAttr => "test_attr"
  | setAttr => "set_attr"
  | clearAttr => "clear_attr"
  | store => "store"
  | insertObj => "insert_obj"
  | loadw => "loadw"
  | loadb => "loadb"
  | getProp => "get_prop"
  | getPropAddr => "get_prop_addr"
  | getNextProp => "get_next_prop"
  | add => "add"
  | sub => "sub"
  | mul => "mul"
  | div => "div"
  | mod => "mod"

end TwoOp

/-- Operations with a variable number of operands. -/
inductive VarOp where
  | call | storew | storeb | putProp | sread | printChar | printNum | random
  | push | pull | splitWindow | setWindow | outputStream | inputStream
  | soundEffect
  deriving DecidableEq, Repr

namespace VarOp

/-- The operation that a number stands for. -/
def ofNumber? : Nat → Option VarOp
  | 0 => some call
  | 1 => some storew
  | 2 => some storeb
  | 3 => some putProp
  | 4 => some sread
  | 5 => some printChar
  | 6 => some printNum
  | 7 => some random
  | 8 => some push
  | 9 => some pull
  | 10 => some splitWindow
  | 11 => some setWindow
  | 19 => some outputStream
  | 20 => some inputStream
  | 21 => some soundEffect
  | _ => none

/-- The mnemonic of an operation. -/
def name : VarOp → String
  | call => "call"
  | storew => "storew"
  | storeb => "storeb"
  | putProp => "put_prop"
  | sread => "sread"
  | printChar => "print_char"
  | printNum => "print_num"
  | random => "random"
  | push => "push"
  | pull => "pull"
  | splitWindow => "split_window"
  | setWindow => "set_window"
  | outputStream => "output_stream"
  | inputStream => "input_stream"
  | soundEffect => "sound_effect"

end VarOp

/-- An operation of any class. -/
inductive Operation where
  | zero (op : ZeroOp)
  | one (op : OneOp)
  | two (op : TwoOp)
  | many (op : VarOp)
  deriving DecidableEq, Repr

namespace Operation

/-- The operation with a number within a class. -/
def ofNumber? (opClass : OpClass) (number : Nat) : Option Operation :=
  match opClass with
  | .zero => (ZeroOp.ofNumber? number).map zero
  | .one => (OneOp.ofNumber? number).map one
  | .two => (TwoOp.ofNumber? number).map two
  | .many => (VarOp.ofNumber? number).map many

/-- The mnemonic of an operation. -/
def name : Operation → String
  | zero op => op.name
  | one op => op.name
  | two op => op.name
  | many op => op.name

end Operation

namespace OpClass

/-- The mnemonic of a number within a class, or `illegal` if it stands for no operation. -/
def mnemonic (opClass : OpClass) (number : Nat) : String :=
  ((Operation.ofNumber? opClass number).map Operation.name).getD "illegal"

end OpClass

end ZMachine
