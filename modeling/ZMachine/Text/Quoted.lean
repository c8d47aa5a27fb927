import ZMachine.Text.Printable

/-! # Quoted text

    A text between quotation marks, as reports show it: quotation marks and
    backslashes have a backslash before them, some control characters have an
    escape of their own, and all other characters that are not printable are
    shown by their number. -/

namespace ZMachine.Text

/-- A character within quotation marks. -/
def quoteChar (c : Char) : List Char :=
  if c = '"' then ['\\', '"']
  else if c = '\\' then ['\\', '\\']
  else if c = '\n' then ['\\', 'n']
  else if c = '\r' then ['\\', 'r']
  else if c = '\t' then ['\\', 't']
  else if c.toNat = 0 then ['\\', '0']
  else if isPrintable c then [c]
  else ['\\', 'u', '\x7b'] ++ Nat.toDigits 16 c.toNat ++ ['\x7d']

/-- A text between quotation marks. -/
def quote (s : String) : String :=
  String.ofList ('"' :: s.toList.flatMap quoteChar ++ ['"'])

end ZMachine.Text
