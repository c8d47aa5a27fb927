import ZMachine.Action

/-! # Devices

    A device is what a story talks to: it prints text, reads lines and may
    show a status line. A line comes without its ending, and the end of input
    reads as an empty line. -/

namespace ZMachine

/-- The operations of a device. -/
class Device (δ : Type) where
  /-- Prints a text. -/
  print : String → Action δ Unit
  /-- Reads a line. -/
  readLine : Action δ String
  /-- Shows a status line: the location, and the score or the time. -/
  showStatus : String → String → Action δ Unit

/-- Whether a character ends a line. -/
def isLineEnding (c : Char) : Bool := c == '\n' || c == '\r'

/-- A line without the line endings at its end. -/
def trimLineEnding (line : String) : String :=
  String.ofList (line.toList.reverse.dropWhile isLineEnding).reverse

end ZMachine
