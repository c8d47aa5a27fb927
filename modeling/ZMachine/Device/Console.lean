import ZMachine.Device
import ZMachine.Text.Utf8

/-! # Console

    The console reads lines from the bytes of an input and prints to an
    output. When the input is not typed at the console itself, the lines that
    are read are printed too, so that the output reads as a transcript. -/

namespace ZMachine

/-- A console. -/
structure Console where
  input : List UInt8
  /-- Whether more input may come after what is there. -/
  isOpen : Bool := false
  /-- Whether lines that are read are printed. -/
  echo : Bool := true
  output : String := ""
  deriving DecidableEq, Repr

namespace Console

/-- The bytes of the first line, with its line feed, and the bytes after it. -/
def splitLine (input : List UInt8) : List UInt8 × List UInt8 :=
  match input.span (· != 10) with
  | (line, feed :: rest) => (line ++ [feed], rest)
  | (line, []) => (line, [])

/-- Whether the input has a line to read, or none is to come. -/
def isReady (c : Console) : Bool := !c.isOpen || c.input.contains 10

/-- Takes a line off the input. -/
def readLine : Action Console String := fun c =>
  if c.isReady then
    match splitLine c.input with
    | ([], _) => (.ok "", c)
    | (bytes, rest) =>
        match Utf8.decode? bytes with
        | none => (.error (.stream .invalidText), { c with input := rest })
        | some text =>
            let line := trimLineEnding text
            (.ok line, { c with
              input := rest
              output := if c.echo then c.output ++ line ++ "\n" else c.output })
  else (.error (.stream .wouldBlock), c)

instance : Device Console where
  print text := .change fun c => { c with output := c.output ++ text }
  readLine := readLine
  showStatus _ _ := pure ()

end Console

end ZMachine
