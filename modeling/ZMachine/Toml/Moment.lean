import ZMachine.Text.Reader
import ZMachine.Toml.Value

/-! # Dates and times

    A moment is a date, a time of day, or both with a letter or a blank between
    them and perhaps an offset from universal time. -/

namespace ZMachine.Toml

open Text

/-- Reads a number of exactly `width` digits that lies between two bounds. -/
def readPart (width low high : Nat) : Reader Nat := fun cs =>
  let digits := cs.take width
  let n := decimalValue digits
  if digits.length = width ∧ digits.all Char.isDigit ∧ low ≤ n ∧ n ≤ high then
    some (n, cs.drop width)
  else none

/-- Reads a given character. -/
def readMark (mark : Char) : Reader Unit
  | c :: rest => if c = mark then some ((), rest) else none
  | [] => none

/-- The number of days of a month. -/
def daysIn (year month : Nat) : Nat :=
  if month = 2 then
    if year % 4 = 0 ∧ (year % 100 ≠ 0 ∨ year % 400 = 0) then 29 else 28
  else if month ∈ [4, 6, 9, 11] then 30
  else 31

/-- Reads a date. -/
def readDate : Reader Date := fun cs => do
  let (year, cs) ← readPart 4 0 9999 cs
  let (_, cs) ← readMark '-' cs
  let (month, cs) ← readPart 2 1 12 cs
  let (_, cs) ← readMark '-' cs
  let (day, cs) ← readPart 2 1 (daysIn year month) cs
  pure ({ year, month, day }, cs)

/-- Reads the fraction of a second, if there is one. -/
def readSecondFraction (cs : List Char) : List Char × List Char :=
  match cs with
  | '.' :: rest =>
      match rest.span Char.isDigit with
      | ([], _) => ([], cs)
      | read => read
  | _ => ([], cs)

/-- Reads hours and minutes. -/
def readMinutes : Reader (Nat × Nat) := fun cs => do
  let (hour, cs) ← readPart 2 0 23 cs
  let (_, cs) ← readMark ':' cs
  let (minute, cs) ← readPart 2 0 59 cs
  pure ((hour, minute), cs)

/-- Reads a time of day; a minute may have a leap second. -/
def readTime : Reader Time := fun cs => do
  let ((hour, minute), cs) ← readMinutes cs
  let (_, cs) ← readMark ':' cs
  let (second, cs) ← readPart 2 0 60 cs
  let (fraction, cs) := readSecondFraction cs
  pure ({ hour, minute, second, fraction }, cs)

/-- Reads an offset from universal time, if there is one. -/
def readOffset : Reader (Option Int)
  | 'Z' :: rest | 'z' :: rest => some (some 0, rest)
  | '+' :: rest => do
      let ((hour, minute), cs) ← readMinutes rest
      pure (some (60 * hour + minute : Nat), cs)
  | '-' :: rest => do
      let ((hour, minute), cs) ← readMinutes rest
      pure (some (-(60 * hour + minute : Nat)), cs)
  | cs => some (none, cs)

/-- Reads a time of day and perhaps an offset. -/
def readTimeWithOffset : Reader (Time × Option Int) := fun cs => do
  let (time, cs) ← readTime cs
  let (offset, cs) ← readOffset cs
  pure ((time, offset), cs)

/-- Reads what follows a date. Where that is no time of day, the moment is the date alone. -/
def readAfterDate (date : Date) (cs : List Char) : Moment × List Char :=
  match cs with
  | 'T' :: rest | 't' :: rest | ' ' :: rest =>
      match readTimeWithOffset rest with
      | some ((time, offset), rest) => ({ date := some date, time := some time, offset }, rest)
      | none => ({ date := some date }, cs)
  | _ => ({ date := some date }, cs)

/-- Reads a moment. -/
def readMoment : Reader Value := fun cs =>
  match readDate cs with
  | some (date, rest) =>
      let (m, rest) := readAfterDate date rest
      some (.moment m, rest)
  | none => (readTime cs).map fun (time, rest) => (.moment { time := some time }, rest)

end ZMachine.Toml
