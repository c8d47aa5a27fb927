/-! # UTF-8

    Bytes are read as characters in their shortest UTF-8 form. Where bytes do
    not form a character, the longest run that could have begun one is
    skipped as a whole, and a single byte if none could. -/

namespace ZMachine.Utf8

/-- The bytes of characters. -/
def encode (cs : List Char) : List UInt8 := cs.flatMap String.utf8EncodeChar

/-- The number of bytes of a character that starts with a given byte, or 0 if none does. -/
def sequenceLength (first : Nat) : Nat :=
  if first < 0x80 then 1
  else if first < 0xC2 then 0
  else if first < 0xE0 then 2
  else if first < 0xF0 then 3
  else if first < 0xF5 then 4
  else 0

/-- Whether a byte can follow within a character. -/
def isFollower (b : UInt8) : Bool := b.toNat / 64 == 2

/-- Whether a byte can be the second of a character with a given first byte. This
    rules out longer forms than needed, surrogates and numbers above the last character. -/
def isSecond (first second : UInt8) : Bool :=
  isFollower second &&
    match first.toNat with
    | 0xE0 => decide (0xA0 ≤ second.toNat)
    | 0xED => decide (second.toNat < 0xA0)
    | 0xF0 => decide (0x90 ≤ second.toNat)
    | 0xF4 => decide (second.toNat < 0x90)
    | _ => true

/-- The six bits that a following byte adds to the number of a character. -/
def extend (high : Nat) (b : UInt8) : Nat := 64 * high + b.toNat % 64

/-- The characters of bytes; `none` stands for bytes that form no character. -/
def pieces : List UInt8 → List (Option Char)
  | [] => []
  | a :: rest =>
      match sequenceLength a.toNat, rest with
      | 1, rest => some (Char.ofNat a.toNat) :: pieces rest
      | 2, b :: rest =>
          if isSecond a b then some (Char.ofNat (extend (a.toNat % 32) b)) :: pieces rest
          else none :: pieces (b :: rest)
      | 3, b :: rest =>
          if isSecond a b then
            match rest with
            | c :: rest =>
                if isFollower c then
                  some (Char.ofNat (extend (extend (a.toNat % 16) b) c)) :: pieces rest
                else none :: pieces (c :: rest)
            | [] => [none]
          else none :: pieces (b :: rest)
      | 4, b :: rest =>
          if isSecond a b then
            match rest with
            | c :: rest =>
                if isFollower c then
                  match rest with
                  | d :: rest =>
                      if isFollower d then
                        some (Char.ofNat (extend (extend (extend (a.toNat % 8) b) c) d))
                          :: pieces rest
                      else none :: pieces (d :: rest)
                  | [] => [none]
                else none :: pieces (c :: rest)
            | [] => [none]
          else none :: pieces (b :: rest)
      | _, rest => none :: pieces rest

/-- The text of bytes, with a replacement character for each run that forms no character. -/
def decodeLossy (bytes : List UInt8) : String :=
  String.ofList ((pieces bytes).map fun c => c.getD '\ufffd')

/-- The text of bytes that form characters throughout. -/
def decode? (bytes : List UInt8) : Option String :=
  ((pieces bytes).mapM id).map String.ofList

end ZMachine.Utf8
