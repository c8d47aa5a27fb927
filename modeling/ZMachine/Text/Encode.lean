import ZMachine.Text.Alphabet
import ZMachine.Text.Case

/-! # Encoding dictionary words

    A dictionary word is kept as six codes in two words. A text is put into
    lower case and written character by character: a space is code 0, a letter
    is one code, other characters of the third alphabet need a shift before
    them, and any other character is escaped. Characters outside ASCII count as
    question marks. Codes past the sixth are dropped, and a shorter text is
    padded with shifts. -/

namespace ZMachine.Text

/-- The two words of an encoded dictionary word. -/
structure Key where
  first : UInt16
  second : UInt16
  deriving DecidableEq, Repr

namespace Key

/-- Keys are ordered by their first words, and by their second words if those agree. -/
def compare (k l : Key) : Ordering :=
  (Ord.compare k.first l.first).then (Ord.compare k.second l.second)

end Key

/-- The number of codes in a dictionary word. -/
def keyLength : Nat := 6

/-- The codes of one lower-case character. -/
def charCodes (c : Char) : List Code :=
  if c = ' ' then [Code.ofNat 0]
  else
    let shown := if c.toNat < 128 then c else '?'
    match Alphabet.lower.place? shown with
    | some i => [Code.ofNat (i + 6)]
    | none =>
        match (Alphabet.punctuation.characters.drop 1).findIdx? (· == shown) with
        | some i => [Code.ofNat 5, Code.ofNat (i + 7)]
        | none =>
            [Code.ofNat 5, Code.ofNat 6, Code.ofNat (shown.toNat / 32), Code.ofNat shown.toNat]

/-- The codes of a text. -/
def textCodes (s : String) : List Code := (lower s).flatMap charCodes

/-- Packs three codes into a word, not marked as the last one. -/
def packWord (a b c : Code) : UInt16 :=
  UInt16.ofNat (1024 * a.val + 32 * b.val + c.val)

/-- Packs the first six codes, filling up with shifts; the second word is marked as the last one. -/
def packKey (cs : List Code) : Key :=
  let code (i : Nat) : Code := cs.getD i (Code.ofNat 5)
  { first := packWord (code 0) (code 1) (code 2)
    second := packWord (code 3) (code 4) (code 5) + 0x8000 }

/-- The key of a text; what does not fit is dropped, even inside a shift or an escape. -/
def encode (s : String) : Key := packKey (textCodes s)

/-- The key of a text that must fit. -/
def encodeExact (s : String) : Except Fault Key :=
  if (textCodes s).length ≤ keyLength then .ok (encode s) else .error (.wordTooLong s)

end ZMachine.Text
