import ZMachine.Device.Message

/-! # Messages round trip

    A message that is written is read as the same message, whatever characters
    its texts are made of: quotation marks, backslashes and control characters
    are escaped and come back.

    * `Json.readString_render`: strings;
    * `Json.readMembers_render`: the members of an object whose values are strings;
    * `Message.parse?_render`: messages. -/

namespace ZMachine

namespace Json

open Text

/-! ## Strings -/

/-- The four digits of a control character have its number as their value. -/
theorem digitsBelow?_hexPair {n : Nat} (h : n < 32) :
    digitsBelow? 16 0x10000 ('0' :: '0' :: hexPair n) = some n := by
  have hall : ∀ n < 32, digitsBelow? 16 0x10000 ('0' :: '0' :: hexPair n) = some n := by decide
  exact hall n h

/-- An escaped character is read by its number. -/
theorem readString_unicode {n : Nat} {a b c d : Char} {rest : List Char} (hn : n < 0xD800)
    (hdigits : digitsBelow? 16 0x10000 [a, b, c, d] = some n) :
    readString ('\\' :: 'u' :: a :: b :: c :: d :: rest) =
      (readString rest).map (prepend (Char.ofNat n)) := by
  rw [readString.eq_def]
  simp only [hdigits]
  rw [if_neg (by omega), if_neg (by omega)]

/-- A character that needs no escape is read as it is. -/
theorem readString_plain {c : Char} {rest : List Char} (hquote : c ≠ '"') (hescape : c ≠ '\\')
    (hcontrol : ¬ c.toNat < 32) :
    readString (c :: rest) = (readString rest).map (prepend c) := by
  rw [readString.eq_def]
  split
  · next h => cases h
  · next h => exact absurd (List.cons.inj h).1 hquote
  · next h => exact absurd (List.cons.inj h).1 hescape
  · next h => exact absurd (List.cons.inj h).1 hescape
  · next h =>
      obtain ⟨rfl, rfl⟩ := List.cons.inj h
      rw [if_neg (by simp only [hescape, hcontrol, or_self, not_false_eq_true])]

/-- A character that is escaped if need be is read as this character. -/
theorem readString_escapeChar (c : Char) (rest : List Char) :
    readString (escapeChar c ++ rest) = (readString rest).map (prepend c) := by
  unfold escapeChar
  -- the seven characters that have a letter of their own
  iterate 7
    split
    · subst c
      rfl
  split
  · next h =>
      refine (readString_unicode (n := c.toNat) (by omega) (digitsBelow?_hexPair h)).trans ?_
      rw [Char.ofNat_toNat]
      rfl
  · next hquote hescape _ _ _ _ _ hcontrol =>
      exact readString_plain hquote hescape hcontrol

/-- A string that is written is read up to its closing quotation mark. -/
theorem readString_render (cs rest : List Char) :
    readString (cs.flatMap escapeChar ++ '"' :: rest) = some (cs, rest) := by
  induction cs with
  | nil => rfl
  | cons c cs ih =>
      rw [List.flatMap_cons, List.append_assoc, readString_escapeChar, ih]
      rfl

/-- A string that is written is read again, whatever follows. -/
theorem readValue_renderString (depth : Nat) (s : String) (rest : List Char) :
    readValue depth (renderString s ++ rest) = some (.string s, rest) := by
  have hscalar : readScalar (renderString s ++ rest) = some (.string s, rest) := by
    show (readString (s.toList.flatMap escapeChar ++ ['"'] ++ rest)).map _ = _
    rw [List.append_assoc, List.singleton_append, readString_render]
    show some (Value.string (String.ofList s.toList), rest) = _
    rw [String.ofList_toList]
  cases depth with
  | zero => exact hscalar
  | succ depth => exact hscalar

/-! ## Objects -/

/-- A member is its key, a colon and its value. -/
theorem renderMember_append (k v : String) (rest : List Char) :
    Message.renderMember k v ++ rest =
      '"' :: (k.toList.flatMap escapeChar ++ '"' :: ':' :: (renderString v ++ rest)) := by
  simp [Message.renderMember, renderString]

/-- A member whose value is a string, with another one after it. -/
theorem readMembers_comma {depth fuel : Nat} {k v : String} {rest : List Char} :
    readMembers (readValue depth) (fuel + 1) (Message.renderMember k v ++ ',' :: rest) =
      (readMembers (readValue depth) fuel rest).map fun r => ((k, .string v) :: r.1, r.2) := by
  have hquote (cs : List Char) : skipBlanks ('"' :: cs) = '"' :: cs := rfl
  have hcolon (cs : List Char) : skipBlanks (':' :: cs) = ':' :: cs := rfl
  have hcomma : skipBlanks (',' :: rest) = ',' :: rest := rfl
  rw [renderMember_append, readMembers, hquote]
  simp only [readString_render, hcolon, readValue_renderString, hcomma, String.ofList_toList]

/-- A member whose value is a string, at the end of an object. -/
theorem readMembers_close {depth fuel : Nat} {k v : String} {rest : List Char} :
    readMembers (readValue depth) (fuel + 1) (Message.renderMember k v ++ '\x7d' :: rest) =
      some ([(k, .string v)], rest) := by
  have hquote (cs : List Char) : skipBlanks ('"' :: cs) = '"' :: cs := rfl
  have hcolon (cs : List Char) : skipBlanks (':' :: cs) = ':' :: cs := rfl
  have hbrace : skipBlanks ('\x7d' :: rest) = '\x7d' :: rest := rfl
  rw [renderMember_append, readMembers, hquote]
  simp only [readString_render, hcolon, readValue_renderString, hbrace, String.ofList_toList]

/-- Members with strings as values are read in their order. -/
theorem readMembers_render {depth fuel : Nat} {k v : String} {members : List (String × String)}
    (hfuel : members.length < fuel) (rest : List Char) :
    readMembers (readValue depth) fuel
      (List.intercalate [','] (((k, v) :: members).map fun (k, v) => Message.renderMember k v)
        ++ '\x7d' :: rest) =
      some (((k, v) :: members).map fun (k, v) => (k, .string v), rest) := by
  obtain ⟨fuel, rfl⟩ : ∃ n, fuel = n + 1 := ⟨fuel - 1, by omega⟩
  induction members generalizing k v fuel with
  | nil =>
      rw [List.map_singleton, List.intercalate_singleton, readMembers_close]
      rfl
  | cons member members ih =>
      obtain ⟨k', v'⟩ := member
      obtain ⟨fuel, rfl⟩ : ∃ n, fuel = n + 1 := ⟨fuel - 1, by simp at hfuel; omega⟩
      rw [List.map_cons, List.map_cons, List.intercalate_cons_cons, List.append_assoc,
        List.append_assoc, List.singleton_append, readMembers_comma]
      have hrest := ih (k := k') (v := v') fuel (by simpa using hfuel)
      exact congrArg (Option.map fun r => ((k, .string v) :: r.1, r.2)) hrest

end Json

namespace Message

open Json

/-- The members of the object that stands for a message. -/
def members : Message → List (String × String)
  | text data => [("type", "text"), ("data", data)]
  | status location right => [("type", "status"), ("location", location), ("right", right)]
  | close => [("type", "close")]

/-- The text of a message after its opening brace. -/
def body (m : Message) : List Char :=
  List.intercalate [','] (m.members.map fun (k, v) => renderMember k v) ++ ['\x7d']

/-- A message is an object. -/
theorem render_eq (m : Message) : m.render = '\x7b' :: m.body := by
  cases m <;> rfl

/-- A text message is its characters, escaped, between a front and a back that do not vary. -/
theorem render_text (data : String) : (text data).render =
    '\x7b' :: (renderMember "type" "text" ++ ',' :: (renderString "data" ++ [':', '"']))
      ++ (data.toList.flatMap escapeChar ++ ['"', '\x7d']) := by
  simp [render, renderMember, renderString, List.intercalate]

/-- An object that has a member begins with a quotation mark. -/
theorem exists_body_eq (m : Message) : ∃ cs, m.body = '"' :: cs := by
  cases m <;> exact ⟨_, rfl⟩

/-- There are no more members than characters. -/
theorem length_members_le (m : Message) : m.members.length ≤ m.body.length := by
  cases m <;> simp [body, members, renderMember, renderString, List.intercalate] <;> omega

/-- The members that are written are read again. -/
theorem readMembers_body (depth : Nat) (m : Message) :
    readMembers (readValue depth) m.body.length m.body =
      some (m.members.map fun (k, v) => (k, .string v), []) := by
  have hlength := m.length_members_le
  cases m <;> exact readMembers_render hlength []

theorem readValue_render (m : Message) : readValue maxDepth m.render =
    some (.object (m.members.map fun (k, v) => (k, .string v)), []) := by
  obtain ⟨cs, hcs⟩ := m.exists_body_eq
  have hread := readMembers_body 126 m
  rw [hcs] at hread
  rw [render_eq, hcs]
  show (readMembers (readValue 126) ('"' :: cs).length ('"' :: cs)).map _ = _
  rw [hread]
  rfl

/-- A message that is written is read as the same message. -/
theorem parse?_render (m : Message) : parse? (String.ofList m.render) = some m := by
  have hjson : Json.parse? (String.ofList m.render) =
      some (.object (m.members.map fun (k, v) => (k, .string v))) := by
    rw [Json.parse?, String.toList_ofList, readValue_render]
    rfl
  rw [parse?, hjson]
  cases m <;> rfl

end Message

end ZMachine
