import ZMachine.Proofs.Devices
import ZMachine.Proofs.Restart
import ZMachine.Proofs.Shifts

/-! # Only plain text leaves the machine

    What a story prints may come from anywhere in memory, from operands, or from
    the names that were read when it was loaded. All of it goes through the
    alphabets, the character set or a numeral, and so a device is handed nothing
    but line feeds and the characters from the space to the tilde.

    * `Text.Plain`: the texts that are meant. Strings (`plain_decode`), numerals,
      the status line (`plain_statusText`) and the names of a loaded story
      (`Story.plain_names`) are plain;
    * `Monitored`: a device with a record of what it is handed. A session does not
      notice the record (`Session.unmonitored_after`);
    * `Session.HandsOver`: what an action adds to the record. One step adds plain
      texts (`handsOver_step`), and so does a run. -/

namespace ZMachine

/-! ## Plain texts -/

namespace Text

/-- A line feed or a character from the space to the tilde. -/
def IsPlain (c : Char) : Prop := c = '\n' ∨ (' ' ≤ c ∧ c ≤ '~')

instance (c : Char) : Decidable (IsPlain c) := inferInstanceAs (Decidable (_ ∨ _))

/-- A text of such characters. -/
def Plain (text : String) : Prop := ∀ c ∈ text.toList, IsPlain c

instance (text : String) : Decidable (Plain text) := List.decidableBAll IsPlain text.toList

theorem plain_ofList {cs : List Char} : Plain (String.ofList cs) ↔ ∀ c ∈ cs, IsPlain c := by
  rw [Plain, String.toList_ofList]

theorem Plain.append {a b : String} (ha : Plain a) (hb : Plain b) : Plain (a ++ b) := by
  intro c hc
  rw [String.toList_append, List.mem_append] at hc
  exact hc.elim (ha c) (hb c)

/-- Character codes that are not plain are replaced. -/
theorem isPlain_zscii (value : Nat) : IsPlain (zscii value) := by
  unfold zscii
  split
  · exact .inl rfl
  · split
    · next h =>
        have hvalid : value.isValidChar := .inl (by omega)
        have hnat : (Char.ofNat value).toNat = value := by
          rw [Char.ofNat, dif_pos hvalid]
          exact UInt32.toNat_ofNatLT
        refine .inr ⟨?_, ?_⟩
        · show 32 ≤ (Char.ofNat value).toNat
          omega
        · show (Char.ofNat value).toNat ≤ 126
          omega
    · exact .inr (by decide)

/-- The alphabets have plain characters only. -/
theorem Alphabet.isPlain_of_mem {a : Alphabet} {c : Char} (h : c ∈ a.characters) : IsPlain c := by
  have hall : a.characters.all (fun c => decide (IsPlain c)) = true := by cases a <;> decide
  exact of_decide_eq_true (List.all_eq_true.mp hall c h)

namespace Symbol

/-- Whatever is pending, a character that a code completes is plain. -/
theorem isPlain_of_next {p : Pending} {code : Code} {c : Char}
    (h : (next p code).1 = some (char c)) : IsPlain c := by
  have hreads := reads_next p code
  rw [h] at hreads
  generalize (next p code).2 = q at hreads
  cases hreads with
  | escaped high => exact isPlain_zscii _
  | letter row => exact Alphabet.isPlain_of_mem (List.get_mem ..)
  | space => exact .inr (by decide)

theorem isPlain_of_mem_spellFrom {p : Pending} {cs : List Code} {c : Char}
    (h : char c ∈ spellFrom p cs) : IsPlain c := by
  induction cs generalizing p with
  | nil => cases h
  | cons code cs ih =>
      rw [spellFrom_cons, List.mem_append, Option.mem_toList] at h
      exact h.elim isPlain_of_next ih

end Symbol

variable {m : Memory} {table a stop : Nat}

/-- Strings are plain, with all that they refer to. -/
theorem isPlain_of_decodeNested {n : Nat} {text : List Char}
    (h : decodeNested m table n a = .ok (text, stop)) : ∀ c ∈ text, IsPlain c := by
  induction n generalizing a text stop with
  | zero => cases h
  | succ n ih =>
      obtain ⟨words, parts, -, hparts, rfl⟩ := decodeNested_eq_ok.mp h
      intro c hc
      -- A character of the text belongs to the part of one symbol.
      obtain ⟨part, hpart, hc⟩ := List.mem_flatten.mp hc
      obtain ⟨s, hs, hexpand⟩ := FailsOnly.exists_of_mem_mapM hparts hpart
      cases s with
      | char d =>
          cases hexpand
          rw [List.mem_singleton.mp hc]
          exact Symbol.isPlain_of_mem_spellFrom hs
      | abbreviation entry =>
          obtain ⟨packed, stop', -, hdecode⟩ := expand_abbreviation_eq_ok.mp hexpand
          exact ih hdecode c hc
      | fault e => cases hexpand

/-- And so is a decoded string. -/
theorem plain_decode {text : String} (h : decode m table a = .ok (text, stop)) : Plain text :=
  isPlain_of_decodeNested (decode_eq_ok.mp h)

end Text

open ZMachine.Text

namespace Numeral

theorem plain_decimal (width n : Nat) : Plain (decimal '0' width n) := by
  refine plain_ofList.mpr ?_
  intro c hc
  rcases List.mem_append.mp hc with hc | hc
  · rw [(List.mem_replicate.mp hc).2]
    exact .inr (by decide)
  · have hdigit := Nat.isDigit_of_mem_toDigits (by decide) (by decide) hc
    obtain ⟨hlow, hhigh⟩ := (Bool.and_eq_true _ _).mp hdigit
    have hlow : 48 ≤ c.toNat := of_decide_eq_true hlow
    have hhigh : c.toNat ≤ 57 := of_decide_eq_true hhigh
    refine .inr ⟨?_, ?_⟩
    · show 32 ≤ c.toNat
      omega
    · show c.toNat ≤ 126
      omega

theorem plain_integer (i : Int) : Plain (integer i) := by
  unfold integer
  split
  · exact .append (by decide) (plain_decimal 1 _)
  · exact plain_decimal 1 _

end Numeral

/-- Scores and times are plain. -/
theorem Machine.plain_statusText (isTime : Bool) (first second : UInt16) :
    Plain (statusText isTime first second) := by
  unfold statusText
  split
  · exact .append (.append (Numeral.plain_decimal 1 _) (by decide)) (Numeral.plain_decimal 2 _)
  · exact .append (.append (.append (by decide) (Numeral.plain_integer _)) (by decide))
      (Numeral.plain_decimal 1 _)

/-- Names of objects are plain. -/
theorem ObjectTable.plain_shortName {t : ObjectTable} {m : Memory} {abbreviations : Nat}
    {o : UInt16} {name : String} (h : t.shortName m abbreviations o = .ok name) : Plain name := by
  obtain ⟨a, -, h⟩ := FailsOnly.bind_eq_ok.mp h
  obtain ⟨length, -, h⟩ := FailsOnly.bind_eq_ok.mp h
  split at h
  · cases h
    decide
  · obtain ⟨⟨text, stop⟩, hdecode, h⟩ := FailsOnly.bind_eq_ok.mp h
    cases h
    exact plain_decode hdecode

/-- The names of a loaded story are plain, whatever is written to its memory later. -/
theorem Story.plain_names {image : Memory} {story : Story} (h : load image = .ok story) :
    ∀ name ∈ story.names, Plain name := by
  obtain ⟨header, -, h⟩ := FailsOnly.bind_eq_ok.mp h
  obtain ⟨objects, -, h⟩ := FailsOnly.bind_eq_ok.mp h
  obtain ⟨names, hnames, h⟩ := FailsOnly.bind_eq_ok.mp h
  obtain ⟨dictionary, -, h⟩ := FailsOnly.bind_eq_ok.mp h
  cases h
  intro name hname
  obtain ⟨i, -, hi⟩ := FailsOnly.exists_of_mem_mapM hnames hname
  exact ObjectTable.plain_shortName hi

/-! ## A device with a record -/

/-- A device and the texts that it has been handed so far. -/
structure Monitored (δ : Type) where
  device : δ
  handed : List String := []

namespace Monitored

variable {δ α : Type}

/-- Uses the device, and notes texts whether it fails or not. -/
def noting (texts : List String) (x : Action δ α) : Action (Monitored δ) α := fun d =>
  ((x d.device).1, ⟨(x d.device).2, d.handed ++ texts⟩)

instance [Device δ] : Device (Monitored δ) where
  print text := noting [text] (Device.print text)
  readLine := noting [] Device.readLine
  showStatus location right := noting [location, right] (Device.showStatus location right)

/-- A device and the same device with a record. -/
def Records (d : δ) (t : Monitored δ) : Prop := t.device = d

/-- Noting what is handed over does not change what is done. -/
theorem agree_noting (texts : List String) (x : Action δ α) :
    Action.Agree Records x (noting texts x) := by
  rintro d t rfl
  exact ⟨rfl, rfl⟩

/-- The record makes no difference to the device. -/
theorem agree_records [Device δ] : Device.Agree (Records : δ → Monitored δ → Prop) where
  print text := agree_noting [text] _
  readLine := agree_noting [] _
  showStatus location right := agree_noting [location, right] _

end Monitored

namespace Session

open Machine

variable {δ α β : Type}

/-- A session without the record. -/
def unmonitored (s : Session (Monitored δ)) : Session δ := ⟨s.machine, s.device.device⟩

/-- No step tells apart what is equal. -/
theorem steady_eq (m : Machine) : m.Steady Eq := by
  refine steady_of_same ?_ ⟨?_, ?_⟩ ?_ m
  · rintro a _ rfl
    rfl
  · rintro a _ rfl
    rfl
  · rintro a _ e rfl
    rfl
  · rintro a _ rfl
    rfl

/-- A session runs with a record as it runs without. -/
theorem unmonitored_after [Device δ] (s : Session (Monitored δ)) (n : Nat) :
    (after n s).unmonitored = after n s.unmonitored := by
  have hstart : Alike Eq Monitored.Records s.unmonitored s := ⟨⟨s.machine.aside, rfl, rfl⟩, rfl⟩
  have hcount (a b : Aside) (h : a = b) :
      { a with count := a.count + 1 } = { b with count := b.count + 1 } := by rw [h]
  obtain ⟨⟨a, rfl, hmachine⟩, hdevice⟩ :=
    alike_after Monitored.agree_records hcount hstart fun k _ => steady_eq _
  show (⟨(after n s).machine, (after n s).device.device⟩ : Session δ) = _
  rw [hmachine, hdevice]
  rfl

/-! ## What actions hand over -/

/-- Where the action stops, the record has grown by texts of a kind. -/
def HandsOver (P : String → Prop) (x : Action (Session (Monitored δ)) α)
    (s : Session (Monitored δ)) : Prop :=
  ∃ texts, (x s).2.device.handed = s.device.handed ++ texts ∧ ∀ text ∈ texts, P text

namespace HandsOver

variable {P : String → Prop} {s : Session (Monitored δ)}

theorem nothing {x : Action (Session (Monitored δ)) α}
    (h : (x s).2.device.handed = s.device.handed) : HandsOver P x s :=
  ⟨[], h.trans (List.append_nil _).symm, fun _ ht => absurd ht List.not_mem_nil⟩

theorem pure (a : α) : HandsOver P (pure a) s := nothing rfl

theorem fail (e : Fault) : HandsOver P (.fail e : Action (Session (Monitored δ)) α) s :=
  nothing rfl

theorem onMachine (x : Action Machine α) : HandsOver P (onMachine x) s := nothing rfl

/-- What is noted is handed over. -/
theorem noting {texts : List String} (h : ∀ text ∈ texts, P text) (x : Action δ α) :
    HandsOver P (onDevice (Monitored.noting texts x)) s := ⟨texts, rfl, h⟩

/-- Two actions hand over what each of them does. -/
theorem bind {x : Action (Session (Monitored δ)) α} {f : α → Action (Session (Monitored δ)) β}
    (hx : HandsOver P x s) (hf : ∀ a t, x s = (.ok a, t) → HandsOver P (f a) t) :
    HandsOver P (x >>= f) s := by
  obtain ⟨texts, hhanded, htexts⟩ := hx
  unfold HandsOver
  rw [Action.bind_apply]
  cases hxs : x s with
  | mk r t =>
      rw [hxs] at hhanded
      cases r with
      | error e => exact ⟨texts, hhanded, htexts⟩
      | ok a =>
          obtain ⟨texts', hhanded', htexts'⟩ := hf a t hxs
          refine ⟨texts ++ texts', ?_, ?_⟩
          · rw [hhanded', hhanded, List.append_assoc]
          · intro text ht
            exact (List.mem_append.mp ht).elim (htexts text) (htexts' text)

end HandsOver

variable [Device δ] {s : Session (Monitored δ)}

/-- Printing hands over the text, or nothing if it goes to a table. -/
theorem handsOver_output {text : String} (h : Plain text) : HandsOver Plain (output text) s := by
  refine .bind (.onMachine _) ?_
  rintro ⟨screen, tables⟩ t -
  cases tables with
  | cons table tables => exact .onMachine _
  | nil =>
      cases screen with
      | true =>
          refine .noting ?_ _
          intro text' htext'
          rw [List.mem_singleton.mp htext']
          exact h
      | false => exact .pure ()

/-- The text at an address is plain. -/
theorem handsOver_outputAt (a : Nat) : HandsOver Plain (outputAt a) s := by
  refine .bind (.onMachine _) ?_
  rintro ⟨text, stop⟩ t ht
  obtain ⟨hask, -⟩ := onMachine_eq_iff.mp ht
  exact handsOver_output (plain_decode (congrArg Prod.fst hask))

/-- The text behind an instruction is plain. -/
theorem handsOver_outputInline : HandsOver Plain outputInline s := by
  refine .bind (.onMachine _) ?_
  intro text t ht
  obtain ⟨hinline, -⟩ := onMachine_eq_iff.mp ht
  refine handsOver_output ?_
  unfold inlineText at hinline
  split at hinline
  · next hdecode =>
      cases (Prod.mk.inj hinline).1
      exact plain_decode hdecode
  · cases (Prod.mk.inj hinline).1

/-- The names that a story was loaded with are plain. -/
theorem plain_of_name? {story : Story} (h : ∀ name ∈ story.names, Plain name) {o : UInt16}
    {name : String} (hname : story.name? o = some name) : Plain name := by
  unfold Story.name? at hname
  split at hname
  · cases hname
  · exact h name (List.mem_of_getElem? hname)

/-- Both sides of the status line are plain. -/
theorem plain_status {m m' : Machine} {location right : String}
    (h : ∀ name ∈ m.story.names, Plain name) (hstatus : status m = (.ok (location, right), m')) :
    Plain location ∧ Plain right := by
  obtain ⟨o, m₁, hm₁, hstatus⟩ := Action.bind_eq_ok.mp hstatus
  obtain ⟨story, m₂, hm₂, hstatus⟩ := Action.bind_eq_ok.mp hstatus
  obtain ⟨first, m₃, hm₃, hstatus⟩ := Action.bind_eq_ok.mp hstatus
  obtain ⟨second, m₄, hm₄, hstatus⟩ := Action.bind_eq_ok.mp hstatus
  cases hstatus
  rw [readVariable_global (by decide)] at hm₁
  cases (Prod.mk.inj hm₁).2
  cases hm₂
  refine ⟨?_, plain_statusText _ _ _⟩
  cases hname : m.story.name? o with
  | none => decide
  | some name => exact plain_of_name? h hname

/-- The names of the story are plain. -/
def HasPlainNames (s : Session (Monitored δ)) : Prop :=
  ∀ name ∈ s.machine.story.names, Plain name

variable (hs : s.HasPlainNames)

include hs

theorem handsOver_outputName (o : UInt16) : HandsOver Plain (outputName o) s := by
  refine .bind (.onMachine _) ?_
  intro name t ht
  obtain ⟨hview, -⟩ := onMachine_eq_iff.mp ht
  have hname : s.machine.story.name? o = name := Except.ok.inj (congrArg Prod.fst hview)
  cases name with
  | some name => exact handsOver_output (plain_of_name? hs hname)
  | none => exact .fail _

/-- The status line is a name and two numbers. -/
theorem handsOver_showStatus : HandsOver Plain showStatus s := by
  refine .bind (.onMachine _) ?_
  rintro ⟨location, right⟩ t ht
  obtain ⟨hstatus, -⟩ := onMachine_eq_iff.mp ht
  obtain ⟨hlocation, hright⟩ := plain_status hs hstatus
  refine .noting ?_ _
  intro text htext
  rcases List.mem_cons.mp htext with rfl | htext
  · exact hlocation
  · rw [List.mem_singleton.mp htext]
    exact hright

/-- Reading a line shows the status line at most. -/
theorem handsOver_readLine (text parse : UInt16) : HandsOver Plain (readLine text parse) s := by
  refine .bind (handsOver_showStatus hs) fun _ t _ => .bind (.noting ?_ _) fun _ u _ => .onMachine _
  intro _ h
  exact absurd h List.not_mem_nil

/-- Instructions without operands hand over plain text. -/
theorem handsOver_executeZero (op : ZeroOp) : HandsOver Plain (executeZero op) s := by
  cases op
  case print => exact handsOver_outputInline
  case printRet =>
      exact .bind handsOver_outputInline fun _ t _ =>
        .bind (handsOver_output (by decide)) fun _ u _ => .onMachine _
  case newLine => exact handsOver_output (by decide)
  case showStatus => exact handsOver_showStatus hs
  case nop => exact .pure ()
  all_goals exact .onMachine _

theorem handsOver_executeOne (op : OneOp) (x : UInt16) :
    HandsOver Plain (executeOne op x) s := by
  cases op
  case printAddr | printPaddr => exact handsOver_outputAt _
  case printObj => exact handsOver_outputName hs x
  all_goals exact .onMachine _

theorem handsOver_executeMany (op : VarOp) (operands : List UInt16) :
    HandsOver Plain (executeMany op operands) s := by
  unfold executeMany
  split
  -- The cases are numbered in the order of the definition.
  case h_9 => exact handsOver_readLine hs _ _
  case h_11 x _ =>
      refine handsOver_output ?_
      intro c hc
      rw [String.toList_singleton, List.mem_singleton] at hc
      rw [hc]
      exact isPlain_zscii x.toNat
  case h_13 => exact handsOver_output (Numeral.plain_integer _)
  case h_1 | h_3 | h_5 | h_7 | h_15 | h_17 | h_19 | h_23 => exact .onMachine _
  case h_21 | h_22 | h_24 | h_25 => exact .pure ()
  all_goals exact .fail _

theorem handsOver_execute (i : Instruction) (operands : List UInt16) :
    HandsOver Plain (execute i operands) s := by
  unfold execute
  split
  · exact .fail _
  · exact handsOver_executeZero hs _
  · split
    · exact handsOver_executeOne hs _ _
    · exact .fail _
  · exact .onMachine _
  · exact handsOver_executeMany hs _ _

/-- One step hands over plain texts only. -/
theorem handsOver_step : HandsOver Plain step s := by
  rcases step_cases s with ⟨e, -, h⟩ | ⟨i, m, e, f, -, -, h⟩ | ⟨i, m, operands, f, -, -, -, h⟩ |
    ⟨op, operands, hnext⟩
  · exact .nothing (by rw [h])
  · exact .nothing (by rw [h])
  · exact .nothing (by rw [h])
  · obtain ⟨i, f, -, -, hstep⟩ := step_eq_execute hnext
    -- The story is still the same after the operands have been read.
    have hread : HasPlainNames (⟨{ s.machine with
        pc := s.machine.pc + i.size
        calls := s.machine.calls.withTop f }, s.device⟩ : Session (Monitored δ)) := hs
    unfold HandsOver
    rw [hstep]
    exact HandsOver.bind (handsOver_execute hread i operands) fun _ t _ => .onMachine _

omit hs in
/-- A run from a loaded machine hands over plain texts only. -/
theorem handed_after {image : Memory} {rules : Rules} {entropy : UInt64}
    (hload : load image rules entropy = .ok s.machine) (n : Nat) :
    ∃ texts, (after n s).device.handed = s.device.handed ++ texts ∧
      ∀ text ∈ texts, Plain text := by
  induction n with
  | zero => exact ⟨[], (List.append_nil _).symm, fun _ h => absurd h List.not_mem_nil⟩
  | succ n ih =>
      obtain ⟨texts, hhanded, htexts⟩ := ih
      have hnames : (after n s).HasPlainNames := by
        obtain ⟨story, hstory, hstart⟩ := exists_story_of_load hload
        unfold HasPlainNames
        rw [(loaded_of_after hload n).1, hstart]
        exact Story.plain_names hstory
      obtain ⟨texts', hhanded', htexts'⟩ := handsOver_step hnames
      refine ⟨texts ++ texts', ?_, ?_⟩
      · rw [after_succ, hhanded', hhanded, List.append_assoc]
      · intro text htext
        exact (List.mem_append.mp htext).elim (htexts text) (htexts' text)

end Session

namespace Session

/-- Whatever an image holds, however long it runs and whatever the device does, the texts that the
    device is handed are plain. They are recorded along a run that is the same as without. -/
theorem only_plain_text_leaves {δ : Type} [Device δ] {image : Memory} {rules : Rules}
    {entropy : UInt64} {m : Machine} (hload : Machine.load image rules entropy = .ok m)
    (device : δ) (n : Nat) :
    (after n (⟨m, { device }⟩ : Session (Monitored δ))).unmonitored = after n ⟨m, device⟩ ∧
      ∀ text ∈ (after n (⟨m, { device }⟩ : Session (Monitored δ))).device.handed, Plain text := by
  refine ⟨unmonitored_after _ n, ?_⟩
  obtain ⟨texts, hhanded, htexts⟩ := handed_after (s := ⟨m, { device }⟩) hload n
  rw [hhanded]
  exact htexts

/-- A story that prints a string with the character of number 200, prints the character of
    number 7, shows the status line and quits. It is laid out as `echo` is. -/
def unprintable : Memory :=
  ⟨#[3, 0, 0, 0, 0, 0, 0, 64, 0, 79, 16, 0, 0, 83, 0, 64, 0, 0, 56, 55, 48, 49, 48, 49,
     0, 0, 0, 0, 0, 0, 0, 0, 0, 0, 0, 0, 0, 0, 0, 0, 0, 0, 0, 0, 0, 0, 0, 0, 0, 0, 0, 0, 0, 0, 0, 0,
     0, 0, 0, 0, 0, 0, 0, 0,
     0xB2, 0x14, 0xC6, 0xA0, 0xA5, 0xE5, 0x7F, 7, 0xBC, 0xBA, 0, 0, 0, 0, 0,
     0, 0, 0, 0,
     0, 0, 0xFF, 0xFB, 0, 12]⟩

/-- What is read from the story when it is loaded. -/
def unprintableStory : Story := { echoStory with image := unprintable }

/-- The sample story loads. -/
theorem load_unprintable (rules : Rules) (e : UInt64) :
    Machine.load unprintable rules e = .ok (Machine.start unprintableStory rules e) :=
  Machine.load_of_story (Story.load_of_parts (s := unprintableStory) rfl rfl rfl rfl) rules e

/-- A session of the story on a scripted device with a record. -/
def unprintableSession : Session (Monitored Scripted) :=
  ⟨Machine.start unprintableStory {} 1, { device := {} }⟩

/-- What the sample story prints that is not plain is replaced. -/
theorem unprintable_is_replaced :
    (after 4 unprintableSession).device.handed = ["?", "?", "", "Score: -5  Moves: 12"] ∧
      (after 4 unprintableSession).unmonitored = after 4 unprintableSession.unmonitored ∧
      ∀ text ∈ (after 4 unprintableSession).device.handed, Plain text := by
  refine ⟨by decide +kernel, ?_⟩
  exact only_plain_text_leaves (load_unprintable {} 1) ({} : Scripted) 4

end Session

end ZMachine
