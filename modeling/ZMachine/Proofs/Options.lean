import ZMachine.Proofs.Conduct
import ZMachine.Settings.Options

/-! # Command line options

    The words of a command line are read as options, one after another, some of
    which take the next word as their value. Here an option with a value that
    it accepts is a `Choice`, and a list of words is read as choices and, if it
    is refused, a rest that starts with the option at fault.

    * `applyOptions_spelled`: words that spell choices have their effects, one
      after another; `applyOptions_of_offends`: what is refused has none;
      `exists_spelled`: any words are choices and perhaps a rest at fault;
    * `get_effects`: a field has the value of the last choice about it;
      `effects_comm`: choices about different things can change places;
    * `options_compose`: options as a whole. -/

namespace ZMachine

namespace Protocol

/-- The name of a protocol. -/
def name : Protocol → String
  | terminal => "terminal"
  | framed => "framed"

/-- Every protocol is found by its name. -/
theorem ofName?_name (p : Protocol) : ofName? p.name = some p := by
  cases p <;> rfl

end Protocol

namespace Settings

variable {α : Type} {s t : Settings} {rest : List String} {e : Fault}

/-! ## Choices -/

/-- An option with a value that it accepts, if it takes one. -/
inductive Choice where
  | listen (address : String)
  | protocol (protocol : Protocol)
  | seed (word : String) (number : UInt64) (h : seed? word = some number)
  | config (path : String)
  | legacyStack
  | trace

namespace Choice

/-- The word that an option starts with. -/
def name : Choice → String
  | listen _ => "--listen"
  | protocol _ => "--protocol"
  | seed .. => "--seed"
  | config _ => "--config"
  | legacyStack => "--legacy-stack"
  | trace => "--trace"

/-- The word after it. -/
def value? : Choice → Option String
  | listen address => some address
  | protocol p => some p.name
  | seed word .. => some word
  | config path => some path
  | legacyStack | trace => none

/-- The words of an option. -/
def words (c : Choice) : List String := c.name :: c.value?.toList

/-- What an option does to settings. -/
def effect : Choice → Settings → Settings
  | listen address, s => { s with listen := some address }
  | protocol p, s => { s with protocol := p }
  | seed _ number _, s => { s with rules := { s.rules with seed := some number } }
  | config _, s => s
  | legacyStack, s => { s with rules := { s.rules with stack := .legacy } }
  | trace, s => { s with trace := true }

/-- Only the option for a file has its name. -/
theorem exists_of_name {c : Choice} (h : c.name = "--config") : ∃ path, c = config path := by
  cases c with
  | config path => exact ⟨path, rfl⟩
  | _ => simp [name] at h

end Choice

/-- The words of choices. -/
def spelled (cs : List Choice) : List String := cs.flatMap Choice.words

/-- The settings after choices. -/
def effects (cs : List Choice) (s : Settings) : Settings := cs.foldl (fun s c => c.effect s) s

/-- Words that start with an option that is refused. -/
inductive Offends : List String → Fault → Prop
  | unknown {word : String} {rest : List String}
      (h : word ∉ ["--listen", "--protocol", "--seed", "--config", "--legacy-stack", "--trace"]) :
      Offends (word :: rest) (.settings (.unknownOption word))
  | noValue {word : String} (h : word ∈ ["--listen", "--protocol", "--seed", "--config"]) :
      Offends [word] (.settings (.missingValue word))
  | badProtocol {value : String} {rest : List String} (h : ∀ p : Protocol, value ≠ p.name) :
      Offends ("--protocol" :: value :: rest) (.settings (.unknownProtocol value))
  | badSeed {value : String} {rest : List String} (h : seed? value = none) :
      Offends ("--seed" :: value :: rest) (.settings (.badSeed value))

/-- An option with a value takes up two words. -/
theorem applyOptions_value {option value : String} (h : option ∈ valueOptions) :
    applyOptions (option :: value :: rest) =
      (applyValue option value >>= fun _ => applyOptions rest) := by
  rw [applyOptions, if_pos h]

/-- An option without a value takes up one word. -/
theorem applyOptions_flag {option : String} (h : option ∉ valueOptions) :
    applyOptions (option :: rest) = (applyFlag option >>= fun _ => applyOptions rest) :=
  (applyOptions.eq_def _).trans (if_neg h)

/-- The words of a choice have its effect. -/
theorem applyOptions_words (c : Choice) :
    applyOptions (c.words ++ rest) s = applyOptions rest (c.effect s) := by
  cases c with
  | listen address =>
      show applyOptions ("--listen" :: address :: rest) s = _
      rw [applyOptions_value (by decide)]
      rfl
  | protocol p =>
      show applyOptions ("--protocol" :: p.name :: rest) s = _
      rw [applyOptions_value (by decide), applyValue, p.ofName?_name]
      rfl
  | seed word number h =>
      show applyOptions ("--seed" :: word :: rest) s = _
      rw [applyOptions_value (by decide), applyValue, h]
      rfl
  | config path =>
      show applyOptions ("--config" :: path :: rest) s = _
      rw [applyOptions_value (by decide)]
      rfl
  | legacyStack =>
      show applyOptions ("--legacy-stack" :: rest) s = _
      rw [applyOptions_flag (by decide)]
      rfl
  | trace =>
      show applyOptions ("--trace" :: rest) s = _
      rw [applyOptions_flag (by decide)]
      rfl

/-- Choices have their effects, one after another. -/
theorem applyOptions_spelled (cs : List Choice) (rest : List String) (s : Settings) :
    applyOptions (spelled cs ++ rest) s = applyOptions rest (effects cs s) := by
  induction cs generalizing s with
  | nil => rfl
  | cons c cs ih =>
      rw [spelled, List.flatMap_cons, List.append_assoc, applyOptions_words]
      exact ih (c.effect s)

/-- The words of several choices have their effects, from left to right. -/
theorem applyOptions_eq_effects (cs : List Choice) (s : Settings) :
    applyOptions (spelled cs) s = (.ok (), effects cs s) := by
  have h := applyOptions_spelled cs [] s
  rw [List.append_nil] at h
  exact h

/-- What is refused has no effect. -/
theorem applyOptions_of_offends (h : Offends rest e) (s : Settings) :
    applyOptions rest s = (.error e, s) := by
  cases h with
  | @unknown word rest h =>
      simp only [List.mem_cons, not_or] at h
      obtain ⟨hlisten, hprotocol, hseed, hconfig, hstack, htrace, -⟩ := h
      -- None of the six names is one with a value, or one of the two flags.
      have hvalue : word ∉ valueOptions := by
        simp only [valueOptions, List.mem_cons, not_or]
        exact ⟨hlisten, hprotocol, hseed, hconfig, List.not_mem_nil⟩
      have hflag : applyFlag word = .fail (.settings (.unknownOption word)) := by
        rw [applyFlag]
        exact hstack
        exact htrace
      rw [applyOptions_flag hvalue, hflag]
      rfl
  | @noValue word h =>
      have hvalue : word ∈ valueOptions := h
      rw [applyOptions, if_pos hvalue]
      rfl
  | @badProtocol value rest h =>
      have hname : Protocol.ofName? value = none := by
        unfold Protocol.ofName?
        split
        · exact absurd rfl (h .terminal)
        · exact absurd rfl (h .framed)
        · rfl
      rw [applyOptions_value (by decide), applyValue, hname]
      rfl
  | badSeed h =>
      rw [applyOptions_value (by decide), applyValue, h]
      rfl

/-- An option and its value spell a choice, or offend. -/
theorem choice_or_offends_of_value {option : String} (h : option ∈ valueOptions) (value : String)
    (rest : List String) :
    (∃ c : Choice, c.words = [option, value]) ∨ ∃ e, Offends (option :: value :: rest) e := by
  simp only [valueOptions, List.mem_cons, List.not_mem_nil, or_false] at h
  rcases h with rfl | rfl | rfl | rfl
  · exact .inl ⟨.listen value, rfl⟩
  · by_cases hp : ∃ p : Protocol, value = p.name
    · obtain ⟨p, rfl⟩ := hp
      exact .inl ⟨.protocol p, rfl⟩
    · exact .inr ⟨_, .badProtocol fun p hname => hp ⟨p, hname⟩⟩
  · cases hseed : seed? value with
    | some number => exact .inl ⟨.seed value number hseed, rfl⟩
    | none => exact .inr ⟨_, .badSeed hseed⟩
  · exact .inl ⟨.config value, rfl⟩

/-- An option without a value spells a choice, or offends. -/
theorem choice_or_offends_of_flag {option : String} (h : option ∉ valueOptions)
    (rest : List String) :
    (∃ c : Choice, c.words = [option]) ∨ ∃ e, Offends (option :: rest) e := by
  by_cases hstack : option = "--legacy-stack"
  · exact .inl ⟨.legacyStack, by rw [hstack]; rfl⟩
  · by_cases htrace : option = "--trace"
    · exact .inl ⟨.trace, by rw [htrace]; rfl⟩
    · refine .inr ⟨_, .unknown ?_⟩
      simp only [valueOptions, List.mem_cons, List.not_mem_nil, or_false, not_or] at h ⊢
      exact ⟨h.1, h.2.1, h.2.2.1, h.2.2.2, hstack, htrace⟩

/-- Any words are choices and, unless they end there, a rest that is refused. -/
theorem exists_spelled (words : List String) :
    ∃ cs rest, words = spelled cs ++ rest ∧ (rest = [] ∨ ∃ e, Offends rest e) := by
  induction hn : words.length using Nat.strongRecOn generalizing words with
  | ind n ih =>
      cases words with
      | nil => exact ⟨[], [], rfl, .inl rfl⟩
      | cons option words =>
          -- after a choice, what follows is read in the same way
          have hgo (c : Choice) (tail : List String)
              (hwords : option :: words = c.words ++ tail) :
              ∃ cs rest, option :: words = spelled cs ++ rest ∧
                (rest = [] ∨ ∃ e, Offends rest e) := by
            have hlt : tail.length < n := by
              rw [← hn, hwords, List.length_append, Choice.words, List.length_cons]
              omega
            obtain ⟨cs, rest, rfl, hrest⟩ := ih tail.length hlt tail rfl
            refine ⟨c :: cs, rest, ?_, hrest⟩
            rw [hwords, spelled, spelled, List.flatMap_cons, List.append_assoc]
          by_cases hvalue : option ∈ valueOptions
          · cases words with
            | nil => exact ⟨[], [option], rfl, .inr ⟨_, .noValue hvalue⟩⟩
            | cons value words =>
                rcases choice_or_offends_of_value hvalue value words with ⟨c, hc⟩ | hoffends
                · exact hgo c words (by rw [hc]; rfl)
                · exact ⟨[], option :: value :: words, rfl, .inr hoffends⟩
          · rcases choice_or_offends_of_flag hvalue words with ⟨c, hc⟩ | hoffends
            · exact hgo c words (by rw [hc]; rfl)
            · exact ⟨[], option :: words, rfl, .inr hoffends⟩

/-- Words are accepted exactly if they spell choices. -/
theorem applyOptions_eq_ok_iff {words : List String} :
    applyOptions words s = (.ok (), t) ↔ ∃ cs, words = spelled cs ∧ t = effects cs s := by
  constructor
  · intro h
    obtain ⟨cs, rest, rfl, rfl | ⟨e, hrest⟩⟩ := exists_spelled words
    · rw [List.append_nil, applyOptions_eq_effects] at h
      cases h
      exact ⟨cs, List.append_nil _, rfl⟩
    · rw [applyOptions_spelled, applyOptions_of_offends hrest] at h
      cases h
  · rintro ⟨cs, rfl, rfl⟩
    exact applyOptions_eq_effects cs s

/-- They are refused exactly if they go on, after some choices, with an option at fault. -/
theorem applyOptions_eq_error_iff {words : List String} :
    applyOptions words s = (.error e, t) ↔
      ∃ cs rest, words = spelled cs ++ rest ∧ Offends rest e ∧ t = effects cs s := by
  constructor
  · intro h
    obtain ⟨cs, rest, rfl, rfl | ⟨e', hrest⟩⟩ := exists_spelled words
    · rw [List.append_nil, applyOptions_eq_effects] at h
      cases h
    · rw [applyOptions_spelled, applyOptions_of_offends hrest] at h
      cases h
      exact ⟨cs, rest, rfl, hrest, rfl⟩
  · rintro ⟨cs, rest, rfl, hrest, rfl⟩
    rw [applyOptions_spelled, applyOptions_of_offends hrest]

/-! ## Fields -/

/-- The value that the last of some choices gives to a field, or the old one. -/
def lastOr (value? : Choice → Option α) (cs : List Choice) (old : α) : α :=
  (cs.filterMap value?).getLast?.getD old

/-- The last value is that of the later choices, if they have one. -/
theorem lastOr_cons (value? : Choice → Option α) (c : Choice) (cs : List Choice) (old : α) :
    lastOr value? (c :: cs) old = lastOr value? cs ((value? c).getD old) := by
  cases h : value? c with
  | none => rw [lastOr, List.filterMap_cons_none h, Option.getD_none, lastOr]
  | some v =>
      rw [lastOr, List.filterMap_cons_some h, List.getLast?_cons, Option.getD_some,
        Option.getD_some, lastOr]

/-- If each choice gives a field a new value or leaves it, it ends at the last new value. -/
theorem get_effects (get : Settings → α) {value? : Choice → Option α}
    (h : ∀ c s, get (c.effect s) = (value? c).getD (get s)) (cs : List Choice) (s : Settings) :
    get (effects cs s) = lastOr value? cs (get s) := by
  induction cs generalizing s with
  | nil => rfl
  | cons c cs ih =>
      rw [lastOr_cons, ← h]
      exact ih (c.effect s)

namespace Choice

def listen? : Choice → Option (Option String)
  | listen address => some (some address)
  | _ => none

def protocol? : Choice → Option Protocol
  | protocol p => some p
  | _ => none

def seed? : Choice → Option (Option UInt64)
  | seed _ number _ => some (some number)
  | _ => none

def stack? : Choice → Option StackRule
  | legacyStack => some .legacy
  | _ => none

def trace? : Choice → Option Bool
  | trace => some true
  | _ => none

end Choice

/-- Each field has the value of the last choice about it, or its old value if there is none. -/
structure Chosen (s : Settings) (cs : List Choice) (t : Settings) : Prop where
  listen : t.listen = lastOr Choice.listen? cs s.listen
  protocol : t.protocol = lastOr Choice.protocol? cs s.protocol
  seed : t.rules.seed = lastOr Choice.seed? cs s.rules.seed
  stack : t.rules.stack = lastOr Choice.stack? cs s.rules.stack
  trace : t.trace = lastOr Choice.trace? cs s.trace
  limit : t.rules.limit = s.rules.limit

/-- The effects of choices are those of the last ones about each field. -/
theorem chosen_effects (cs : List Choice) (s : Settings) : Chosen s cs (effects cs s) where
  listen := get_effects Settings.listen (fun c _ => by cases c <;> rfl) cs s
  protocol := get_effects Settings.protocol (fun c _ => by cases c <;> rfl) cs s
  seed := get_effects (fun s => s.rules.seed) (fun c _ => by cases c <;> rfl) cs s
  stack := get_effects (fun s => s.rules.stack) (fun c _ => by cases c <;> rfl) cs s
  trace := get_effects Settings.trace (fun c _ => by cases c <;> rfl) cs s
  limit := by
    induction cs generalizing s with
    | nil => rfl
    | cons c cs ih =>
        refine (ih (c.effect s)).trans ?_
        cases c <;> rfl

/-! ## Order -/

variable {c d : Choice} {cs ds : List Choice}

/-- Choices of different kinds can change places. A file with settings has no effect here. -/
theorem effect_comm (h : c.name = d.name → c.name = "--config") (s : Settings) :
    d.effect (c.effect s) = c.effect (d.effect s) := by
  -- Two choices of the same field commute only if they choose a file, which has no effect.
  by_cases hname : c.name = d.name
  · obtain ⟨path, rfl⟩ := Choice.exists_of_name (h hname)
    rfl
  · cases c with
    | listen address =>
        cases d with
        | listen address' => exact absurd rfl hname
        | _ => rfl
    | protocol p =>
        cases d with
        | protocol p' => exact absurd rfl hname
        | _ => rfl
    | seed word number hseed =>
        cases d with
        | seed word' number' hseed' => exact absurd rfl hname
        | _ => rfl
    | config path => rfl
    | legacyStack => cases d <;> rfl
    | trace => cases d <;> rfl

/-- Choices about different fields can be made in any order. -/
theorem effects_effect_comm (h : ∀ d ∈ ds, c.name = d.name → c.name = "--config") (s : Settings) :
    effects ds (c.effect s) = c.effect (effects ds s) := by
  induction ds generalizing s with
  | nil => rfl
  | cons d ds ih =>
      show effects ds (d.effect (c.effect s)) = c.effect (effects ds (d.effect s))
      rw [effect_comm (h d List.mem_cons_self)]
      exact ih (fun d' hd' => h d' (List.mem_cons_of_mem d hd')) (d.effect s)

/-- Choices without a kind in common can change places with one another. -/
theorem effects_comm (h : ∀ c ∈ cs, ∀ d ∈ ds, c.name = d.name → c.name = "--config")
    (s : Settings) : effects ds (effects cs s) = effects cs (effects ds s) := by
  induction cs generalizing s with
  | nil => rfl
  | cons c cs ih =>
      show effects ds (effects cs (c.effect s)) = effects cs (c.effect (effects ds s))
      rw [ih (fun c' hc' => h c' (List.mem_cons_of_mem c hc')),
        effects_effect_comm (h c List.mem_cons_self)]

/-- Whether options are accepted does not depend on the settings. Options that are accepted have
    the same effect before others as on their own; each field ends at the value of the last option
    about it or stays; and those without a kind in common, apart from `--config`, can change
    places. Options that are refused leave the effect of those before the one at fault. -/
theorem options_compose (a b : List String) (s : Settings) :
    (∀ s', (applyOptions a s').1 = (applyOptions a s).1) ∧
    (∀ t, applyOptions a s = (.ok (), t) → applyOptions (a ++ b) s = applyOptions b t) ∧
    ((applyOptions a s).1 = .ok () ↔ ∃ cs, a = spelled cs) ∧
    (∀ cs, a = spelled cs → ∃ t, applyOptions a s = (.ok (), t) ∧ Chosen s cs t) ∧
    (∀ cs ds, a = spelled cs → b = spelled ds →
      (∀ c ∈ cs, ∀ d ∈ ds, c.name = d.name → c.name = "--config") →
      applyOptions (a ++ b) s = applyOptions (b ++ a) s) ∧
    ∀ e t, applyOptions a s = (.error e, t) ↔ ∃ cs rest, a = spelled cs ++ rest ∧
      Offends rest e ∧ applyOptions (spelled cs) s = (.ok (), t) := by
  -- Whether words can be applied does not depend on the settings that they are applied to.
  have hresult (s' : Settings) : (applyOptions a s').1 = (applyOptions a s).1 := by
    obtain ⟨cs, rest, rfl, rfl | ⟨e, hrest⟩⟩ := exists_spelled a
    · rw [List.append_nil, applyOptions_eq_effects, applyOptions_eq_effects]
    · rw [applyOptions_spelled, applyOptions_spelled, applyOptions_of_offends hrest,
        applyOptions_of_offends hrest]
  refine ⟨hresult, ?_, ?_, ?_, ?_, ?_⟩
  · intro t h
    obtain ⟨cs, rfl, rfl⟩ := applyOptions_eq_ok_iff.mp h
    exact applyOptions_spelled cs b s
  · constructor
    · intro h
      obtain ⟨cs, hcs, -⟩ := applyOptions_eq_ok_iff.mp (Prod.ext h rfl)
      exact ⟨cs, hcs⟩
    · rintro ⟨cs, rfl⟩
      rw [applyOptions_eq_effects]
  · rintro cs rfl
    exact ⟨effects cs s, applyOptions_eq_effects cs s, chosen_effects cs s⟩
  · rintro cs ds rfl rfl hkinds
    rw [applyOptions_spelled, applyOptions_spelled, applyOptions_eq_effects,
      applyOptions_eq_effects, effects_comm hkinds]
  · intro e t
    rw [applyOptions_eq_error_iff]
    constructor
    · rintro ⟨cs, rest, ha, hrest, rfl⟩
      exact ⟨cs, rest, ha, hrest, applyOptions_eq_effects cs s⟩
    · rintro ⟨cs, rest, ha, hrest, h⟩
      rw [applyOptions_eq_effects] at h
      exact ⟨cs, rest, ha, hrest, (Prod.mk.inj h).2.symm⟩

/-- A seed and a file change places with an address and another file. When a second seed is
    missing, the first one has taken effect. -/
theorem seed_and_address_compose :
    applyOptions ["--seed", "+7", "--config", "a", "--listen", "host", "--config", "b"] {} =
      applyOptions ["--listen", "host", "--config", "b", "--seed", "+7", "--config", "a"] {} ∧
    (∃ t, applyOptions ["--seed", "+7", "--config", "a"] {} = (.ok (), t) ∧
      t.rules.seed = some 7) ∧
    applyOptions ["--seed", "+7", "--seed"] {} =
      (.error (.settings (.missingValue "--seed")), { rules := { seed := some 7 } }) := by
  have hseed : seed? "+7" = some 7 := by decide
  obtain ⟨-, -, -, hfields, hcomm, -⟩ := options_compose ["--seed", "+7", "--config", "a"]
    ["--listen", "host", "--config", "b"] {}
  obtain ⟨-, -, -, -, -, hfails⟩ := options_compose ["--seed", "+7", "--seed"] [] {}
  refine ⟨?_, ?_, ?_⟩
  · refine hcomm [.seed "+7" 7 hseed, .config "a"] [.listen "host", .config "b"] rfl rfl ?_
    -- The only name on both sides is that of the file.
    intro c hc d hd hname
    simp only [List.mem_cons, List.not_mem_nil, or_false] at hc hd
    rcases hc with rfl | rfl
    · rcases hd with rfl | rfl
      · exact absurd hname (by simp [Choice.name])
      · exact hname
    · rfl
  · obtain ⟨t, ht, hchosen⟩ := hfields [.seed "+7" 7 hseed, .config "a"] rfl
    exact ⟨t, ht, hchosen.seed⟩
  · exact (hfails _ _).mpr ⟨[.seed "+7" 7 hseed], ["--seed"], rfl, .noValue (by decide),
      applyOptions_eq_effects _ _⟩

end Settings

end ZMachine
