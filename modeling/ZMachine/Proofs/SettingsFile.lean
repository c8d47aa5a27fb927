import ZMachine.Proofs.Options

/-! # The file with further settings

    The options may name a file with further settings. It has to be known before
    the options are applied, so `configPath` looks for it on its own: it takes
    the word after the first `--config` among all words. That is the value of
    the first `--config` option unless an earlier option has the word as its
    value, and of all values only an address can be this word.

    * `mem_words_iff`: the two places where `--config` can stand;
    * `configPath_of_config`, `configPath_of_listen`, `configPath_of_none`: what
      is found;
    * `configPath_eq_iff`: when this is the value of the first option;
    * `address_taken_for_option`: it may be another word. -/

namespace ZMachine.Settings

variable {word : String} {rest : List String} {c : Choice} {before after : List Choice}

/-- The file that an option names. -/
def Choice.path? : Choice → Option String
  | config path => some path
  | _ => none

/-- The value of the first `--config` option. -/
def firstPath (cs : List Choice) : Option String := cs.findSome? Choice.path?

/-- A word other than the option is passed over. -/
theorem configPath_cons_of_ne (h : word ≠ "--config") :
    configPath (word :: rest) = configPath rest := by
  rw [configPath]
  intro path tail hword _
  exact h hword

theorem configPath_append_of_not_mem {words : List String} (h : "--config" ∉ words) :
    configPath (words ++ rest) = configPath rest := by
  induction words with
  | nil => rfl
  | cons word words ih =>
      rw [List.cons_append, configPath_cons_of_ne, ih]
      · exact fun hmem => h (List.mem_cons_of_mem word hmem)
      · rintro rfl
        exact h List.mem_cons_self

/-- The word after the first `--config` is found, if there is one. -/
theorem configPath_cons_self : configPath ("--config" :: rest) = rest.head? := by
  cases rest with
  | nil => rfl
  | cons path rest => rfl

/-- The word `--config` is the name of an option or an address. -/
theorem mem_words_iff :
    "--config" ∈ c.words ↔ (∃ path, c = .config path) ∨ c = .listen "--config" := by
  cases c with
  | listen address =>
      simp [Choice.words, Choice.name, Choice.value?, eq_comm]
  | protocol p => cases p <;> simp [Choice.words, Choice.name, Choice.value?, Protocol.name]
  | seed word number h =>
      have hword : word ≠ "--config" := by
        rintro rfl
        rw [show seed? "--config" = none by decide] at h
        cases h
      simp [Choice.words, Choice.name, Choice.value?, hword.symm]
  | config path => simp [Choice.words, Choice.name]
  | legacyStack => simp [Choice.words, Choice.name, Choice.value?]
  | trace => simp [Choice.words, Choice.name, Choice.value?]

/-- Options without the word are passed over. -/
theorem configPath_of_none (h : ∀ c ∈ before, "--config" ∉ c.words) (cs : List Choice) :
    configPath (spelled (before ++ cs)) = configPath (spelled cs) := by
  rw [spelled, List.flatMap_append]
  refine configPath_append_of_not_mem fun hmem => ?_
  obtain ⟨c, hc, hword⟩ := List.mem_flatMap.mp hmem
  exact h c hc hword

/-- Choices without the option among their words choose no file. -/
theorem firstPath_of_none (h : ∀ c ∈ before, "--config" ∉ c.words) (cs : List Choice) :
    firstPath (before ++ cs) = firstPath cs := by
  have hnone : before.findSome? Choice.path? = none := by
    refine List.findSome?_eq_none_iff.mpr fun c hc => ?_
    cases c with
    | config path => exact absurd List.mem_cons_self (h _ hc)
    | _ => rfl
  rw [firstPath, List.findSome?_append, hnone]
  rfl

/-- The first choice of a file is found if no word before it looks like the option. -/
theorem configPath_of_config (h : ∀ c ∈ before, "--config" ∉ c.words) (path : String) :
    configPath (spelled (before ++ .config path :: after)) = some path :=
  (configPath_of_none h _).trans configPath_cons_self

/-- An address that is the word is taken for an option. -/
theorem configPath_of_listen (h : ∀ c ∈ before, "--config" ∉ c.words) :
    configPath (spelled (before ++ .listen "--config" :: after)) = (spelled after).head? := by
  rw [configPath_of_none h]
  exact (configPath_cons_of_ne (by decide)).trans configPath_cons_self

/-- The first option with the word in it, if there is one. -/
theorem exists_first (cs : List Choice) : (∀ c ∈ cs, "--config" ∉ c.words) ∨
    ∃ before c after, cs = before ++ c :: after ∧ "--config" ∈ c.words ∧
      ∀ d ∈ before, "--config" ∉ d.words := by
  cases h : cs.find? fun c => decide ("--config" ∈ c.words) with
  | none =>
      refine .inl fun c hc hword => ?_
      exact List.find?_eq_none.mp h c hc (decide_eq_true hword)
  | some c =>
      obtain ⟨hc, before, after, rfl, hbefore⟩ := List.find?_eq_some_iff_append.mp h
      refine .inr ⟨before, c, after, rfl, of_decide_eq_true hc, fun d hd hword => ?_⟩
      have hd := hbefore d hd
      rw [decide_eq_true hword] at hd
      cases hd

/-- The word `--config` stands first as an address, and the word after that is not by chance the
    value of the first `--config` option. -/
def Misleads (cs : List Choice) : Prop :=
  ∃ before after, cs = before ++ .listen "--config" :: after ∧
    (∀ c ∈ before, "--config" ∉ c.words) ∧ (spelled after).head? ≠ firstPath after

/-- The file that is found is the one that was chosen first, unless a value misleads. -/
theorem configPath_eq_iff (cs : List Choice) :
    configPath (spelled cs) = firstPath cs ↔ ¬ Misleads cs := by
  constructor
  · rintro h ⟨before, after, rfl, hbefore, hne⟩
    rw [configPath_of_listen hbefore, firstPath_of_none hbefore] at h
    exact hne h
  · intro h
    rcases exists_first cs with hnone | ⟨before, c, after, rfl, hc, hbefore⟩
    · have hpath := configPath_of_none hnone []
      have hfirst := firstPath_of_none hnone []
      rw [List.append_nil] at hpath hfirst
      rw [hpath, hfirst]
      rfl
    · rw [firstPath_of_none hbefore]
      -- The first word that is `--config` is the option itself, or an address to listen at.
      rcases mem_words_iff.mp hc with ⟨path, rfl⟩ | rfl
      · exact configPath_of_config hbefore path
      · rw [configPath_of_listen hbefore]
        exact Decidable.byContradiction fun hne => h ⟨before, after, rfl, hbefore, hne⟩

/-- Of options that are accepted, the file is the value of the first `--config` option, or none if
    there is no such option, exactly if the word does not stand first as an address and mislead.
    If it stands there, the next word is taken for the file, whatever it is. -/
theorem configPath_agrees_iff (words : List String) (s : Settings)
    (h : (applyOptions words s).1 = .ok ()) :
    (∃ cs, words = spelled cs) ∧
    ∀ cs, words = spelled cs →
      (configPath words = firstPath cs ↔ ¬ Misleads cs) ∧
      ∀ before after, cs = before ++ .listen "--config" :: after →
        (∀ c ∈ before, "--config" ∉ c.words) → configPath words = (spelled after).head? := by
  obtain ⟨cs, hcs, -⟩ := applyOptions_eq_ok_iff.mp (Prod.ext h rfl)
  refine ⟨⟨cs, hcs⟩, ?_⟩
  rintro cs rfl
  refine ⟨configPath_eq_iff cs, ?_⟩
  rintro before after rfl hbefore
  exact configPath_of_listen hbefore

/-- A file is found behind an address and a seed. -/
theorem file_found_behind_address :
    (applyOptions ["--listen", "host", "--seed", "7", "--config", "a"] {}).1 = .ok () ∧
    configPath ["--listen", "host", "--seed", "7", "--config", "a"] = some "a" := by
  have hseed : seed? "7" = some 7 := by decide
  have hwords : ["--listen", "host", "--seed", "7", "--config", "a"] =
      spelled [.listen "host", .seed "7" 7 hseed, .config "a"] := rfl
  have hok : (applyOptions ["--listen", "host", "--seed", "7", "--config", "a"] {}).1 = .ok () := by
    rw [hwords, applyOptions_eq_effects]
  refine ⟨hok, ((configPath_agrees_iff _ {} hok).2 _ hwords).1.mpr ?_⟩
  rintro ⟨before, after, heq, -⟩
  have hmem : Choice.listen "--config" ∈ [.listen "host", .seed "7" 7 hseed, .config "a"] := by
    rw [heq]
    exact List.mem_append_right before List.mem_cons_self
  simp at hmem

/-- The address `--config` makes the next option the name of a file, although the options name
    none. -/
theorem address_taken_for_option :
    applyOptions ["--listen", "--config", "--trace"] {} =
      (.ok (), { listen := some "--config", trace := true }) ∧
    ["--listen", "--config", "--trace"] = spelled [.listen "--config", .trace] ∧
    firstPath [.listen "--config", .trace] = none ∧
    configPath ["--listen", "--config", "--trace"] = some "--trace" :=
  ⟨applyOptions_eq_effects [.listen "--config", .trace] {}, rfl, rfl, rfl⟩

end ZMachine.Settings
