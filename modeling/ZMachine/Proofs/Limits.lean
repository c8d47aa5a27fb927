import ZMachine.Proofs.Agreement

/-! # The limit on instructions

    A run makes steps one after another until the story has quit, a step has
    failed or the limit on instructions is reached. The limit cuts a run and has
    no other part in it.

    * `Session.Performs`: the loop of a run as a relation, without a bound on its
      length; `Ends`: it is over; `Ends.run_eq`, `Performs.run_of_lt`: what is
      run with a bound;
    * `exists_ends`: under a limit, a run comes to an end;
    * `step_withLimit`: no step looks at the limit; `Performs.withLimit`: a run
      under another limit goes through the same states;
    * `Session.limit_cuts_runs`: runs under limits. -/

namespace ZMachine

open ZMachine.Action

namespace Machine

variable {m m' : Machine}

/-- As many instructions as the limit allows have been executed. A limit of 0 is none. -/
def AtLimit (m : Machine) : Prop :=
  ∃ limit, m.rules.limit = some limit ∧ 0 < limit ∧ limit ≤ m.count

/-- The two reasons to stop. -/
theorem isStopped_iff : m.isStopped = true ↔ m.quit = true ∨ m.AtLimit := by
  rw [isStopped, Bool.or_eq_true, AtLimit]
  cases m.rules.limit with
  | none => simp
  | some limit => simp

/-- The machine with another limit, and all else as it is. -/
def withLimit (m : Machine) (limit : Option Nat) : Machine :=
  { m with rules := { m.rules with limit } }

/-- What is aside is the same except for the limit, which is the given one. -/
def SameButLimit (limit : Option Nat) (a b : Aside) : Prop :=
  b = { a with rules := { a.rules with limit } }

/-- To be alike but for the limit is to be the same machine with another limit. -/
theorem alike_withLimit_iff {limit : Option Nat} :
    m.Alike (SameButLimit limit) m' ↔ m' = m.withLimit limit := by
  constructor
  · rintro ⟨_, rfl, rfl⟩
    rfl
  · rintro rfl
    exact ⟨_, rfl, rfl⟩

/-- No operation looks at the limit. -/
theorem steady_sameButLimit (limit : Option Nat) (m : Machine) :
    m.Steady (SameButLimit limit) := by
  refine steady_of_same ?_ ⟨?_, ?_⟩ ?_ m
  · rintro a _ rfl
    rfl
  · rintro a _ rfl
    rfl
  · rintro a _ e rfl
    rfl
  · rintro a _ rfl
    rfl

/-- The limit has no part in how a story is loaded. -/
theorem load_withLimit {image : Memory} {rules : Rules} {entropy : UInt64}
    (h : load image rules entropy = .ok m) (limit : Option Nat) :
    load image { rules with limit } entropy = .ok (m.withLimit limit) := by
  obtain ⟨story, hstory, rfl⟩ := exists_story_of_load h
  exact load_of_story hstory { rules with limit } entropy

/-- A new machine has counted no instruction. -/
theorem count_of_load {image : Memory} {rules : Rules} {entropy : UInt64}
    (h : load image rules entropy = .ok m) : m.count = 0 := by
  obtain ⟨story, -, rfl⟩ := exists_story_of_load h
  rfl

/-- A limit of at least `n` instructions, or none, for which 0 stands too. -/
def AtLeast (n : Nat) (limit : Option Nat) : Prop :=
  limit = none ∨ limit = some 0 ∨ ∃ l, limit = some l ∧ n ≤ l

/-- What stops at a limit of at least `n` has executed at least `n` instructions. -/
theorem AtLimit.le_count (h : m.AtLimit) {n : Nat} (hlimit : AtLeast n m.rules.limit) :
    n ≤ m.count := by
  obtain ⟨l, hl, hpos, hcount⟩ := h
  rw [hl] at hlimit
  rcases hlimit with hnone | hzero | ⟨l', hl', hle⟩
  · cases hnone
  · cases hzero
    cases hpos
  · cases hl'
    exact Nat.le_trans hle hcount

end Machine

/-- How a run is over, by the result of its last step. -/
def Outcome.ofResult : Except Fault Unit → Outcome
  | .ok _ => .stopped
  | .error e => .failed e

namespace Session

open Machine

variable {δ : Type}

/-- The session with another limit, and all else as it is. -/
def withLimit (s : Session δ) (limit : Option Nat) : Session δ :=
  { s with machine := s.machine.withLimit limit }

theorem alike_withLimit_iff {s t : Session δ} {limit : Option Nat} :
    Alike (SameButLimit limit) Eq s t ↔ t = s.withLimit limit := by
  obtain ⟨m, d⟩ := s
  obtain ⟨m', d'⟩ := t
  constructor
  · rintro ⟨hmachine, hdevice⟩
    cases Machine.alike_withLimit_iff.mp hmachine
    cases hdevice
    rfl
  · intro h
    cases h
    exact ⟨Machine.alike_withLimit_iff.mpr rfl, rfl⟩

variable [Device δ] {s t : Session δ} {n : Nat} {r : Except Fault Unit} {e : Fault}

/-! ## Steps -/

/-- A step has the same result and effect under every limit. -/
theorem step_withLimit (s : Session δ) (limit : Option Nat) :
    step (s.withLimit limit) = ((step s).1, (step s).2.withLimit limit) := by
  have hcount (a b : Aside) (hab : SameButLimit limit a b) :
      SameButLimit limit { a with count := a.count + 1 } { b with count := b.count + 1 } := by
    cases hab
    rfl
  obtain ⟨hresult, hstate⟩ := agreeAt_step Device.agree_eq hcount
    (alike_withLimit_iff.mpr rfl) (steady_sameButLimit limit s.machine)
  exact Prod.ext hresult.symm (alike_withLimit_iff.mp hstate)

/-- No step changes the rules, and so none changes the limit. -/
theorem rules_step (s : Session δ) : (step s).2.machine.rules = s.machine.rules := by
  obtain ⟨m, hm, ⟨-, ht⟩ | ⟨e, -, ht⟩⟩ := step_counts s
  · rw [ht]
    exact hm.aside_eq.1
  · rw [ht]
    exact hm.aside_eq.1

/-! ## The loop of a run -/

/-- A run from `s` has made `n` steps, one after another, each at a point where the story had not
    quit and the limit was not reached. The last of them had the result `r` and led to `t`; all
    before it have succeeded. -/
inductive Performs (s : Session δ) : Nat → Except Fault Unit → Session δ → Prop
  | start : Performs s 0 (.ok ()) s
  | next {n : Nat} {t u : Session δ} {r : Except Fault Unit} (hbefore : Performs s n (.ok ()) t)
      (hgo : ¬ (t.machine.quit = true ∨ t.machine.AtLimit)) (hstep : step t = (r, u)) :
      Performs s (n + 1) r u

/-- The run is over: its last step has failed, the story has quit, or the limit is reached. -/
structure Ends (s : Session δ) (n : Nat) (r : Except Fault Unit) (t : Session δ) : Prop where
  performs : Performs s n r t
  finished : r ≠ .ok () ∨ t.machine.quit = true ∨ t.machine.AtLimit

/-- A session that has stopped is not run any further. -/
theorem run_of_stopped (h : s.machine.quit = true ∨ s.machine.AtLimit) (fuel : Nat) :
    run fuel s = (.stopped, s) := by
  have hstopped := isStopped_iff.mpr h
  cases fuel with
  | zero => rw [run, if_pos hstopped]
  | succ fuel => rw [run, if_pos hstopped]

/-- A step that succeeds is followed by the rest of the run. -/
theorem run_of_ok (hgo : ¬ (s.machine.quit = true ∨ s.machine.AtLimit))
    (hstep : step s = (.ok (), t)) (fuel : Nat) : run (fuel + 1) s = run fuel t := by
  rw [run, if_neg fun hstopped => hgo (isStopped_iff.mp hstopped), hstep]

/-- A step that fails ends the run. -/
theorem run_of_error (hgo : ¬ (s.machine.quit = true ∨ s.machine.AtLimit))
    (hstep : step s = (.error e, t)) (fuel : Nat) : run (fuel + 1) s = (.failed e, t) := by
  rw [run, if_neg fun hstopped => hgo (isStopped_iff.mp hstopped), hstep]

namespace Performs

/-- What a number of steps leads to. -/
theorem eq_after (h : Performs s n r t) : t = after n s := by
  induction h with
  | start => rfl
  | next _ _ hstep ih => rw [after_succ, ← ih, hstep]

/-- No number of steps changes the rules. -/
theorem rules (h : Performs s n r t) : t.machine.rules = s.machine.rules := by
  induction h with
  | start => rfl
  | @next n t u r _ _ hstep ih =>
      have hrules := rules_step t
      rw [hstep] at hrules
      exact hrules.trans ih

/-- Each step that has succeeded is counted, and one that has failed is not. -/
theorem count_eq (h : Performs s n r t) :
    (r = .ok () → t.machine.count = s.machine.count + n) ∧
    (r ≠ .ok () → t.machine.count + 1 = s.machine.count + n) := by
  induction h with
  | start => exact ⟨fun _ => rfl, fun hr => absurd rfl hr⟩
  | @next n t u r _ _ hstep ih =>
      have hbefore := ih.1 rfl
      cases r with
      | ok _ =>
          refine ⟨fun _ => ?_, fun hr => absurd rfl hr⟩
          rw [count_of_ok hstep, hbefore, Nat.add_assoc]
      | error e =>
          refine ⟨fun hr => ?_, fun _ => ?_⟩
          · cases hr
          · rw [count_of_error hstep, hbefore, Nat.add_assoc]

/-- Under a limit, no step is made at or behind it. -/
theorem length_le (h : Performs s n r t) {limit : Nat} (hpos : 0 < limit)
    (hlimit : s.machine.rules.limit = some limit) : n ≤ limit - s.machine.count := by
  cases h with
  | start => exact Nat.zero_le _
  | @next n t u r hbefore hgo hstep =>
      have hcount := hbefore.count_eq.1 rfl
      have hlt : t.machine.count < limit := by
        refine Nat.lt_of_not_le fun hle => hgo (.inr ⟨limit, ?_, hpos, hle⟩)
        rw [hbefore.rules, hlimit]
      omega

/-- Before each of the steps the run was to go on. -/
theorem before (h : Performs s n r t) {k : Nat} (hk : k < n) :
    ∃ u, Performs s k (.ok ()) u ∧ ¬ (u.machine.quit = true ∨ u.machine.AtLimit) := by
  induction h with
  | start => cases hk
  | @next n t u r hbefore hgo _ ih =>
      rcases Nat.lt_succ_iff_lt_or_eq.mp hk with hk | rfl
      · exact ih hk
      · exact ⟨t, hbefore, hgo⟩

/-- A run begins with the steps that succeed. -/
theorem run_add (h : Performs s n r t) (hr : r = .ok ()) (fuel : Nat) :
    run (n + fuel) s = run fuel t := by
  induction h generalizing fuel with
  | start => rw [Nat.zero_add]
  | @next n t u r _ hgo hstep ih =>
      rw [Nat.add_assoc, Nat.add_comm 1 fuel, ih rfl, run_of_ok hgo (hstep.trans (by rw [hr]))]

/-- A run with a bound that is too low has made as many steps as it may. -/
theorem run_of_lt (h : Performs s n r t) {fuel : Nat} (hfuel : fuel < n) :
    run fuel s = (.unfinished, after fuel s) := by
  obtain ⟨u, hu, hgo⟩ := h.before hfuel
  have hrun := hu.run_add rfl 0
  rw [Nat.add_zero, run, if_neg fun hstopped => hgo (isStopped_iff.mp hstopped)] at hrun
  rw [hrun, hu.eq_after]

end Performs

/-- A run whose bound suffices is the whole run. -/
theorem Ends.run_eq (h : Ends s n r t) {fuel : Nat} (hfuel : n ≤ fuel) :
    run fuel s = (.ofResult r, t) := by
  obtain ⟨k, rfl⟩ := Nat.exists_eq_add_of_le hfuel
  obtain ⟨hperforms, hfinished⟩ := h
  cases r with
  | ok _ =>
      rw [hperforms.run_add rfl]
      refine run_of_stopped (hfinished.resolve_left fun hr => hr rfl) k
  | error e =>
      cases hperforms with
      | @next n t' _ _ hbefore hgo hstep =>
          rw [Nat.add_assoc, Nat.add_comm 1 k, hbefore.run_add rfl, run_of_error hgo hstep]
          rfl

/-- Either a session ends at some step, or any number of steps succeed. -/
theorem ends_or_performs (s : Session δ) (n : Nat) :
    (∃ k r t, Ends s k r t) ∨ ∃ t, Performs s n (.ok ()) t := by
  induction n with
  | zero => exact .inr ⟨s, .start⟩
  | succ n ih =>
      rcases ih with hends | ⟨t, ht⟩
      · exact .inl hends
      · by_cases hstop : t.machine.quit = true ∨ t.machine.AtLimit
        · exact .inl ⟨n, .ok (), t, ht, .inr hstop⟩
        · cases hstep : step t with
          | mk r u =>
              cases r with
              | ok _ => exact .inr ⟨u, .next ht hstop hstep⟩
              | error e =>
                  refine .inl ⟨n + 1, .error e, u, .next ht hstop hstep, .inl ?_⟩
                  intro hr
                  cases hr

/-- Under a limit every run comes to an end. -/
theorem exists_ends {limit : Nat} (hpos : 0 < limit)
    (hlimit : s.machine.rules.limit = some limit) : ∃ n r t, Ends s n r t := by
  rcases ends_or_performs s (limit - s.machine.count + 1) with hends | ⟨t, ht⟩
  · exact hends
  · exact absurd (ht.length_le hpos hlimit) (Nat.not_succ_le_self _)

/-- A run goes through the same states under another limit that is not reached in them. -/
theorem Performs.withLimit (h : Performs s n r t) (limit : Option Nat)
    (hlimit : ∀ k u, k < n → Performs s k (.ok ()) u → ¬ u.machine.AtLimit →
      ¬ (u.machine.withLimit limit).AtLimit) :
    Performs (s.withLimit limit) n r (t.withLimit limit) := by
  induction h with
  | start => exact .start
  | @next n t u r hbefore hgo hstep ih =>
      have hsteps := ih fun k u hk => hlimit k u (Nat.lt_succ_of_lt hk)
      refine .next hsteps ?_ ?_
      · rintro (hquit | hat)
        · exact hgo (.inl hquit)
        · exact hlimit n t (Nat.lt_succ_self n) hbefore (fun h => hgo (.inr h)) hat
      · rw [step_withLimit, hstep]

/-- A run under a limit is made of the first steps of the run under a higher one, or none. -/
theorem Performs.of_atLeast {limit : Option Nat} {l : Nat} (hpos : 0 < l)
    (hlimit : AtLeast l limit) (h : Performs (s.withLimit (some l)) n r t) :
    Performs (s.withLimit limit) n r (t.withLimit limit) := by
  refine h.withLimit limit fun k u _ hu hbelow hat => hbelow ?_
  have hrules : u.machine.rules.limit = some l := by
    rw [hu.rules]
    rfl
  exact ⟨l, hrules, hpos, hat.le_count hlimit⟩

/-- A run from the start that needs no more steps than a lower limit allows ends in the same way
    under this limit. -/
theorem Ends.of_length_le {limit : Option Nat} {l : Nat} (hpos : 0 < l) (hlimit : AtLeast l limit)
    (hcount : s.machine.count = 0) (h : Ends (s.withLimit limit) n r t) (hn : n ≤ l) :
    Ends (s.withLimit (some l)) n r (t.withLimit (some l)) := by
  constructor
  · refine h.performs.withLimit (some l) fun k u hk hu _ hat => ?_
    have hk' : u.machine.count = s.machine.count + k := hu.count_eq.1 rfl
    have hle : l ≤ u.machine.count := hat.le_count (.inr (.inr ⟨l, rfl, Nat.le_refl l⟩))
    omega
  · refine h.finished.imp_right (.imp_right fun hat => ?_)
    have hrules : t.machine.rules.limit = limit := by
      rw [h.performs.rules]
      rfl
    exact ⟨l, rfl, hpos, hat.le_count (hrules ▸ hlimit)⟩

/-- Under a limit, a run makes steps one after another up to the first point where the story has
    quit, a step has failed or the limit is reached; it comes to an end, and it ends as so many
    steps do. The count grows by one with each step that succeeds and stays with one that fails,
    and it does not pass the limit unless it has done so before. From the start of a story, the
    run under a lower limit is the first part of the run under a higher one or none, and the whole
    of it if that needs no more steps. After a story has quit, running it again changes nothing. -/
theorem limit_cuts_runs {limit : Nat} (hpos : 0 < limit) :
    (∀ s : Session δ, s.machine.rules.limit = some limit →
      (∃ n r t, Ends s n r t ∧ n ≤ limit - s.machine.count) ∧
      ∀ n r t, Performs s n r t → t.machine.count ≤ max limit s.machine.count) ∧
    (∀ (s : Session δ) n r t, Ends s n r t → t = after n s ∧
      (∀ fuel, n ≤ fuel → run fuel s = (.ofResult r, t)) ∧
      ∀ fuel, fuel < n → run fuel s = (.unfinished, after fuel s)) ∧
    (∀ s t : Session δ,
      (step s = (.ok (), t) → t.machine.count = s.machine.count + 1) ∧
      ∀ e, step s = (.error e, t) → t.machine.count = s.machine.count) ∧
    (∀ image rules entropy (s : Session δ) higher,
      load image rules entropy = .ok s.machine → AtLeast limit higher →
      load image { rules with limit := some limit } entropy =
        .ok (s.withLimit (some limit)).machine ∧
      load image { rules with limit := higher } entropy = .ok (s.withLimit higher).machine ∧
      (∀ n r t, Performs (s.withLimit (some limit)) n r t →
        Performs (s.withLimit higher) n r (t.withLimit higher)) ∧
      ∀ n r t, Ends (s.withLimit higher) n r t → n ≤ limit →
        Ends (s.withLimit (some limit)) n r (t.withLimit (some limit))) ∧
    ∀ s : Session δ, s.machine.quit = true → ∀ fuel, run fuel s = (.stopped, s) := by
  refine ⟨?_, ?_, ?_, ?_, ?_⟩
  · intro s hlimit
    constructor
    · obtain ⟨n, r, t, h⟩ := exists_ends hpos hlimit
      exact ⟨n, r, t, h, h.performs.length_le hpos hlimit⟩
    · intro n r t h
      -- A run is no longer than what the count leaves, and a failed step is not counted.
      have hlength := h.length_le hpos hlimit
      by_cases hr : r = .ok ()
      · rw [h.count_eq.1 hr]
        omega
      · have hcount := h.count_eq.2 hr
        omega
  · intro s n r t h
    exact ⟨h.performs.eq_after, fun fuel => h.run_eq, fun fuel => h.performs.run_of_lt⟩
  · intro s t
    exact ⟨count_of_ok, fun e => count_of_error⟩
  · intro image rules entropy s higher hload hhigher
    exact ⟨load_withLimit hload _, load_withLimit hload _, fun n r t => .of_atLeast hpos hhigher,
      fun n r t h => h.of_length_le hpos hhigher (count_of_load hload)⟩
  · intro s hquit
    exact run_of_stopped (.inl hquit)

/-- Under a limit of three, the nested calls are left before they return; the steps up to there are
    the first ones of the run without a limit, which goes on until the story quits. -/
theorem nested_calls_cut :
    load nestedCalls {} 0 = .ok nestedSession.machine ∧
    (∃ n r t, Ends (nestedSession.withLimit (some 3)) n r t ∧
      run 10 (nestedSession.withLimit (some 3)) = (.ofResult r, t) ∧
      t.machine.count = 3 ∧ t.machine.quit = false ∧
      Performs (nestedSession.withLimit none) n r (t.withLimit none)) ∧
    (run 10 (nestedSession.withLimit none)).2.machine.count = 5 ∧
    (run 10 (nestedSession.withLimit none)).2.machine.quit = true := by
  obtain ⟨hunder, hruns, -, hloaded, -⟩ := @limit_cuts_runs Scripted _ 3 (by decide)
  obtain ⟨⟨n, r, t, hends, hn⟩, -⟩ := hunder (nestedSession.withLimit (some 3)) rfl
  obtain ⟨-, -, hperforms, -⟩ := hloaded _ _ _ _ none load_nestedCalls (.inl rfl)
  have hrun := (hruns _ _ _ _ hends).2.1 10 (Nat.le_trans hn (by decide))
  refine ⟨load_nestedCalls, ⟨n, r, t, hends, hrun, ?_, ?_, hperforms n r t hends.performs⟩,
    by decide +kernel, by decide +kernel⟩
  · have hcount : (run 10 (nestedSession.withLimit (some 3))).2.machine.count = 3 := by
      decide +kernel
    rw [hrun] at hcount
    exact hcount
  · have hquit : (run 10 (nestedSession.withLimit (some 3))).2.machine.quit = false := by
      decide +kernel
    rw [hrun] at hquit
    exact hquit

end Session

end ZMachine
