import ZMachine.Action

/-! # What an action may do

    A state function that may fail is judged by three things: how the state in
    which it stops is related to the one in which it starts, which faults it
    may raise, and, if it succeeds, how far it moves a position. A `Conduct`
    fixes these for a kind of state. Its relation is reflexive and transitive,
    so a sequence of actions that obey a conduct obeys it as well, whether it
    succeeds or stops half-way.

    * `bind_eq_ok`: a sequence succeeds exactly if its parts do, in order;
    * `Obeys.bind`, `Moves.bind`: sequences of actions that obey a conduct. -/

namespace ZMachine

namespace Action

variable {σ α β γ : Type}

/-- Two actions in a row: a fault of the first ends both. -/
theorem bind_apply (x : Action σ α) (f : α → Action σ β) (s : σ) :
    (x >>= f) s = match x s with
      | (.ok a, t) => f a t
      | (.error e, t) => (.error e, t) := rfl

private theorem map_id_action (x : Action σ α) : id <$> x = x := by
  funext s
  show Action.bind x (fun a => Action.pure (id a)) s = x s
  unfold Action.bind
  match x s with
  | (.ok a, t) => rfl
  | (.error e, t) => rfl

private theorem bind_assoc_action (x : Action σ α) (f : α → Action σ β) (g : β → Action σ γ) :
    x >>= f >>= g = x >>= fun a => f a >>= g := by
  funext s
  show Action.bind (Action.bind x f) g s = Action.bind x (fun a => Action.bind (f a) g) s
  unfold Action.bind
  match x s with
  | (.ok a, t) => rfl
  | (.error e, t) => rfl

instance : LawfulMonad (Action σ) :=
  LawfulMonad.mk' (Action σ) map_id_action (fun _ _ => rfl) bind_assoc_action

/-- A sequence succeeds exactly if its first part does and its second part goes on from there. -/
theorem bind_eq_ok {x : Action σ α} {f : α → Action σ β} {s u : σ} {b : β} :
    (x >>= f) s = (.ok b, u) ↔ ∃ a t, x s = (.ok a, t) ∧ f a t = (.ok b, u) := by
  rw [bind_apply]
  match hx : x s with
  | (.ok a, t) =>
      constructor
      · intro h
        exact ⟨a, t, rfl, h⟩
      · rintro ⟨a', t', h, hf⟩
        obtain ⟨ha, ht⟩ := Prod.mk.inj h
        cases ha
        cases ht
        exact hf
  | (.error e, t) =>
      constructor
      · intro h
        exact nomatch (Prod.mk.inj h).1
      · rintro ⟨a', t', h, -⟩
        exact nomatch (Prod.mk.inj h).1

/-- Only what the first part of a sequence leads to matters for the second part. -/
theorem bind_congr_of_ok {x : Action σ α} {f g : α → Action σ β} {s : σ}
    (h : ∀ a t, x s = (.ok a, t) → f a t = g a t) : (x >>= f) s = (x >>= g) s := by
  rw [bind_apply, bind_apply]
  match hx : x s with
  | (.ok a, t) => exact h a t hx
  | (.error e, t) => rfl

end Action

/-- What actions on a kind of state may do: how the last state is related to the first one,
    which faults they raise, and the position that they move. -/
structure Conduct (σ : Type) where
  keeps : σ → σ → Prop
  mayFail : σ → Fault → Prop
  position : σ → Nat
  refl : ∀ s, keeps s s
  trans : ∀ {s t u}, keeps s t → keeps t u → keeps s u
  /-- What may go wrong later might have gone wrong from the start. -/
  mayFail_of_keeps : ∀ {s t e}, keeps s t → mayFail t e → mayFail s e

namespace Conduct

variable {σ α β : Type} {C : Conduct σ} {n k : Nat}

/-- Wherever the action stops, the state is as the conduct has it, and so is its fault. -/
def Obeys (C : Conduct σ) (x : Action σ α) : Prop :=
  ∀ s, C.keeps s (x s).2 ∧ ∀ e, (x s).1 = .error e → C.mayFail s e

/-- The action obeys the conduct and moves the position by `n` if it succeeds. -/
structure Moves (C : Conduct σ) (n : Nat) (x : Action σ α) : Prop where
  obeys : C.Obeys x
  moves : ∀ {s t a}, x s = (.ok a, t) → C.position t = C.position s + n

/-- An action that obeys keeps what the conduct says, whether it succeeds or not. -/
theorem Obeys.keeps {x : Action σ α} (h : C.Obeys x) {s t : σ} {r : Except Fault α}
    (hx : x s = (r, t)) : C.keeps s t := by
  have := (h s).1
  rw [hx] at this
  exact this

/-- An action that obeys fails only with the faults that the conduct allows. -/
theorem Obeys.mayFail {x : Action σ α} (h : C.Obeys x) {s t : σ} {e : Fault}
    (hx : x s = (.error e, t)) : C.mayFail s e :=
  (h s).2 e (by rw [hx])

/-- The second part of a sequence runs on a value that the first part has yielded. -/
theorem Obeys.bind_of_ok {x : Action σ α} {f : α → Action σ β} (hx : C.Obeys x)
    (hf : ∀ a s t, x s = (.ok a, t) → C.Obeys (f a)) : C.Obeys (x >>= f) := by
  intro s
  rw [Action.bind_apply]
  match hs : x s with
  | (.ok a, t) =>
      have hst : C.keeps s t := hx.keeps hs
      obtain ⟨hk, he⟩ := hf a s t hs t
      exact ⟨C.trans hst hk, fun e h => C.mayFail_of_keeps hst (he e h)⟩
  | (.error e, t) =>
      refine ⟨hx.keeps hs, ?_⟩
      intro e' h
      cases h
      exact hx.mayFail hs

/-- Two actions that obey, one after another, obey. -/
theorem Obeys.bind {x : Action σ α} {f : α → Action σ β} (hx : C.Obeys x)
    (hf : ∀ a, C.Obeys (f a)) : C.Obeys (x >>= f) :=
  hx.bind_of_ok fun a _ _ _ => hf a

theorem Obeys.pure (a : α) : C.Obeys (pure a : Action σ α) :=
  fun s => ⟨C.refl s, fun _ h => nomatch h⟩

theorem Obeys.fail {e : Fault} (he : ∀ s, C.mayFail s e) :
    C.Obeys (Action.fail e : Action σ α) := by
  intro s
  refine ⟨C.refl s, ?_⟩
  intro e' h
  cases h
  exact he s

/-- A question keeps the state, so only its faults matter. -/
theorem Obeys.ask {f : σ → Except Fault α} (hf : ∀ s e, f s = .error e → C.mayFail s e) :
    C.Obeys (Action.ask f) :=
  fun s => ⟨C.refl s, hf s⟩

/-- A conduct with further faults. -/
def allowing (C : Conduct σ) (E : Fault → Prop) : Conduct σ where
  keeps := C.keeps
  mayFail s e := C.mayFail s e ∨ E e
  position := C.position
  refl := C.refl
  trans := C.trans
  mayFail_of_keeps h he := he.imp_left (C.mayFail_of_keeps h)

/-- An action that obeys still does so when more faults are allowed. -/
theorem Obeys.allowing {x : Action σ α} (hx : C.Obeys x) (E : Fault → Prop) :
    (C.allowing E).Obeys x :=
  fun s => ⟨(hx s).1, fun e he => .inl ((hx s).2 e he)⟩

/-- Two actions in a row move by the sum of what each of them moves by. -/
theorem Moves.bind {x : Action σ α} {f : α → Action σ β} (hx : C.Moves n x)
    (hf : ∀ a, C.Moves k (f a)) : C.Moves (n + k) (x >>= f) := by
  refine ⟨hx.obeys.bind fun a => (hf a).obeys, ?_⟩
  intro s u b h
  obtain ⟨a, t, hs, ht⟩ := Action.bind_eq_ok.mp h
  rw [(hf a).moves ht, hx.moves hs, Nat.add_assoc]

/-- A sequence whose first part does not move the position. -/
theorem Moves.after {x : Action σ α} {f : α → Action σ β} (hx : C.Moves 0 x)
    (hf : ∀ a, C.Moves n (f a)) : C.Moves n (x >>= f) := by
  have := hx.bind hf
  rwa [Nat.zero_add] at this

/-- An action that either stops in a state that the conduct allows or fails where it began. -/
theorem Moves.of_cases {x : Action σ α}
    (hx : ∀ s, (∃ a t, x s = (.ok a, t) ∧ C.keeps s t ∧ C.position t = C.position s + n) ∨
      ∃ e, x s = (.error e, s) ∧ C.mayFail s e) : C.Moves n x := by
  constructor
  · intro s
    rcases hx s with ⟨a, t, hs, hk, -⟩ | ⟨e, hs, he⟩
    · rw [hs]
      exact ⟨hk, fun e h => nomatch h⟩
    · rw [hs]
      refine ⟨C.refl s, ?_⟩
      intro e' h
      cases h
      exact he
  · intro s t a h
    rcases hx s with ⟨a', t', hs, -, hp⟩ | ⟨e, hs, -⟩
    · cases hs.symm.trans h
      exact hp
    · cases hs.symm.trans h

/-- An action that stops in a state that the conduct allows, without a fault. -/
theorem Moves.of_ok {x : Action σ α} (f : σ → α) (g : σ → σ) (hx : ∀ s, x s = (.ok (f s), g s))
    (hk : ∀ s, C.keeps s (g s)) (hp : ∀ s, C.position (g s) = C.position s + n) :
    C.Moves n x :=
  .of_cases fun s => .inl ⟨f s, g s, hx s, hk s, hp s⟩

theorem Moves.pure (a : α) : C.Moves 0 (pure a : Action σ α) :=
  .of_ok (fun _ => a) id (fun _ => rfl) C.refl (fun _ => rfl)

theorem Moves.view (f : σ → α) : C.Moves 0 (Action.view f) :=
  .of_ok f id (fun _ => rfl) C.refl (fun _ => rfl)

theorem Moves.change {f : σ → σ} (hk : ∀ s, C.keeps s (f s))
    (hp : ∀ s, C.position (f s) = C.position s) : C.Moves 0 (Action.change f) :=
  .of_ok (fun _ => ()) f (fun _ => rfl) hk hp

theorem Moves.ask {f : σ → Except Fault α} (hf : ∀ s e, f s = .error e → C.mayFail s e) :
    C.Moves 0 (Action.ask f) := by
  refine ⟨.ask hf, ?_⟩
  intro s t a h
  obtain ⟨-, rfl⟩ := Prod.mk.inj h
  rfl

/-- A failure moves nothing, so any distance may be claimed for it. -/
theorem Moves.fail {e : Fault} (he : ∀ s, C.mayFail s e) :
    C.Moves n (Action.fail e : Action σ α) :=
  .of_cases fun s => .inr ⟨e, rfl, he s⟩

end Conduct

end ZMachine
