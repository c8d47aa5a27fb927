import ZMachine.Proofs.Forest

/-! # Changing the object tree in any memory

    The links of a story may be wrong in every way: they may go in circles, name
    objects that do not exist, or leave an object out of the children of its
    parent. Removing and inserting objects are still safe. All that can go wrong
    is found before the first byte is written, and then nothing changes;
    otherwise only few bytes do.

    * `Fits`: a table that was found in a memory of the same size lies in it;
    * `walk`: the objects that the walk along siblings visits, and how it ends;
      `bypass_eq_walk`, `length_walk`, `walk_of_agree`: that it does so, that it
      visits no more objects than it may, and that nothing else matters to it;
    * `Strays`, `Spliced`: the two ways in which a removal can go on, and
      `remove_of_strays`, `remove_of_root`, `remove_of_spliced`: what it does
      then;
    * `relinking_atomic`: removals and insertions in any memory. -/

namespace ZMachine.ObjectTable

variable {t : ObjectTable} {m m₁ m₂ : Memory} {l k : Link} {o p q d x y first next : UInt16}

/-! ## Tables that lie in memory -/

/-- All links of objects lie in memory. -/
def Fits (t : ObjectTable) (m : Memory) : Prop := ∀ l o, t.IsObject o → t.address l o < m.size

/-- Every entry that is counted has room in memory. -/
theorem fits_of_countFrom {start room k lowest n : Nat}
    (h : countFrom m start room k lowest = .ok n) : n = k ∨ start + entrySize * n ≤ m.size := by
  induction room generalizing k lowest with
  | zero => exact .inl (Except.ok.inj h).symm
  | succ room ih =>
      rw [countFrom] at h
      split at h
      · exact .inl (Except.ok.inj h).symm
      · next hroom =>
          obtain ⟨w, -, h⟩ := FailsOnly.bind_eq_ok.mp h
          rcases ih h with rfl | hfits
          · refine .inr ?_
            have hentry : ¬ m.size < start + entrySize * k + entrySize :=
              fun hlt => hroom (.inr hlt)
            rw [Nat.mul_succ]
            omega
          · exact .inr hfits

/-- A table that was read lies in every memory of the same size. -/
theorem fits_of_ofMemory {image : Memory} {header : Header} (h : ofMemory image header = .ok t)
    (hsize : m.size = image.size) : t.Fits m := by
  obtain ⟨n, hn, h⟩ := FailsOnly.bind_eq_ok.mp h
  cases Except.ok.inj h
  intro l o ho
  obtain ⟨hlow, hhigh⟩ : 1 ≤ o.toNat ∧ o.toNat ≤ n := ho
  have hoffset : l.offset ≤ 6 := by cases l <;> decide
  rcases fits_of_countFrom hn with rfl | hfits
  · omega
  · simp only [address, entrySize] at hfits ⊢
    rw [hsize]
    omega

/-- Whether a table lies in memory depends on the size only. -/
theorem Fits.of_size (h : t.Fits m) (hsize : m₂.size = m.size) : t.Fits m₂ := by
  intro l o ho
  rw [hsize]
  exact h l o ho

/-- A link of an object can be read, and names a number that fits into a byte. -/
theorem Fits.exists_link (h : t.Fits m) (ho : t.IsObject o) (l : Link) :
    ∃ x, t.link m l o = .ok x ∧ x.toNat ≤ maxObjects := by
  obtain ⟨b, hb⟩ : ∃ b, m.byteAt (t.address l o) = .ok b := ⟨_, dif_pos (h l o ho)⟩
  refine ⟨b.toUInt16, link_eq_ok_iff.mpr ⟨ho, b, hb, rfl⟩, ?_⟩
  rw [UInt8.toNat_toUInt16]
  exact Nat.le_of_lt_succ b.toNat_lt

/-- There is no link of what is not an object. -/
theorem link_of_not_isObject (ho : ¬ t.IsObject o) :
    t.link m l o = .error (.invalidObject o) := by
  rw [link, entry_of_not_isObject ho]
  rfl

/-- A link is one byte. -/
theorem le_maxObjects_of_link (h : t.link m l o = .ok x) : x.toNat ≤ maxObjects := by
  obtain ⟨-, b, -, rfl⟩ := link_eq_ok_iff.mp h
  rw [UInt8.toNat_toUInt16]
  exact Nat.le_of_lt_succ b.toNat_lt

/-- An action that first asks for a link of what is no object fails. -/
theorem bind_ask_of_not_isObject {α : Type} {f : UInt16 → Action Memory α}
    (ho : ¬ t.IsObject o) :
    (Action.ask (t.link · l o) >>= f) m = (.error (.invalidObject o), m) :=
  Action.bind_of_error (by rw [Action.ask_apply, link_of_not_isObject ho])

theorem size_withLink : (t.withLink m l o x).size = m.size := m.size_setByte _ _

/-- Links that lie in memory can be set. -/
theorem Fits.setLink_eq (h : t.Fits m) (ho : t.IsObject o) (hx : x.toNat ≤ maxObjects) :
    t.setLink l o x m = (.ok (), t.withLink m l o x) := by
  obtain ⟨y, hy, -⟩ := h.exists_link ho l
  exact ObjectTable.setLink_eq hy hx

/-- A link that is set is read again. -/
theorem Fits.link_withLink (h : t.Fits m) (ho : t.IsObject o) (hx : x.toNat ≤ maxObjects) :
    t.link (t.withLink m l o x) l o = .ok x := by
  obtain ⟨y, hy, -⟩ := h.exists_link ho l
  exact link_withLink_self hy hx

/-! ## The walk along siblings -/

/-- How the walk along siblings ends. -/
inductive WalkEnd where
  /-- The object was not found, before the end of the list or in as many steps as were allowed. -/
  | missing
  /-- The object comes right after this one. -/
  | behind (q : UInt16)
  /-- There is no object with this number. -/
  | stray (x : UInt16)
  deriving DecidableEq, Repr

/-- The objects that the walk along siblings visits in search of `o`, and how it ends. -/
def walk (t : ObjectTable) (m : Memory) (o : UInt16) : (fuel : Nat) → (x : UInt16) →
    List UInt16 × WalkEnd
  | 0, _ => ([], .missing)
  | fuel + 1, x =>
      if x = 0 then ([], .missing)
      else
        match t.link m .sibling x with
        | .error _ => ([x], .stray x)
        | .ok y =>
            if y = o then ([x], .behind x)
            else (x :: (walk t m o fuel y).1, (walk t m o fuel y).2)

/-- What is left to do when the walk has ended. -/
def WalkEnd.conclude (t : ObjectTable) (next : UInt16) : WalkEnd → Action Memory Unit
  | missing => pure ()
  | behind q => t.setLink .sibling q next
  | stray x => .fail (.invalidObject x)

variable {fuel : Nat} {xs : List UInt16} {ending : WalkEnd}

/-- Objects that follow one another as siblings. -/
inductive Trail (t : ObjectTable) (m : Memory) : UInt16 → List UInt16 → Prop
  | nil {x : UInt16} : Trail t m x []
  | last {x : UInt16} : Trail t m x [x]
  | cons {x y : UInt16} {xs : List UInt16} (hlink : t.link m .sibling x = .ok y)
      (hrest : Trail t m y xs) : Trail t m x (x :: xs)

/-- A walk ends where there is no sibling. -/
theorem walk_zero (fuel : Nat) : t.walk m o fuel 0 = ([], .missing) := by
  cases fuel with
  | zero => rfl
  | succ fuel => exact if_pos rfl

/-- A walk ends at a sibling that is not an object. -/
theorem walk_stray (hx : x ≠ 0) (hobject : ¬ t.IsObject x) (fuel : Nat) :
    t.walk m o (fuel + 1) x = ([x], .stray x) := by
  rw [walk, if_neg hx, link_of_not_isObject hobject]

/-- A walk ends where the object is found. -/
theorem walk_behind (hlink : t.link m .sibling x = .ok o) (fuel : Nat) :
    t.walk m o (fuel + 1) x = ([x], .behind x) := by
  rw [walk, if_neg (ne_zero_of_link hlink), hlink]
  exact if_pos rfl

/-- Otherwise it goes on with the next sibling. -/
theorem walk_on (hlink : t.link m .sibling x = .ok y) (hy : y ≠ o) (fuel : Nat) :
    t.walk m o (fuel + 1) x = (x :: (t.walk m o fuel y).1, (t.walk m o fuel y).2) := by
  rw [walk, if_neg (ne_zero_of_link hlink), hlink]
  exact if_neg hy

/-- The cases of one step of the walk. -/
theorem walk_cases (h : t.Fits m) (o x : UInt16) :
    x = 0 ∨ (x ≠ 0 ∧ ¬ t.IsObject x) ∨ t.link m .sibling x = .ok o ∨
      ∃ y, t.link m .sibling x = .ok y ∧ y ≠ o := by
  by_cases hx : x = 0
  · exact .inl hx
  · by_cases hobject : t.IsObject x
    · obtain ⟨y, hy, -⟩ := h.exists_link hobject .sibling
      by_cases hyo : y = o
      · subst hyo
        exact .inr (.inr (.inl hy))
      · exact .inr (.inr (.inr ⟨y, hy, hyo⟩))
    · exact .inr (.inl ⟨hx, hobject⟩)

/-- Taking an object out of a list is a walk, followed by what its end calls for. -/
theorem bypass_eq_walk (h : t.Fits m) (fuel : Nat) (x : UInt16) :
    t.bypass o next fuel x m = (t.walk m o fuel x).2.conclude t next m := by
  induction fuel generalizing x with
  | zero => rfl
  | succ fuel ih =>
      rcases walk_cases h o x with rfl | ⟨hx, hobject⟩ | hlink | ⟨y, hlink, hy⟩
      · rw [walk_zero, bypass, if_pos rfl]
        rfl
      · rw [walk_stray hx hobject, bypass, if_neg hx]
        exact bind_ask_of_not_isObject hobject
      · rw [walk_behind hlink, bypass, if_neg (ne_zero_of_link hlink), bind_ask hlink, if_pos rfl]
        rfl
      · rw [walk_on hlink hy, bypass, if_neg (ne_zero_of_link hlink), bind_ask hlink, if_neg hy]
        exact ih y

/-- The walk visits no more objects than it may. -/
theorem length_walk (t : ObjectTable) (m : Memory) (o : UInt16) (fuel : Nat) (x : UInt16) :
    (t.walk m o fuel x).1.length ≤ fuel := by
  induction fuel generalizing x with
  | zero => exact Nat.le_refl 0
  | succ fuel ih =>
      rw [walk]
      split
      · exact Nat.zero_le _
      · split
        · exact Nat.succ_le_succ (Nat.zero_le fuel)
        · split
          · exact Nat.succ_le_succ (Nat.zero_le fuel)
          · exact Nat.succ_le_succ (ih _)

/-- The objects that are visited are siblings, each of the one before. -/
theorem trail_walk (h : t.Fits m) (fuel : Nat) (x : UInt16) :
    t.Trail m x (t.walk m o fuel x).1 := by
  induction fuel generalizing x with
  | zero => exact .nil
  | succ fuel ih =>
      rcases walk_cases h o x with rfl | ⟨hx, hobject⟩ | hlink | ⟨y, hlink, hy⟩
      · rw [walk_zero]
        exact .nil
      · rw [walk_stray hx hobject]
        exact .last
      · rw [walk_behind hlink]
        exact .last
      · rw [walk_on hlink hy]
        exact .cons hlink (ih y)

/-- Nothing but the sibling links of the objects that it visits matters to the walk. -/
theorem walk_of_agree (h : t.Fits m)
    (hsame : ∀ y ∈ (t.walk m o fuel x).1, t.link m₂ .sibling y = t.link m .sibling y) :
    t.walk m₂ o fuel x = t.walk m o fuel x := by
  induction fuel generalizing x with
  | zero => rfl
  | succ fuel ih =>
      rcases walk_cases h o x with rfl | ⟨hx, hobject⟩ | hlink | ⟨y, hlink, hy⟩
      · rw [walk_zero, walk_zero]
      · rw [walk_stray hx hobject, walk_stray hx hobject]
      · rw [walk_behind hlink] at hsame ⊢
        exact walk_behind ((hsame x List.mem_cons_self).trans hlink) fuel
      · rw [walk_on hlink hy] at hsame ⊢
        have hlink₂ := (hsame x List.mem_cons_self).trans hlink
        rw [walk_on hlink₂ hy, ih fun z hz => hsame z (List.mem_cons_of_mem x hz)]

/-- The walk stops where it has found what it looks for, at an object that it has visited. -/
theorem of_walk_behind (h : t.Fits m) (hwalk : t.walk m o fuel x = (xs, .behind q)) :
    q ∈ xs ∧ t.link m .sibling q = .ok o := by
  induction fuel generalizing x xs with
  | zero => cases hwalk
  | succ fuel ih =>
      rcases walk_cases h o x with rfl | ⟨hx, hobject⟩ | hlink | ⟨y, hlink, hy⟩
      · rw [walk_zero] at hwalk
        cases hwalk
      · rw [walk_stray hx hobject] at hwalk
        cases hwalk
      · rw [walk_behind hlink] at hwalk
        cases hwalk
        exact ⟨List.mem_cons_self, hlink⟩
      · rw [walk_on hlink hy] at hwalk
        obtain ⟨rfl, hend⟩ := Prod.mk.inj hwalk
        obtain ⟨hq, hfound⟩ := ih (Prod.ext rfl hend)
        exact ⟨List.mem_cons_of_mem x hq, hfound⟩

/-! ## Removals -/

/-- The numbers at which a removal of `o` finds out that there is no such object: that of `o`,
    that of its parent, or one on the way along the children of its parent. -/
inductive Strays (t : ObjectTable) (m : Memory) (o : UInt16) : UInt16 → Prop
  | self (hobject : ¬ t.IsObject o) : Strays t m o o
  | parent {p : UInt16} (hp : t.link m .parent o = .ok p) (hne : p ≠ 0)
      (hobject : ¬ t.IsObject p) : Strays t m o p
  | sibling {p first x : UInt16} (hp : t.link m .parent o = .ok p)
      (hfirst : t.link m .child p = .ok first) (hne : first ≠ o)
      (hwalk : (t.walk m o (t.count + 1) first).2 = .stray x) : Strays t m o x

/-- The memories in which the one link that leads to `o` among the children of `p` has been set
    to lead past it. If the walk does not find that link, nothing has been set. -/
inductive Spliced (t : ObjectTable) (m : Memory) (o p : UInt16) : Memory → Prop
  | first {next : UInt16} (hfirst : t.link m .child p = .ok o)
      (hnext : t.link m .sibling o = .ok next) : Spliced t m o p (t.withLink m .child p next)
  | later {first next q : UInt16} {xs : List UInt16} (hfirst : t.link m .child p = .ok first)
      (hne : first ≠ o) (hwalk : t.walk m o (t.count + 1) first = (xs, .behind q))
      (hnext : t.link m .sibling o = .ok next) : Spliced t m o p (t.withLink m .sibling q next)
  | missing {first : UInt16} {xs : List UInt16} (hfirst : t.link m .child p = .ok first)
      (hne : first ≠ o) (hwalk : t.walk m o (t.count + 1) first = (xs, .missing)) :
      Spliced t m o p m

/-- A memory in which an object has neither parent nor sibling any more. -/
def cleared (t : ObjectTable) (m : Memory) (o : UInt16) : Memory :=
  t.withLink (t.withLink m .parent o 0) .sibling o 0

theorem Spliced.size (h : t.Spliced m o p m₁) : m₁.size = m.size := by
  cases h with
  | first hfirst hnext => exact size_withLink
  | later hfirst hne hwalk hnext => exact size_withLink
  | missing hfirst hne hwalk => rfl

/-- A removal takes one of three ways. -/
theorem remove_cases (h : t.Fits m) (o : UInt16) :
    (∃ x, t.Strays m o x) ∨ t.link m .parent o = .ok 0 ∨
      ∃ p m₁, p ≠ 0 ∧ t.link m .parent o = .ok p ∧ t.Spliced m o p m₁ := by
  by_cases ho : t.IsObject o
  · obtain ⟨p, hp, -⟩ := h.exists_link ho .parent
    obtain ⟨next, hnext, -⟩ := h.exists_link ho .sibling
    by_cases hp0 : p = 0
    · subst hp0
      exact .inr (.inl hp)
    by_cases hpo : t.IsObject p
    · obtain ⟨first, hfirst, -⟩ := h.exists_link hpo .child
      by_cases hfo : first = o
      · subst hfo
        exact .inr (.inr ⟨p, _, hp0, hp, .first hfirst hnext⟩)
      · -- the object is not the first child, so it is walked to
        cases hwalk : t.walk m o (t.count + 1) first with
        | mk xs ending =>
            cases ending with
            | missing => exact .inr (.inr ⟨p, m, hp0, hp, .missing hfirst hfo hwalk⟩)
            | behind q => exact .inr (.inr ⟨p, _, hp0, hp, .later hfirst hfo hwalk hnext⟩)
            | stray x => exact .inl ⟨x, .sibling hp hfirst hfo (congrArg Prod.snd hwalk)⟩
    · exact .inl ⟨p, .parent hp hp0 hpo⟩
  · exact .inl ⟨o, .self ho⟩

/-- Where a removal finds a number that is no object, nothing has been written. -/
theorem remove_of_strays (h : t.Fits m) (hx : t.Strays m o x) :
    t.remove o m = (.error (.invalidObject x), m) := by
  cases hx with
  | self hobject => exact bind_ask_of_not_isObject hobject
  | parent hp hne hobject =>
      obtain ⟨next, hnext, -⟩ := h.exists_link (isObject_of_link hp) .sibling
      rw [remove, bind_ask hp, if_neg hne, bind_ask hnext]
      exact bind_ask_of_not_isObject hobject
  | sibling hp hfirst hne hwalk =>
      obtain ⟨next, hnext, -⟩ := h.exists_link (isObject_of_link hp) .sibling
      rw [remove, bind_ask hp, if_neg (ne_zero_of_link hfirst), bind_ask hnext, bind_ask hfirst,
        if_neg hne]
      refine Action.bind_of_error ?_
      rw [bypass_eq_walk h, hwalk]
      rfl

/-- An object without a parent stays as it is. -/
theorem remove_of_root (hp : t.link m .parent o = .ok 0) : t.remove o m = (.ok (), m) := by
  rw [remove, bind_ask hp, if_pos rfl]
  rfl

/-- The first part of a removal sets one link at most. -/
theorem Spliced.run (h : t.Fits m) (hm₁ : t.Spliced m o p m₁)
    (hfirst : t.link m .child p = .ok first) (hnext : t.link m .sibling o = .ok next) :
    (if first = o then t.setLink .child p next
      else t.bypass o next (t.count + 1) first) m = (.ok (), m₁) := by
  have hle := le_maxObjects_of_link hnext
  cases hm₁ with
  | first hfirst' hnext' =>
      cases Except.ok.inj (hfirst.symm.trans hfirst')
      cases Except.ok.inj (hnext.symm.trans hnext')
      rw [if_pos rfl]
      exact setLink_eq hfirst hle
  | later hfirst' hne hwalk hnext' =>
      cases Except.ok.inj (hfirst.symm.trans hfirst')
      cases Except.ok.inj (hnext.symm.trans hnext')
      rw [if_neg hne, bypass_eq_walk h, hwalk]
      exact setLink_eq (of_walk_behind h hwalk).2 hle
  | missing hfirst' hne hwalk =>
      cases Except.ok.inj (hfirst.symm.trans hfirst')
      rw [if_neg hne, bypass_eq_walk h, hwalk]
      rfl

/-- An object with a parent is taken out of its list, and its links are cleared. -/
theorem remove_of_spliced (h : t.Fits m) (hp : t.link m .parent o = .ok p) (hne : p ≠ 0)
    (hm₁ : t.Spliced m o p m₁) : t.remove o m = (.ok (), t.cleared m₁ o) := by
  have ho := isObject_of_link hp
  obtain ⟨first, hfirst⟩ : ∃ first, t.link m .child p = .ok first := by
    cases hm₁ with
    | first hfirst _ => exact ⟨_, hfirst⟩
    | later hfirst _ _ _ => exact ⟨_, hfirst⟩
    | missing hfirst _ _ => exact ⟨_, hfirst⟩
  obtain ⟨next, hnext, -⟩ := h.exists_link ho .sibling
  have hfits₁ : t.Fits m₁ := h.of_size hm₁.size
  have hrun := hm₁.run h hfirst hnext
  -- What follows the splice is the same in both branches.
  have hclear : (do
      t.setLink .parent o 0
      t.setLink .sibling o 0 : Action Memory Unit) m₁ = (.ok (), t.cleared m₁ o) := by
    rw [Action.bind_of_ok (hfits₁.setLink_eq ho (Nat.zero_le _))]
    exact (hfits₁.of_size size_withLink).setLink_eq ho (Nat.zero_le _)
  rw [remove, bind_ask hp, if_neg hne, bind_ask hnext, bind_ask hfirst]
  split at hrun
  · next hfo =>
      rw [if_pos hfo]
      exact (Action.bind_of_ok hrun).trans hclear
  · next hfo =>
      rw [if_neg hfo]
      exact (Action.bind_of_ok hrun).trans hclear

/-- A removal fails exactly if it finds a number that is no object. -/
theorem remove_eq_error_iff (h : t.Fits m) {e : Fault} :
    (t.remove o m).1 = .error e ↔ ∃ x, e = .invalidObject x ∧ t.Strays m o x := by
  constructor
  · intro he
    rcases remove_cases h o with ⟨x, hx⟩ | hp | ⟨p, m₁, hne, hp, hm₁⟩
    · rw [remove_of_strays h hx] at he
      exact ⟨x, (Except.error.inj he).symm, hx⟩
    · rw [remove_of_root hp] at he
      cases he
    · rw [remove_of_spliced h hp hne hm₁] at he
      cases he
  · rintro ⟨x, rfl, hx⟩
    rw [remove_of_strays h hx]

/-! ### What a removal looks at -/

/-- The objects whose siblings a removal of `o` looks up on the way along the children of its
    parent. -/
def visited (t : ObjectTable) (m : Memory) (o : UInt16) : List UInt16 :=
  match t.link m .parent o with
  | .error _ => []
  | .ok p =>
      match t.link m .child p with
      | .error _ => []
      | .ok first => if first = o then [] else (t.walk m o (t.count + 1) first).1

/-- What is visited is what the walk from the first child visits. -/
theorem visited_eq (hp : t.link m .parent o = .ok p) (hfirst : t.link m .child p = .ok first)
    (hne : first ≠ o) : t.visited m o = (t.walk m o (t.count + 1) first).1 := by
  simp only [visited, hp, hfirst, if_neg hne]

/-- No more is visited than there are objects, and one. -/
theorem length_visited (t : ObjectTable) (m : Memory) (o : UInt16) :
    (t.visited m o).length ≤ t.count + 1 := by
  simp only [visited]
  split
  · exact Nat.zero_le _
  · split
    · exact Nat.zero_le _
    · split
      · exact Nat.zero_le _
      · exact t.length_walk m o _ _

/-- Two memories are the same to a removal of `o`: in the parent and the sibling of `o`, the
    first child of its parent, and the siblings of the objects that it visits. -/
structure SameTo (t : ObjectTable) (m m₂ : Memory) (o : UInt16) : Prop where
  size : m₂.size = m.size
  parent : t.link m₂ .parent o = t.link m .parent o
  sibling : t.link m₂ .sibling o = t.link m .sibling o
  child : ∀ p, t.link m .parent o = .ok p → t.link m₂ .child p = t.link m .child p
  visited : ∀ x ∈ t.visited m o, t.link m₂ .sibling x = t.link m .sibling x

/-- The walk takes the same way in two memories that are the same to the removal. -/
theorem SameTo.walk_eq (hs : t.SameTo m m₂ o) (h : t.Fits m) (hp : t.link m .parent o = .ok p)
    (hfirst : t.link m .child p = .ok first) (hne : first ≠ o) :
    t.walk m₂ o (t.count + 1) first = t.walk m o (t.count + 1) first := by
  refine walk_of_agree h ?_
  rw [← visited_eq hp hfirst hne]
  exact hs.visited

/-- Whether a walk strays depends on the links that it reads. -/
theorem SameTo.strays (hs : t.SameTo m m₂ o) (h : t.Fits m) (hx : t.Strays m o x) :
    t.Strays m₂ o x := by
  cases hx with
  | self hobject => exact .self hobject
  | parent hp hne hobject => exact .parent (hs.parent.trans hp) hne hobject
  | sibling hp hfirst hne hwalk =>
      refine .sibling (hs.parent.trans hp) ((hs.child _ hp).trans hfirst) hne ?_
      rw [hs.walk_eq h hp hfirst hne]
      exact hwalk

/-- Setting the same link in two memories of one size leaves those bytes equal that were. -/
theorem getElem?_withLink_congr (hsize : m₂.size = m.size) {a : Nat}
    (ha : m₂.bytes[a]? = m.bytes[a]?) :
    (t.withLink m₂ l o x).bytes[a]? = (t.withLink m l o x).bytes[a]? := by
  have hsize : m₂.bytes.size = m.bytes.size := hsize
  show (m₂.bytes.setIfInBounds _ _)[a]? = (m.bytes.setIfInBounds _ _)[a]?
  rw [Array.getElem?_setIfInBounds, Array.getElem?_setIfInBounds, hsize, ha]

/-- So does where the object is taken out. -/
theorem SameTo.spliced (hs : t.SameTo m m₂ o) (h : t.Fits m) (hp : t.link m .parent o = .ok p)
    (hm₁ : t.Spliced m o p m₁) : ∃ m₁', t.Spliced m₂ o p m₁' ∧
      ∀ a : Nat, m₂.bytes[a]? = m.bytes[a]? → m₁'.bytes[a]? = m₁.bytes[a]? := by
  cases hm₁ with
  | first hfirst hnext =>
      refine ⟨_, .first ((hs.child p hp).trans hfirst) (hs.sibling.trans hnext), ?_⟩
      exact fun a => getElem?_withLink_congr hs.size
  | later hfirst hne hwalk hnext =>
      have hwalk₂ := (hs.walk_eq h hp hfirst hne).trans hwalk
      refine ⟨_, .later ((hs.child p hp).trans hfirst) hne hwalk₂ (hs.sibling.trans hnext), ?_⟩
      exact fun a => getElem?_withLink_congr hs.size
  | missing hfirst hne hwalk =>
      have hwalk₂ := (hs.walk_eq h hp hfirst hne).trans hwalk
      exact ⟨m₂, .missing ((hs.child p hp).trans hfirst) hne hwalk₂, fun a ha => ha⟩

/-- Two runs of one operation end alike, and bytes that were equal before are so afterwards. -/
def EndAlike (x : Action Memory Unit) (m m₂ : Memory) : Prop :=
  (x m₂).1 = (x m).1 ∧
    ∀ a : Nat, m₂.bytes[a]? = m.bytes[a]? → (x m₂).2.bytes[a]? = (x m).2.bytes[a]?

/-- A removal looks at nothing else. -/
theorem SameTo.remove (hs : t.SameTo m m₂ o) (h : t.Fits m) : EndAlike (t.remove o) m m₂ := by
  have h₂ : t.Fits m₂ := h.of_size hs.size
  rcases remove_cases h o with ⟨x, hx⟩ | hp | ⟨p, m₁, hne, hp, hm₁⟩
  · rw [EndAlike, remove_of_strays h hx, remove_of_strays h₂ (hs.strays h hx)]
    exact ⟨rfl, fun a ha => ha⟩
  · rw [EndAlike, remove_of_root hp, remove_of_root (hs.parent.trans hp)]
    exact ⟨rfl, fun a ha => ha⟩
  · obtain ⟨m₁', hm₁', hsame⟩ := hs.spliced h hp hm₁
    rw [EndAlike, remove_of_spliced h hp hne hm₁,
      remove_of_spliced h₂ (hs.parent.trans hp) hne hm₁']
    have hsize : m₁'.size = m₁.size := by rw [hm₁'.size, hm₁.size, hs.size]
    refine ⟨rfl, fun a ha => ?_⟩
    refine getElem?_withLink_congr (by rw [size_withLink, size_withLink, hsize]) ?_
    exact getElem?_withLink_congr hsize (hsame a ha)

/-! ### What a removal writes -/

/-- The address of the link that leads to `o` among the children of its parent: the first child
    of the parent, or the sibling of one of the objects that the walk visits. -/
inductive JointAt (t : ObjectTable) (m : Memory) (o : UInt16) : Nat → Prop
  | child {p : UInt16} (hp : t.link m .parent o = .ok p) (hfirst : t.link m .child p = .ok o) :
      JointAt t m o (t.address .child p)
  | sibling {p first q : UInt16} (hp : t.link m .parent o = .ok p)
      (hfirst : t.link m .child p = .ok first) (htrail : t.Trail m first (t.visited m o))
      (hq : q ∈ t.visited m o) (hfound : t.link m .sibling q = .ok o) :
      JointAt t m o (t.address .sibling q)

/-- A memory differs from another at most in some bytes, and in one more byte if that leads to
    `o` among the children of its parent. -/
def Differs (t : ObjectTable) (m : Memory) (o : UInt16) (own : List Nat) (m' : Memory) : Prop :=
  ∃ joint : Option Nat, (∀ a ∈ joint, t.JointAt m o a) ∧
    ∀ a : Nat, m'.bytes[a]? ≠ m.bytes[a]? → a ∈ own ∨ a ∈ joint

theorem Differs.refl (m : Memory) (o : UInt16) (own : List Nat) : t.Differs m o own m := by
  refine ⟨none, ?_, fun a ha => absurd rfl ha⟩
  intro a ha
  cases ha

/-- Setting one of the object's own links keeps all others. -/
theorem Differs.withLink {own : List Nat} (h : t.Differs m o own m₁)
    (hown : t.address l q ∈ own) : t.Differs m o own (t.withLink m₁ l q x) := by
  obtain ⟨joint, hjoint, hown'⟩ := h
  refine ⟨joint, hjoint, fun a ha => ?_⟩
  by_cases haddress : a = t.address l q
  · exact .inl (haddress ▸ hown)
  · rw [getElem?_withLink haddress] at ha
    exact hown' a ha

/-- Taking an object out of a list changes a link to it only. -/
theorem Spliced.differs (h : t.Fits m) (hp : t.link m .parent o = .ok p)
    (hm₁ : t.Spliced m o p m₁) (own : List Nat) : t.Differs m o own m₁ := by
  -- the one link that is set
  have hone {l : Link} {q x : UInt16} (hjoint : t.JointAt m o (t.address l q)) :
      t.Differs m o own (t.withLink m l q x) := by
    refine ⟨some (t.address l q), fun a ha => Option.mem_some.mp ha ▸ hjoint, fun a ha => ?_⟩
    refine .inr (Option.mem_some.mpr ?_)
    by_contra hne
    exact ha (getElem?_withLink (Ne.symm hne))
  cases hm₁ with
  | first hfirst hnext => exact hone (.child hp hfirst)
  | later hfirst hne hwalk hnext =>
      obtain ⟨hq, hfound⟩ := of_walk_behind h hwalk
      have hvisited := visited_eq hp hfirst hne
      refine hone (.sibling hp hfirst ?_ ?_ hfound)
      · rw [hvisited]
        exact trail_walk h _ _
      · rw [hvisited, hwalk]
        exact hq
  | missing hfirst hne hwalk => exact .refl m o own

/-- Removing an object changes its own links, and a link to it. -/
theorem differs_remove (h : t.Fits m) {own : List Nat} (hparent : t.address .parent o ∈ own)
    (hsibling : t.address .sibling o ∈ own) : t.Differs m o own (t.remove o m).2 := by
  rcases remove_cases h o with ⟨x, hx⟩ | hp | ⟨p, m₁, hne, hp, hm₁⟩
  · rw [remove_of_strays h hx]
    exact .refl m o own
  · rw [remove_of_root hp]
    exact .refl m o own
  · rw [remove_of_spliced h hp hne hm₁]
    exact ((hm₁.differs h hp own).withLink hparent).withLink hsibling

/-- An object that was removed from below another has neither parent nor sibling. -/
theorem link_cleared (h : t.Fits m₁) (ho : t.IsObject o) :
    t.link (t.cleared m₁ o) .parent o = .ok 0 ∧ t.link (t.cleared m₁ o) .sibling o = .ok 0 := by
  constructor
  · rw [cleared, link_withLink_ne ho (.inl (by decide))]
    exact h.link_withLink ho (Nat.zero_le _)
  · exact (h.of_size size_withLink).link_withLink ho (Nat.zero_le _)

theorem size_of_remove {r : Except Fault Unit} (h : t.remove o m = (r, m₁)) : m₁.size = m.size :=
  (t.relinks_conduct.remove o).keeps h

/-! ## Insertions -/

/-- The numbers at which an insertion of `o` below `d` finds out that there is no such object.
    That of `d` comes first. -/
def StraysInto (t : ObjectTable) (m : Memory) (o d x : UInt16) : Prop :=
  ¬ t.IsObject d ∧ x = d ∨ t.IsObject d ∧ t.Strays m o x

/-- A memory in which `o` has become the child of `d` and has a sibling. -/
def attached (t : ObjectTable) (m : Memory) (o d first : UInt16) : Memory :=
  t.withLink (t.withLink (t.withLink m .sibling o first) .parent o d) .child d o

/-- A move that would read the links of what is not an object fails and changes nothing. -/
theorem insert_of_strays (h : t.Fits m) (hx : t.StraysInto m o d x) :
    t.insert o d m = (.error (.invalidObject x), m) := by
  rcases hx with ⟨hd, rfl⟩ | ⟨hd, hx⟩
  · -- the destination is looked at before anything is changed
    have hentry : t.entry x = .error (.invalidObject x) := if_neg hd
    rw [insert, hentry]
    rfl
  · -- otherwise it is the removal that strays, which changes nothing
    rw [insert, entry_of_isObject hd, Action.bind_of_ok (Action.ofExcept_apply _ m)]
    exact Action.bind_of_error (remove_of_strays h hx)

/-- An insertion that has removed the object goes on without a failure. -/
theorem insert_of_removed (h : t.Fits m) (ht : t.count ≤ maxObjects) (ho : t.IsObject o)
    (hd : t.IsObject d) (hremove : t.remove o m = (.ok (), m₁))
    (hfirst : t.link m₁ .child d = .ok first) :
    t.insert o d m = (.ok (), t.attached m₁ o d first) := by
  have hfits : t.Fits m₁ := h.of_size (size_of_remove hremove)
  rw [insert, entry_of_isObject hd, Action.bind_of_ok (Action.ofExcept_apply _ m),
    Action.bind_of_ok hremove, bind_ask hfirst,
    Action.bind_of_ok (hfits.setLink_eq ho (le_maxObjects_of_link hfirst)),
    Action.bind_of_ok ((hfits.of_size size_withLink).setLink_eq ho (Nat.le_trans hd.2 ht))]
  refine Fits.setLink_eq (hfits.of_size ?_) hd (Nat.le_trans ho.2 ht)
  rw [size_withLink, size_withLink]

/-- An insertion takes one of two ways. -/
theorem insert_cases (h : t.Fits m) (o d : UInt16) :
    (∃ x, t.StraysInto m o d x) ∨ ∃ m₁ first, t.IsObject o ∧ t.IsObject d ∧
      t.remove o m = (.ok (), m₁) ∧ t.link m₁ .child d = .ok first := by
  by_cases hd : t.IsObject d
  · have hremoved {m₁ : Memory} {p : UInt16} (hp : t.link m .parent o = .ok p)
        (hremove : t.remove o m = (.ok (), m₁)) : ∃ m₁ first, t.IsObject o ∧ t.IsObject d ∧
          t.remove o m = (.ok (), m₁) ∧ t.link m₁ .child d = .ok first := by
      have hfits : t.Fits m₁ := h.of_size (size_of_remove hremove)
      obtain ⟨first, hfirst, -⟩ := hfits.exists_link hd .child
      exact ⟨m₁, first, isObject_of_link hp, hd, hremove, hfirst⟩
    rcases remove_cases h o with ⟨x, hx⟩ | hp | ⟨p, m₁, hne, hp, hm₁⟩
    · exact .inl ⟨x, .inr ⟨hd, hx⟩⟩
    · exact .inr (hremoved hp (remove_of_root hp))
    · exact .inr (hremoved hp (remove_of_spliced h hp hne hm₁))
  · exact .inl ⟨d, .inl ⟨hd, rfl⟩⟩

/-- A move fails in no other case. -/
theorem insert_eq_error_iff (h : t.Fits m) (ht : t.count ≤ maxObjects) {e : Fault} :
    (t.insert o d m).1 = .error e ↔ ∃ x, e = .invalidObject x ∧ t.StraysInto m o d x := by
  constructor
  · intro he
    rcases insert_cases h o d with ⟨x, hx⟩ | ⟨m₁, first, ho, hd, hremove, hfirst⟩
    · rw [insert_of_strays h hx] at he
      exact ⟨x, (Except.error.inj he).symm, hx⟩
    · rw [insert_of_removed h ht ho hd hremove hfirst] at he
      cases he
  · rintro ⟨x, rfl, hx⟩
    rw [insert_of_strays h hx]

/-- A move changes the object's own links, a link to it, and the first child of its new parent. -/
theorem differs_insert (h : t.Fits m) (ht : t.count ≤ maxObjects) {own : List Nat}
    (hparent : t.address .parent o ∈ own) (hsibling : t.address .sibling o ∈ own)
    (hchild : t.address .child d ∈ own) : t.Differs m o own (t.insert o d m).2 := by
  rcases insert_cases h o d with ⟨x, hx⟩ | ⟨m₁, first, ho, hd, hremove, hfirst⟩
  · rw [insert_of_strays h hx]
    exact .refl m o own
  · have hm₁ := differs_remove h hparent hsibling
    rw [hremove] at hm₁
    rw [insert_of_removed h ht ho hd hremove hfirst]
    exact ((hm₁.withLink hsibling).withLink hparent).withLink hchild

/-- After a move, the object and its new parent are linked. -/
theorem link_attached (h : t.Fits m₁) (ht : t.count ≤ maxObjects) (ho : t.IsObject o)
    (hd : t.IsObject d) : t.link (t.attached m₁ o d first) .parent o = .ok d ∧
      t.link (t.attached m₁ o d first) .child d = .ok o := by
  have hfits : t.Fits (t.withLink m₁ .sibling o first) := h.of_size size_withLink
  constructor
  · rw [attached, link_withLink_ne hd (.inl (by decide))]
    exact hfits.link_withLink ho (Nat.le_trans hd.2 ht)
  · exact (hfits.of_size size_withLink).link_withLink hd (Nat.le_trans ho.2 ht)

/-- A link is its byte. -/
theorem getElem?_of_link (h : t.link m l o = .ok x) (h₂ : t.link m₂ l o = .ok x) :
    m₂.bytes[t.address l o]? = m.bytes[t.address l o]? := by
  obtain ⟨-, b, hb, hbx⟩ := link_eq_ok_iff.mp h
  obtain ⟨-, c, hc, hcx⟩ := link_eq_ok_iff.mp h₂
  have hbc : c = b := by
    apply UInt8.toNat.inj
    rw [← UInt8.toNat_toUInt16, ← UInt8.toNat_toUInt16, hcx, hbx]
  rw [Memory.byteAt_eq_ok.mp hb, Memory.byteAt_eq_ok.mp hc, hbc]

/-- A link is kept where its byte is. -/
theorem link_of_getElem? (h : t.link m l o = .ok x)
    (hbyte : m₂.bytes[t.address l o]? = m.bytes[t.address l o]?) : t.link m₂ l o = .ok x := by
  obtain ⟨ho, b, hb, hbx⟩ := link_eq_ok_iff.mp h
  refine link_eq_ok_iff.mpr ⟨ho, b, ?_, hbx⟩
  rw [Memory.byteAt_eq_ok, hbyte]
  exact Memory.byteAt_eq_ok.mp hb

/-- Besides what a removal looks at, an insertion looks at the first child of its destination. -/
theorem SameTo.insert (hs : t.SameTo m m₂ o) (h : t.Fits m) (ht : t.count ≤ maxObjects)
    (hchild : t.link m₂ .child d = t.link m .child d) : EndAlike (t.insert o d) m m₂ := by
  have h₂ : t.Fits m₂ := h.of_size hs.size
  rcases insert_cases h o d with ⟨x, hx⟩ | ⟨m₁, first, ho, hd, hremove, hfirst⟩
  · have hx₂ : t.StraysInto m₂ o d x := hx.imp_right (And.imp_right (hs.strays h))
    rw [EndAlike, insert_of_strays h hx, insert_of_strays h₂ hx₂]
    exact ⟨rfl, fun a ha => ha⟩
  · obtain ⟨hresult, hsame⟩ := hs.remove h
    cases hremove₂ : t.remove o m₂ with
    | mk r m₁' =>
        rw [hremove, hremove₂] at hresult hsame
        obtain rfl : r = .ok () := hresult
        -- the first child of the destination is the same after the removal, as it was before
        obtain ⟨old, hold, -⟩ := h.exists_link hd .child
        have hbyte := hsame _ (getElem?_of_link hold (hchild.trans hold))
        have hfirst₂ : t.link m₁' .child d = .ok first := link_of_getElem? hfirst hbyte
        have hsize : m₁'.size = m₁.size := by
          rw [size_of_remove hremove₂, hs.size, size_of_remove hremove]
        rw [EndAlike, insert_of_removed h ht ho hd hremove hfirst,
          insert_of_removed h₂ ht ho hd hremove₂ hfirst₂]
        refine ⟨rfl, fun a ha => ?_⟩
        have hsibling := getElem?_withLink_congr (t := t) (l := .sibling) (o := o) (x := first)
          hsize (hsame a ha)
        have hparent := getElem?_withLink_congr (t := t) (l := .parent) (o := o) (x := d)
          (by rw [size_withLink, size_withLink, hsize]) hsibling
        exact getElem?_withLink_congr (by rw [size_withLink, size_withLink, size_withLink,
          size_withLink, hsize]) hparent

/-! ## All memories -/

/-- An operation that fails only at numbers that are no objects, and then has changed nothing;
    otherwise it has changed at most some bytes of its own and one that leads to `o` among the
    children of its parent. -/
structure Atomic (t : ObjectTable) (m : Memory) (o : UInt16) (strays : UInt16 → Prop)
    (own : List Nat) (x : Action Memory Unit) : Prop where
  fails_iff : ∀ e, (x m).1 = .error e ↔ ∃ n, e = .invalidObject n ∧ strays n
  unchanged : ∀ e, (x m).1 = .error e → (x m).2 = m
  size : (x m).2.size = m.size
  differs : t.Differs m o own (x m).2

/-- Removing an object is done as a whole or not at all. -/
theorem atomic_remove (h : t.Fits m) (o : UInt16) :
    t.Atomic m o (t.Strays m o) [t.address .parent o, t.address .sibling o] (t.remove o) where
  fails_iff e := remove_eq_error_iff h
  unchanged e he := by
    obtain ⟨x, -, hx⟩ := (remove_eq_error_iff h).mp he
    rw [remove_of_strays h hx]
  size := (t.relinks_conduct.remove o m).1
  differs := differs_remove h (by simp) (by simp)

/-- So is moving it. -/
theorem atomic_insert (h : t.Fits m) (ht : t.count ≤ maxObjects) (o d : UInt16) :
    t.Atomic m o (t.StraysInto m o d)
      [t.address .parent o, t.address .sibling o, t.address .child d] (t.insert o d) where
  fails_iff e := insert_eq_error_iff h ht
  unchanged e he := by
    obtain ⟨x, -, hx⟩ := (insert_eq_error_iff h ht).mp he
    rw [insert_of_strays h hx]
  size := (t.relinks_conduct.insert o d m).1
  differs := differs_insert h ht (by simp) (by simp) (by simp)

/-- In every memory of the size in which a table was found, whatever its links: a removal or an
    insertion visits at most one object more than there are, and nothing else matters to it; it
    fails only at a number that is no object, and then nothing has changed; and otherwise it has
    changed at most the parent and the sibling of the object, one link that led to it among the
    children of its parent, and for an insertion the child of the destination. After a removal
    from below another object, the object has neither parent nor sibling, and after an insertion
    it is the first child of its destination. -/
theorem relinking_atomic {image : Memory} {header : Header} (ht : ofMemory image header = .ok t)
    (hsize : m.size = image.size) (o d : UInt16) :
    ((t.visited m o).length ≤ t.count + 1 ∧ ∀ m₂, t.SameTo m m₂ o →
      EndAlike (t.remove o) m m₂ ∧
      (t.link m₂ .child d = t.link m .child d → EndAlike (t.insert o d) m m₂)) ∧
    (t.Atomic m o (t.Strays m o) [t.address .parent o, t.address .sibling o] (t.remove o) ∧
      ∀ m', t.remove o m = (.ok (), m') →
        (t.link m .parent o = .ok 0 → m' = m) ∧
        (t.link m .parent o ≠ .ok 0 →
          t.link m' .parent o = .ok 0 ∧ t.link m' .sibling o = .ok 0)) ∧
    (t.Atomic m o (t.StraysInto m o d)
        [t.address .parent o, t.address .sibling o, t.address .child d] (t.insert o d) ∧
      ∀ m', t.insert o d m = (.ok (), m') →
        t.link m' .parent o = .ok d ∧ t.link m' .child d = .ok o) := by
  have hcount := count_le_of_ofMemory ht
  have h : t.Fits m := fits_of_ofMemory ht hsize
  refine ⟨⟨t.length_visited m o, fun m₂ hs => ⟨hs.remove h, hs.insert h hcount⟩⟩,
    ⟨atomic_remove h o, ?_⟩, ⟨atomic_insert h hcount o d, ?_⟩⟩
  · intro m' hm'
    -- The three ways a removal can take, two of which succeed.
    rcases remove_cases h o with ⟨x, hx⟩ | hp | ⟨p, m₁, hne, hp, hm₁⟩
    · cases (remove_of_strays h hx).symm.trans hm'
    · cases (remove_of_root hp).symm.trans hm'
      exact ⟨fun _ => rfl, fun hroot => absurd hp hroot⟩
    · cases (remove_of_spliced h hp hne hm₁).symm.trans hm'
      refine ⟨fun hroot => absurd (Except.ok.inj (hp.symm.trans hroot)) hne, fun _ => ?_⟩
      exact link_cleared (h.of_size hm₁.size) (isObject_of_link hp)
  · intro m' hm'
    rcases insert_cases h o d with ⟨x, hx⟩ | ⟨m₁, first, ho, hd, hremove, hfirst⟩
    · cases (insert_of_strays h hx).symm.trans hm'
    · cases (insert_of_removed h hcount ho hd hremove hfirst).symm.trans hm'
      exact link_attached (h.of_size (size_of_remove hremove)) hcount ho hd

/-- The links of the family in disorder: objects 2 and 3 follow each other in a circle, object 4
    is not among the children of its parent, and object 1 is below one that does not exist. -/
def tangle : Memory :=
  ⟨(List.replicate 62 (0 : UInt8) ++ [0, 0, 0, 0, 7, 0, 2, 0, 98] ++ [0, 0, 0, 0, 1, 3, 0, 0, 98]
    ++ [0, 0, 0, 0, 1, 2, 0, 0, 98] ++ [0, 0, 0, 0, 1, 0, 0, 0, 98]).toArray⟩

/-- The walk in search of object 4 goes round until it has visited five objects; then object 4 is
    detached all the same. Object 1 cannot be inserted below it, and memory stays as it is. -/
theorem relinking_tangle :
    ofMemory family default = .ok familyTable ∧ tangle.size = family.size ∧
    familyTable.visited tangle 4 = [2, 3, 2, 3, 2] ∧
    (∃ m', familyTable.remove 4 tangle = (.ok (), m') ∧ familyTable.link m' .parent 4 = .ok 0) ∧
    familyTable.insert 1 4 tangle = (.error (.invalidObject 7), tangle) := by
  have htable : ofMemory family default = .ok familyTable := by rfl
  have hsize : tangle.size = family.size := by rfl
  obtain ⟨-, ⟨-, hremoved⟩, -⟩ := relinking_atomic htable hsize 4 4
  obtain ⟨-, -, ⟨hinsert, -⟩⟩ := relinking_atomic htable hsize 1 4
  refine ⟨htable, hsize, by decide, ?_, ?_⟩
  · obtain ⟨m', hm'⟩ : ∃ m', familyTable.remove 4 tangle = (.ok (), m') := ⟨_, rfl⟩
    exact ⟨m', hm', ((hremoved m' hm').2 (by decide)).1⟩
  · have hstray : familyTable.StraysInto tangle 1 4 7 :=
      .inr ⟨by decide, .parent rfl (by decide) (by decide)⟩
    have hfails := (hinsert.fails_iff _).mpr ⟨7, rfl, hstray⟩
    exact Prod.ext hfails (hinsert.unchanged _ hfails)

end ZMachine.ObjectTable
