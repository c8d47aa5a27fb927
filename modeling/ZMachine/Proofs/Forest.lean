import Mathlib.Data.List.Nodup
import Mathlib.Data.List.Perm.Subperm
import Mathlib.Logic.Relation
import ZMachine.Proofs.Memory

/-! # The object tree

    Each object has a parent, a next sibling and a first child, three bytes
    that have to fit together: following siblings from a first child must lead
    through exactly the objects with that parent, and no object may be above
    itself. `Forest` says this of a memory. Removing and inserting objects keep
    it, and on the lists of children they do what their names say.

    * `link_withLink_self`, `link_withLink_ne`: a link that is set is the only
      one to change;
    * `bypass_eq`: the walk along siblings finds the object before the one to be
      taken out, and the bound on its length does not cut it short;
    * `Forest.remove_eq`, `Forest.insert_eq`: what the two operations do to a
      forest;
    * `edited_forest`: the same after any sequence of them. -/

namespace ZMachine

theorem Memory.byteAt_setByte_ne (m : Memory) {a x : Nat} (v : UInt8) (h : a ≠ x) :
    (m.setByte a v).byteAt x = m.byteAt x := by
  simp only [byteAt, setByte, outside, size, Array.size_setIfInBounds]
  split
  · next hx => rw [Array.getElem_setIfInBounds_ne hx h]
  · rfl

namespace ObjectTable

variable {t : ObjectTable} {m m' : Memory} {l k : Link} {o p x y : UInt16}

/-! ## Links -/

/-- A number that names an object. -/
def IsObject (t : ObjectTable) (o : UInt16) : Prop := 1 ≤ o.toNat ∧ o.toNat ≤ t.count

instance (t : ObjectTable) (o : UInt16) : Decidable (t.IsObject o) :=
  inferInstanceAs (Decidable (_ ∧ _))

/-- The address of a link of an object. -/
def address (t : ObjectTable) (l : Link) (o : UInt16) : Nat :=
  firstEntry t.defaults + entrySize * (o.toNat - 1) + l.offset

/-- The entries lie one behind another. -/
theorem entry_of_isObject (ho : t.IsObject o) :
    t.entry o = .ok (firstEntry t.defaults + entrySize * (o.toNat - 1)) :=
  (t.entry_eq o).trans (if_pos ho)

/-- There is no entry of what is not an object. -/
theorem entry_of_not_isObject (ho : ¬ t.IsObject o) : t.entry o = .error (.invalidObject o) :=
  if_neg ho

/-- A link is one byte of the entry. -/
theorem link_of_isObject (ho : t.IsObject o) :
    t.link m l o = UInt8.toUInt16 <$> m.byteAt (t.address l o) := by
  rw [link, entry_of_isObject ho]
  show (m.byteAt (t.address l o) >>= fun b => pure b.toUInt16) = _
  rw [bind_pure_comp]

/-- A link can be read of objects whose entry has it in memory. -/
theorem link_eq_ok_iff : t.link m l o = .ok x ↔
    t.IsObject o ∧ ∃ b, m.byteAt (t.address l o) = .ok b ∧ b.toUInt16 = x := by
  by_cases ho : t.IsObject o
  · rw [link_of_isObject ho, ← bind_pure_comp, FailsOnly.bind_eq_ok]
    constructor
    · rintro ⟨b, hb, hx⟩
      exact ⟨ho, b, hb, Except.ok.inj hx⟩
    · rintro ⟨-, b, hb, rfl⟩
      exact ⟨b, hb, rfl⟩
  · rw [link, entry_of_not_isObject ho]
    constructor
    · intro h
      cases h
    · rintro ⟨h, -⟩
      exact absurd h ho

theorem isObject_of_link (h : t.link m l o = .ok x) : t.IsObject o :=
  (link_eq_ok_iff.mp h).1

theorem ne_zero_of_isObject (ho : t.IsObject o) : o ≠ 0 := by
  rintro rfl
  exact absurd ho.1 (by decide)

theorem ne_zero_of_link (h : t.link m l o = .ok x) : o ≠ 0 :=
  ne_zero_of_isObject (isObject_of_link h)

/-- An action that first asks for a link goes on with the object that it names. -/
theorem bind_ask {α : Type} {f : UInt16 → Action Memory α} (h : t.link m l o = .ok x) :
    (Action.ask (t.link · l o) >>= f) m = f x m :=
  Action.bind_of_ok (by rw [Action.ask_apply, h])

/-- Links of objects do not overlap. -/
theorem address_inj (ho : t.IsObject o) (hp : t.IsObject p)
    (h : t.address l o = t.address k p) : l = k ∧ o = p := by
  have hbounds (l : Link) : 4 ≤ l.offset ∧ l.offset ≤ 6 := by cases l <;> decide
  have hl := hbounds l
  have hk := hbounds k
  have ho := ho.1
  have hp := hp.1
  simp only [address, entrySize] at h
  have hoffset : l.offset = k.offset := by omega
  refine ⟨?_, UInt16.toNat.inj (by omega)⟩
  cases l <;> cases k <;> first | rfl | cases hoffset

/-- A memory in which a link of an object has been set. -/
def withLink (t : ObjectTable) (m : Memory) (l : Link) (o x : UInt16) : Memory :=
  m.setByte (t.address l o) (UInt8.ofNat x.toNat)

/-- A link that was there and is set holds what it was set to. -/
theorem byteAt_withLink_self {y : UInt16} (hread : t.link m l o = .ok y) :
    (t.withLink m l o x).byteAt (t.address l o) = .ok (UInt8.ofNat x.toNat) := by
  obtain ⟨-, b, hb, -⟩ := link_eq_ok_iff.mp hread
  exact Memory.byteAt_eq_ok.mpr
    (Array.getElem?_setIfInBounds_self_of_lt (Memory.lt_size_of_byteAt hb))

/-- Setting a link changes its byte only. -/
theorem getElem?_withLink {a : Nat} (h : a ≠ t.address l o) :
    (t.withLink m l o x).bytes[a]? = m.bytes[a]? :=
  m.getElem?_setByte_ne _ h.symm

/-- A link that has been set is read back. -/
theorem link_withLink_self (hread : t.link m l o = .ok y) (hx : x.toNat ≤ maxObjects) :
    t.link (t.withLink m l o x) l o = .ok x := by
  refine link_eq_ok_iff.mpr ⟨isObject_of_link hread, _, byteAt_withLink_self hread, ?_⟩
  apply UInt16.toNat.inj
  rw [UInt8.toNat_toUInt16, UInt8.toNat_ofNat']
  exact Nat.mod_eq_of_lt (Nat.lt_succ_of_le hx)

/-- No other link changes. -/
theorem link_withLink_ne (ho : t.IsObject o) (h : l ≠ k ∨ o ≠ p) :
    t.link (t.withLink m l o x) k p = t.link m k p := by
  by_cases hp : t.IsObject p
  · have hne : t.address k p ≠ t.address l o := by
      intro heq
      obtain ⟨hk, hpo⟩ := address_inj hp ho heq
      rcases h with h | h
      · exact h hk.symm
      · exact h hpo.symm
    have hbyte : (t.withLink m l o x).byteAt (t.address k p) = m.byteAt (t.address k p) :=
      m.byteAt_setByte_ne _ hne.symm
    rw [link_of_isObject hp, link_of_isObject hp, hbyte]
  · rw [link, link, entry_of_not_isObject hp]
    rfl

/-- Setting a link that is there succeeds. -/
theorem setLink_eq (hread : t.link m l o = .ok y) (hx : x.toNat ≤ maxObjects) :
    t.setLink l o x m = (.ok (), t.withLink m l o x) := by
  obtain ⟨ho, b, hb, -⟩ := link_eq_ok_iff.mp hread
  have hsize : t.address l o < m.size := Memory.lt_size_of_byteAt hb
  rw [setLink, if_neg (Nat.not_lt.mpr hx), entry_of_isObject ho]
  exact if_pos hsize

/-- All links of objects lie in memory and name objects or nothing. -/
def Linked (t : ObjectTable) (m : Memory) : Prop :=
  ∀ l o, t.IsObject o → ∃ x, t.link m l o = .ok x ∧ x.toNat ≤ t.count

/-- Setting a link to an object or to nothing keeps all links within the table. -/
theorem Linked.withLink (h : t.Linked m) (ho : t.IsObject o) (hx : x.toNat ≤ t.count)
    (ht : t.count ≤ maxObjects) : t.Linked (t.withLink m l o x) := by
  intro k p hp
  obtain ⟨y, hy, hle⟩ := h k p hp
  by_cases hne : l ≠ k ∨ o ≠ p
  · exact ⟨y, (link_withLink_ne ho hne).trans hy, hle⟩
  · obtain ⟨rfl, rfl⟩ : l = k ∧ o = p := by
      simpa only [not_or, Decidable.not_not] using hne
    exact ⟨x, link_withLink_self hy (Nat.le_trans hx ht), hx⟩

/-! ## Lists of children -/

/-- The objects that follow one another as siblings from an object on, up to the end. -/
inductive Chain (t : ObjectTable) (m : Memory) : UInt16 → List UInt16 → Prop
  | nil : Chain t m 0 []
  | cons {x y : UInt16} {xs : List UInt16} (hlink : t.link m .sibling x = .ok y)
      (hrest : Chain t m y xs) : Chain t m x (x :: xs)

/-- The children of an object in their order. -/
def Children (t : ObjectTable) (m : Memory) (p : UInt16) (cs : List UInt16) : Prop :=
  ∃ first, t.link m .child p = .ok first ∧ t.Chain m first cs

variable {xs ys pre post cs : List UInt16} {first next : UInt16}

theorem Chain.isObject (h : t.Chain m x xs) (hy : y ∈ xs) : t.IsObject y := by
  induction h with
  | nil => cases hy
  | cons hlink _ ih =>
      rcases List.mem_cons.mp hy with rfl | hy
      · exact isObject_of_link hlink
      · exact ih hy

/-- A chain depends on the sibling links of its members only. -/
theorem Chain.of_agree (h : t.Chain m x xs)
    (hsame : ∀ y ∈ xs, t.link m' .sibling y = t.link m .sibling y) : t.Chain m' x xs := by
  induction h with
  | nil => exact .nil
  | @cons x y xs hlink _ ih =>
      refine .cons ((hsame x List.mem_cons_self).trans hlink) (ih ?_)
      intro z hz
      exact hsame z (List.mem_cons_of_mem x hz)

/-- There is one chain from an object on. -/
theorem Chain.unique (h : t.Chain m x xs) (h' : t.Chain m x ys) : xs = ys := by
  induction h generalizing ys with
  | nil =>
      cases h' with
      | nil => rfl
      | cons hlink _ => exact absurd rfl (ne_zero_of_link hlink)
  | cons hlink _ ih =>
      cases h' with
      | nil => exact absurd rfl (ne_zero_of_link hlink)
      | cons hlink' hrest =>
          cases Except.ok.inj (hlink.symm.trans hlink')
          rw [ih hrest]

theorem Children.isObject (h : t.Children m p cs) : t.IsObject p := by
  obtain ⟨first, hfirst, -⟩ := h
  exact isObject_of_link hfirst

/-- The children depend on the first child and on the siblings of the children. -/
theorem Children.of_agree (h : t.Children m p cs) (hchild : t.link m' .child p = t.link m .child p)
    (hsibling : ∀ x ∈ cs, t.link m' .sibling x = t.link m .sibling x) : t.Children m' p cs := by
  obtain ⟨first, hfirst, hchain⟩ := h
  exact ⟨first, hchild.trans hfirst, hchain.of_agree hsibling⟩

/-- Setting a parent leaves the lists of children as they were. -/
theorem Children.withLink_parent (h : t.Children m p cs) (ho : t.IsObject o) :
    t.Children (t.withLink m .parent o x) p cs := by
  refine h.of_agree (link_withLink_ne ho (.inl (by decide))) ?_
  intro y _
  exact link_withLink_ne ho (.inl (by decide))

/-- Setting a sibling matters to the list that the object is in only. -/
theorem Children.withLink_sibling (h : t.Children m p cs) (ho : t.IsObject o) (hnot : o ∉ cs) :
    t.Children (t.withLink m .sibling o x) p cs := by
  refine h.of_agree (link_withLink_ne ho (.inl (by decide))) ?_
  rintro y hy
  refine link_withLink_ne ho (.inr ?_)
  rintro rfl
  exact hnot hy

/-- Setting a first child matters to the object that it is set of only. -/
theorem Children.withLink_child (h : t.Children m p cs) (ho : t.IsObject o) (hne : o ≠ p) :
    t.Children (t.withLink m .child o x) p cs := by
  refine h.of_agree (link_withLink_ne ho (.inr hne)) ?_
  intro y _
  exact link_withLink_ne ho (.inl (by decide))

/-- An object has one list of children. -/
theorem Children.unique (h : t.Children m p xs) (h' : t.Children m p ys) : xs = ys := by
  obtain ⟨x, hx, hxs⟩ := h
  obtain ⟨y, hy, hys⟩ := h'
  cases Except.ok.inj (hx.symm.trans hy)
  exact hxs.unique hys

/-- Pointing the object before `o` to the one after `o` takes `o` out of a chain. -/
theorem Chain.unlink (h : t.Chain m first (pre ++ p :: o :: post))
    (hnodup : (pre ++ p :: o :: post).Nodup) (hnext : t.link m .sibling o = .ok next)
    (hle : next.toNat ≤ maxObjects) :
    t.Chain (t.withLink m .sibling p next) first (pre ++ p :: post) := by
  -- On the siblings before `p`, whose links stay as they are.
  induction pre generalizing first with
  | nil =>
      cases h with
      | cons hp hrest =>
          cases hrest with
          | cons ho hpost =>
              cases Except.ok.inj (hnext.symm.trans ho)
              refine .cons (link_withLink_self hp hle) (hpost.of_agree ?_)
              intro z hz
              refine link_withLink_ne (isObject_of_link hp) (.inr ?_)
              rintro rfl
              exact (List.nodup_cons.mp hnodup).1 (List.mem_cons_of_mem o hz)
  | cons x pre ih =>
      cases h with
      | cons hx hrest =>
          obtain ⟨hnot, hnodup⟩ := List.nodup_cons.mp hnodup
          have hp : t.IsObject p :=
            hrest.isObject (List.mem_append_right pre List.mem_cons_self)
          refine .cons ((link_withLink_ne hp (.inr ?_)).trans hx) (ih hrest hnodup)
          rintro rfl
          exact hnot (List.mem_append_right pre List.mem_cons_self)

/-- A chain does not start with an object that has one before it. -/
theorem Chain.head_ne (h : t.Chain m first (pre ++ p :: o :: post))
    (hnodup : (pre ++ p :: o :: post).Nodup) : first ≠ o := by
  rintro rfl
  cases pre with
  | nil =>
      cases h
      exact (List.nodup_cons.mp hnodup).1 List.mem_cons_self
  | cons x pre =>
      cases h
      refine (List.nodup_cons.mp hnodup).1 (List.mem_append_right pre ?_)
      exact List.mem_cons_of_mem p List.mem_cons_self

/-- The walk along siblings finds the object right before `o`, if it may take enough steps. -/
theorem bypass_eq (h : t.Chain m first (pre ++ p :: o :: post))
    (hnodup : (pre ++ p :: o :: post).Nodup) (hle : next.toNat ≤ maxObjects) {fuel : Nat}
    (hfuel : pre.length < fuel) :
    t.bypass o next fuel first m = (.ok (), t.withLink m .sibling p next) := by
  -- On the siblings before `p`: none of them is followed by `o`, and each takes up one step.
  induction pre generalizing first fuel with
  | nil =>
      obtain ⟨fuel, rfl⟩ : ∃ n, fuel = n + 1 := ⟨fuel - 1, by omega⟩
      cases h with
      | cons hp hrest =>
          cases hrest with
          | cons ho hpost =>
              rw [bypass, if_neg (ne_zero_of_link hp), bind_ask hp, if_pos rfl]
              exact setLink_eq hp hle
  | cons x pre ih =>
      obtain ⟨fuel, rfl⟩ : ∃ n, fuel = n + 1 := ⟨fuel - 1, by omega⟩
      cases h with
      | cons hx hrest =>
          obtain ⟨-, hnodup⟩ := List.nodup_cons.mp hnodup
          rw [bypass, if_neg (ne_zero_of_link hx), bind_ask hx, if_neg (hrest.head_ne hnodup)]
          exact ih hrest hnodup (Nat.lt_of_succ_lt_succ hfuel)

/-! ## Forests -/

/-- One object is the parent of another. -/
def HasParent (t : ObjectTable) (m : Memory) (o p : UInt16) : Prop :=
  t.IsObject p ∧ t.link m .parent o = .ok p

/-- The links make the objects into a forest: the siblings from the first child of an object
    on are the objects with this parent, each of them once, and no object is above itself. -/
structure Forest (t : ObjectTable) (m : Memory) : Prop where
  linked : t.Linked m
  children : ∀ p, t.IsObject p →
    ∃ cs, t.Children m p cs ∧ cs.Nodup ∧ ∀ o, o ∈ cs ↔ t.link m .parent o = .ok p
  acyclic : ∀ o, ¬ Relation.TransGen (t.HasParent m) o o

/-- No child is listed twice. -/
theorem Forest.nodup (h : t.Forest m) (hcs : t.Children m p cs) : cs.Nodup := by
  obtain ⟨cs', hcs', hnodup, -⟩ := h.children p hcs.isObject
  rw [hcs.unique hcs']
  exact hnodup

/-- The children of an object are those that have it as their parent. -/
theorem Forest.mem_iff (h : t.Forest m) (hcs : t.Children m p cs) :
    o ∈ cs ↔ t.link m .parent o = .ok p := by
  obtain ⟨cs', hcs', -, hmem⟩ := h.children p hcs.isObject
  rw [hcs.unique hcs']
  exact hmem o

/-- An object without parent is in no list of children. -/
theorem Forest.not_mem_of_parent (h : t.Forest m) (ho : t.link m .parent o = .ok 0)
    (hcs : t.Children m p cs) : o ∉ cs := by
  intro hmem
  have hp := (h.mem_iff hcs).mp hmem
  exact ne_zero_of_isObject hcs.isObject (Except.ok.inj (hp.symm.trans ho))

/-- Objects that are all different are not more than there are. -/
theorem length_le_of_nodup (hobject : ∀ o ∈ cs, t.IsObject o) (hnodup : cs.Nodup) :
    cs.length ≤ t.count + 1 := by
  have hnodup : (cs.map UInt16.toNat).Nodup := hnodup.map (fun _ _ => UInt16.toNat.inj)
  have hsub : cs.map UInt16.toNat ⊆ List.range (t.count + 1) := by
    intro n hn
    obtain ⟨o, ho, rfl⟩ := List.mem_map.mp hn
    exact List.mem_range.mpr (Nat.lt_succ_of_le (hobject o ho).2)
  have hlength := (hnodup.subperm hsub).length_le
  rwa [List.length_map, List.length_range] at hlength

/-! ## Taking an object out -/

/-- An object has been taken out of all lists of children. -/
structure Detached (t : ObjectTable) (m : Memory) (o : UInt16) (m' : Memory) : Prop where
  children : ∀ p cs, t.Children m p cs → t.Children m' p (cs.erase o)
  parent : t.link m' .parent o = .ok 0
  others : ∀ x, x ≠ o → t.link m' .parent x = t.link m .parent x

/-- A forest without the edge above an object is a forest. -/
theorem Forest.of_detached (h : t.Forest m) (hlinked : t.Linked m') (hd : t.Detached m o m') :
    t.Forest m' := by
  -- Only `o` has lost its parent.
  have hparent {x p : UInt16} (hp : t.IsObject p) :
      t.link m' .parent x = .ok p ↔ x ≠ o ∧ t.link m .parent x = .ok p := by
    by_cases hx : x = o
    · subst hx
      rw [hd.parent]
      constructor
      · intro h0
        exact absurd (Except.ok.inj h0).symm (ne_zero_of_isObject hp)
      · rintro ⟨hne, -⟩
        exact absurd rfl hne
    · rw [hd.others x hx]
      exact ⟨fun h => ⟨hx, h⟩, fun h => h.2⟩
  refine ⟨hlinked, ?_, ?_⟩
  · intro p hp
    obtain ⟨cs, hcs, hnodup, hmem⟩ := h.children p hp
    refine ⟨cs.erase o, hd.children p cs hcs, hnodup.erase o, ?_⟩
    intro x
    rw [hnodup.mem_erase_iff, hmem, hparent hp]
  · intro x hx
    -- A cycle of the new parents would be one of the old parents.
    refine h.acyclic x (hx.lift id ?_)
    rintro a b ⟨hb, hab⟩
    exact ⟨hb, ((hparent hb).mp hab).2⟩

/-- An object that is in no list of children is already out of them. -/
theorem Forest.detached_self (h : t.Forest m) (ho : t.link m .parent o = .ok 0) :
    t.Detached m o m where
  children p cs hcs := by
    rwa [List.erase_of_not_mem (h.not_mem_of_parent ho hcs)]
  parent := ho
  others _ _ := rfl

/-- The first part of a removal takes the object out of the list that it is in, by setting
    one link: that of the parent or that of the object before it. -/
theorem Forest.unlink_own (h : t.Forest m) (ht : t.count ≤ maxObjects) (hcs : t.Children m p cs)
    (ho : o ∈ cs) (hfirst : t.link m .child p = .ok first)
    (hnext : t.link m .sibling o = .ok next) (hle : next.toNat ≤ t.count) :
    ∃ l q, (if first = o then t.setLink .child p next
        else t.bypass o next (t.count + 1) first) m = (.ok (), t.withLink m l q next) ∧
      t.Children (t.withLink m l q next) p (cs.erase o) ∧
      (l = .child ∧ q = p ∨ l = .sibling ∧ q ∈ cs) := by
  have hnodup := h.nodup hcs
  obtain ⟨first', hfirst', hchain⟩ := hcs
  cases Except.ok.inj (hfirst'.symm.trans hfirst)
  have hle := Nat.le_trans hle ht
  obtain ⟨pre, post, rfl⟩ := List.append_of_mem ho
  have hnot : o ∉ pre := by
    intro hmem
    exact List.disjoint_of_nodup_append hnodup hmem List.mem_cons_self
  rw [List.erase_append_right _ hnot, List.erase_cons_head]
  rcases List.eq_nil_or_concat pre with rfl | ⟨pre, q, rfl⟩
  · -- `o` is the first child, and its parent now names the one after it
    cases hchain with
    | cons hlink hrest =>
        cases Except.ok.inj (hlink.symm.trans hnext)
        refine ⟨.child, p, ?_, ⟨next, link_withLink_self hfirst hle, ?_⟩, .inl ⟨rfl, rfl⟩⟩
        · rw [if_pos rfl]
          exact setLink_eq hfirst hle
        · refine hrest.of_agree ?_
          intro x _
          exact link_withLink_ne (isObject_of_link hfirst) (.inl (by decide))
  · -- `q` comes right before `o`
    simp only [List.concat_append] at hchain hnodup ⊢
    have hlength := length_le_of_nodup (fun x hx => hchain.isObject hx) hnodup
    have hq : q ∈ pre ++ q :: o :: post := List.mem_append_right pre List.mem_cons_self
    refine ⟨.sibling, q, ?_, ⟨first, ?_, ?_⟩, .inr ⟨rfl, ?_⟩⟩
    · rw [if_neg (hchain.head_ne hnodup)]
      refine bypass_eq hchain hnodup hle ?_
      simp only [List.length_append, List.length_cons] at hlength
      omega
    · exact (link_withLink_ne (hchain.isObject hq) (.inl (by decide))).trans hfirst
    · exact hchain.unlink hnodup hnext hle
    · exact hq

/-- The first part of a removal changes no other list. -/
theorem Forest.unlink (h : t.Forest m) (ht : t.count ≤ maxObjects)
    (hparent : t.link m .parent o = .ok p) (hfirst : t.link m .child p = .ok first)
    (hnext : t.link m .sibling o = .ok next) (hle : next.toNat ≤ t.count) :
    ∃ l q, (if first = o then t.setLink .child p next
        else t.bypass o next (t.count + 1) first) m = (.ok (), t.withLink m l q next) ∧
      l ≠ .parent ∧ t.IsObject q ∧
      ∀ p' cs, t.Children m p' cs → t.Children (t.withLink m l q next) p' (cs.erase o) := by
  obtain ⟨own, hown, -, hmem⟩ := h.children p (isObject_of_link hfirst)
  have ho : o ∈ own := (hmem o).mpr hparent
  obtain ⟨l, q, hrun, hown', hlq⟩ := h.unlink_own ht hown ho hfirst hnext hle
  have hq : t.IsObject q := by
    rcases hlq with ⟨-, rfl⟩ | ⟨-, hq⟩
    · exact isObject_of_link hfirst
    · exact isObject_of_link ((hmem q).mp hq)
  refine ⟨l, q, hrun, by rcases hlq with ⟨rfl, -⟩ | ⟨rfl, -⟩ <;> decide, hq, ?_⟩
  intro p' cs hcs
  -- The list of `p` has been dealt with; the others share neither `o` nor `q` with it.
  by_cases hp' : p' = p
  · subst hp'
    rw [hcs.unique hown]
    exact hown'
  · have hapart {x : UInt16} (hx : x ∈ own) : x ∉ cs := by
      intro hx'
      have hxp := (hmem x).mp hx
      have hxp' := (h.mem_iff hcs).mp hx'
      exact hp' (Except.ok.inj (hxp'.symm.trans hxp))
    rw [List.erase_of_not_mem (hapart ho)]
    rcases hlq with ⟨rfl, rfl⟩ | ⟨rfl, hqown⟩
    · exact hcs.withLink_child hq (Ne.symm hp')
    · exact hcs.withLink_sibling hq (hapart hqown)

/-- Whatever stands between the links stays as it is. -/
def SameElsewhere (t : ObjectTable) (m m' : Memory) : Prop :=
  ∀ a, (∀ l x, t.IsObject x → a ≠ t.address l x) → m'.bytes[a]? = m.bytes[a]?

theorem SameElsewhere.refl (m : Memory) : t.SameElsewhere m m := fun _ _ => rfl

/-- Setting a link of an object changes nothing but links. -/
theorem SameElsewhere.withLink (h : t.SameElsewhere m m') (ho : t.IsObject o) :
    t.SameElsewhere m (t.withLink m' l o x) := by
  intro a ha
  exact (getElem?_withLink (ha l o ho)).trans (h a ha)

/-- Removing an object from a forest takes it out of the list that it is in. -/
theorem Forest.remove_eq (h : t.Forest m) (ht : t.count ≤ maxObjects) (ho : t.IsObject o) :
    ∃ m', t.remove o m = (.ok (), m') ∧ t.Linked m' ∧ t.Detached m o m' ∧
      t.SameElsewhere m m' ∧ (t.link m .parent o = .ok 0 → m' = m) ∧
      (t.link m .parent o ≠ .ok 0 → t.link m' .sibling o = .ok 0) := by
  obtain ⟨p, hp, hple⟩ := h.linked .parent o ho
  by_cases hp0 : p = 0
  · subst hp0
    refine ⟨m, ?_, h.linked, h.detached_self hp, .refl m, fun _ => rfl, ?_⟩
    · rw [remove, bind_ask hp, if_pos rfl]
      rfl
    · intro hne
      exact absurd hp hne
  · have hpo : t.IsObject p := ⟨Nat.pos_of_ne_zero fun h => hp0 (UInt16.toNat.inj h), hple⟩
    obtain ⟨next, hnext, hnextle⟩ := h.linked .sibling o ho
    obtain ⟨first, hfirst, -⟩ := h.linked .child p hpo
    obtain ⟨l, q, hrun, hl, hq, hchildren⟩ := h.unlink ht hp hfirst hnext hnextle
    have hlinked₁ : t.Linked (t.withLink m l q next) := h.linked.withLink hq hnextle ht
    obtain ⟨y, hy, -⟩ := hlinked₁ .parent o ho
    have hlinked₂ := hlinked₁.withLink (l := .parent) (x := 0) ho (Nat.zero_le _) ht
    obtain ⟨z, hz, -⟩ := hlinked₂ .sibling o ho
    -- no list goes through `o` any more, so that its links can be cleared
    refine ⟨t.withLink (t.withLink (t.withLink m l q next) .parent o 0) .sibling o 0, ?_,
      hlinked₂.withLink ho (Nat.zero_le _) ht, ⟨?_, ?_, ?_⟩,
      (((SameElsewhere.refl m).withLink hq).withLink ho).withLink ho, ?_, ?_⟩
    · have hclear := (Action.bind_of_ok (f := fun _ => t.setLink .sibling o 0)
        (setLink_eq hy (Nat.zero_le _))).trans (setLink_eq hz (Nat.zero_le _))
      rw [remove, bind_ask hp, if_neg hp0, bind_ask hnext, bind_ask hfirst]
      split at hrun
      · rw [if_pos ‹_›]
        exact (Action.bind_of_ok hrun).trans hclear
      · rw [if_neg ‹_›]
        exact (Action.bind_of_ok hrun).trans hclear
    · intro p' cs hcs
      exact ((hchildren p' cs hcs).withLink_parent ho).withLink_sibling ho
        (h.nodup hcs).not_mem_erase
    · rw [link_withLink_ne ho (.inl (by decide)), link_withLink_self hy (Nat.zero_le _)]
    · intro x hx
      rw [link_withLink_ne ho (.inl (by decide)), link_withLink_ne ho (.inr hx.symm),
        link_withLink_ne hq (.inl hl)]
    · intro hparent
      exact absurd (Except.ok.inj (hp.symm.trans hparent)) hp0
    · intro _
      exact link_withLink_self hz (Nat.zero_le _)

/-! ## Putting an object in -/

/-- An object has been made the first child of another. -/
structure Attached (t : ObjectTable) (m : Memory) (o d : UInt16) (m' : Memory) : Prop where
  destination : ∀ cs, t.Children m d cs → t.Children m' d (o :: cs.erase o)
  children : ∀ p cs, p ≠ d → t.Children m p cs → t.Children m' p (cs.erase o)
  parent : t.link m' .parent o = .ok d
  others : ∀ x, x ≠ o → t.link m' .parent x = t.link m .parent x

/-- One more edge makes no cycle if there is no way back from its end to its start. -/
theorem not_transGen_of_insert {α : Type} {R R' : α → α → Prop} {a b : α}
    (hR' : ∀ x y, R' x y → R x y ∨ x = a ∧ y = b) (hR : ∀ x, ¬ Relation.TransGen R x x)
    (hback : ¬ Relation.ReflTransGen R b a) (x : α) : ¬ Relation.TransGen R' x x := by
  -- A path either uses old pairs only, or it splits at the new one.
  have hsplit {x y : α} (h : Relation.TransGen R' x y) : Relation.TransGen R x y ∨
      Relation.ReflTransGen R x a ∧ Relation.ReflTransGen R b y := by
    induction h with
    | single h =>
        rcases hR' _ _ h with h | ⟨rfl, rfl⟩
        · exact .inl (.single h)
        · exact .inr ⟨.refl, .refl⟩
    | tail _ h ih =>
        rcases hR' _ _ h with h | ⟨rfl, rfl⟩
        · rcases ih with ih | ⟨hxa, hb⟩
          · exact .inl (ih.tail h)
          · exact .inr ⟨hxa, hb.tail h⟩
        · rcases ih with ih | ⟨-, hb⟩
          · exact .inr ⟨ih.to_reflTransGen, .refl⟩
          · exact absurd hb hback
  intro hx
  rcases hsplit hx with hx | ⟨hxa, hbx⟩
  · exact hR x hx
  · exact hback (hbx.trans hxa)

/-- A forest in which an object without parent is put below another is a forest. -/
theorem Forest.of_attached (h : t.Forest m) (hlinked : t.Linked m') (ha : t.Attached m o p m')
    (hp : t.IsObject p) (ho : t.link m .parent o = .ok 0)
    (hbelow : ¬ Relation.ReflTransGen (t.HasParent m) p o) : t.Forest m' := by
  -- Only `o` has a new parent.
  have hparent {x q : UInt16} (hq : t.IsObject q) :
      t.link m' .parent x = .ok q ↔ t.link m .parent x = .ok q ∨ x = o ∧ q = p := by
    by_cases hx : x = o
    · subst hx
      rw [ha.parent, ho, Except.ok.injEq, Except.ok.injEq]
      have hq0 : (0 : UInt16) ≠ q := (ne_zero_of_isObject hq).symm
      simp only [hq0, false_or, true_and, eq_comm]
    · rw [ha.others x hx]
      simp only [hx, false_and, or_false]
  refine ⟨hlinked, ?_, ?_⟩
  · intro q hq
    obtain ⟨cs, hcs, hnodup, hmem⟩ := h.children q hq
    have hnot : o ∉ cs := h.not_mem_of_parent ho hcs
    by_cases hqp : q = p
    · subst hqp
      refine ⟨o :: cs.erase o, ha.destination cs hcs, ?_, ?_⟩
      · exact List.nodup_cons.mpr ⟨hnodup.not_mem_erase, hnodup.erase o⟩
      · intro x
        rw [List.erase_of_not_mem hnot, List.mem_cons, hmem, hparent hq, or_comm]
        simp only [and_true]
    · refine ⟨cs.erase o, ha.children q cs hqp hcs, hnodup.erase o, ?_⟩
      intro x
      rw [List.erase_of_not_mem hnot, hmem, hparent hq]
      simp only [hqp, and_false, or_false]
  · refine not_transGen_of_insert ?_ h.acyclic hbelow
    rintro x q ⟨hq, hxq⟩
    rcases (hparent hq).mp hxq with hxq | ⟨rfl, rfl⟩
    · exact .inl ⟨hq, hxq⟩
    · exact .inr ⟨rfl, rfl⟩

/-- The last part of an insertion puts an object without parent in front of the children of
    another. -/
theorem Forest.attach (h : t.Forest m) (ht : t.count ≤ maxObjects)
    (hparent : t.link m .parent o = .ok 0) (hp : t.IsObject p) :
    ∃ m', (do
        let first ← Action.ask (t.link · .child p)
        t.setLink .sibling o first
        t.setLink .parent o p
        t.setLink .child p o : Action Memory Unit) m = (.ok (), m') ∧ t.Linked m' ∧
      t.Attached m o p m' ∧
      ∀ a, a ≠ t.address .sibling o → a ≠ t.address .parent o → a ≠ t.address .child p →
        m'.bytes[a]? = m.bytes[a]? := by
  have ho : t.IsObject o := isObject_of_link hparent
  obtain ⟨first, hfirst, hfirstle⟩ := h.linked .child p hp
  have hmax {x : UInt16} (hx : x.toNat ≤ t.count) : x.toNat ≤ maxObjects := Nat.le_trans hx ht
  obtain ⟨x, hx, -⟩ := h.linked .sibling o ho
  have hlinked₁ := h.linked.withLink (l := .sibling) ho hfirstle ht
  obtain ⟨y, hy, -⟩ := hlinked₁ .parent o ho
  have hlinked₂ := hlinked₁.withLink (l := .parent) ho hp.2 ht
  obtain ⟨z, hz, -⟩ := hlinked₂ .child p hp
  -- Without a parent, `o` is in no list, so its links can be set freely.
  have hnot {q : UInt16} {cs : List UInt16} (hcs : t.Children m q cs) : o ∉ cs :=
    h.not_mem_of_parent hparent hcs
  refine ⟨t.withLink (t.withLink (t.withLink m .sibling o first) .parent o p) .child p o, ?_,
    hlinked₂.withLink hp ho.2 ht, ⟨?_, ?_, ?_, ?_⟩, ?_⟩
  · rw [bind_ask hfirst, Action.bind_of_ok (setLink_eq hx (hmax hfirstle)),
      Action.bind_of_ok (setLink_eq hy (hmax hp.2))]
    exact setLink_eq hz (hmax ho.2)
  · intro cs hcs
    obtain ⟨first', hfirst', hchain⟩ :=
      (hcs.withLink_sibling (x := first) ho (hnot hcs)).withLink_parent (x := p) ho
    rw [link_withLink_ne ho (.inl (by decide)), link_withLink_ne ho (.inl (by decide))] at hfirst'
    cases Except.ok.inj (hfirst'.symm.trans hfirst)
    rw [List.erase_of_not_mem (hnot hcs)]
    refine ⟨o, link_withLink_self hz (hmax ho.2), .cons ?_ (hchain.of_agree ?_)⟩
    · rw [link_withLink_ne hp (.inl (by decide)), link_withLink_ne ho (.inl (by decide)),
        link_withLink_self hx (hmax hfirstle)]
    · intro w _
      exact link_withLink_ne hp (.inl (by decide))
  · intro q cs hq hcs
    rw [List.erase_of_not_mem (hnot hcs)]
    exact ((hcs.withLink_sibling ho (hnot hcs)).withLink_parent ho).withLink_child hp hq.symm
  · rw [link_withLink_ne hp (.inl (by decide)), link_withLink_self hy (hmax hp.2)]
  · intro z hz
    rw [link_withLink_ne hp (.inl (by decide)), link_withLink_ne ho (.inr hz.symm),
      link_withLink_ne ho (.inl (by decide))]
  · intro a hsibling hparent hchild
    rw [getElem?_withLink hchild, getElem?_withLink hparent, getElem?_withLink hsibling]

/-- Inserting an object removes it and makes it the first child of another. -/
theorem Forest.insert_eq (h : t.Forest m) (ht : t.count ≤ maxObjects) (ho : t.IsObject o)
    (hp : t.IsObject p) (hbelow : ¬ Relation.ReflTransGen (t.HasParent m) p o) :
    ∃ m₁ m', t.remove o m = (.ok (), m₁) ∧ t.insert o p m = (.ok (), m') ∧ t.Forest m' ∧
      t.Attached m o p m' ∧
      ∀ a, a ≠ t.address .sibling o → a ≠ t.address .parent o → a ≠ t.address .child p →
        m'.bytes[a]? = m₁.bytes[a]? := by
  obtain ⟨m₁, hremove, hlinked₁, hdetached, -⟩ := h.remove_eq ht ho
  have h₁ : t.Forest m₁ := h.of_detached hlinked₁ hdetached
  obtain ⟨m', hattach, hlinked', hattached, hbytes⟩ := h₁.attach ht hdetached.parent hp
  -- Removing `o` has taken links away only, so that `p` is not below `o` now either.
  have hbelow₁ : ¬ Relation.ReflTransGen (t.HasParent m₁) p o := by
    intro hpo
    refine hbelow (hpo.lift id ?_)
    rintro x q ⟨hq, hxq⟩
    by_cases hx : x = o
    · subst hx
      exact absurd (Except.ok.inj (hxq.symm.trans hdetached.parent)) (ne_zero_of_isObject hq)
    · exact ⟨hq, (hdetached.others x hx).symm.trans hxq⟩
  refine ⟨m₁, m', hremove, ?_,
    h₁.of_attached hlinked' hattached hp hdetached.parent hbelow₁, ⟨?_, ?_, ?_, ?_⟩, hbytes⟩
  · rw [insert, entry_of_isObject hp]
    exact (Action.bind_of_ok hremove).trans hattach
  · intro cs hcs
    have hcs' := hattached.destination _ (hdetached.children p cs hcs)
    rwa [List.erase_of_not_mem (h.nodup hcs).not_mem_erase] at hcs'
  · intro q cs hq hcs
    have hcs' := hattached.children q _ hq (hdetached.children q cs hcs)
    rwa [List.erase_of_not_mem (h.nodup hcs).not_mem_erase] at hcs'
  · exact hattached.parent
  · intro x hx
    rw [hattached.others x hx, hdetached.others x hx]

/-! ## Sequences of operations -/

/-- A table has at most as many objects as a byte can number. -/
theorem countFrom_le {start room k lowest n : Nat} (h : countFrom m start room k lowest = .ok n) :
    n ≤ k + room := by
  induction room generalizing k lowest with
  | zero => exact Nat.le_of_eq (Except.ok.inj h).symm
  | succ room ih =>
      rw [countFrom] at h
      split at h
      · rw [← Except.ok.inj h]
        exact Nat.le_add_right k (room + 1)
      · obtain ⟨w, -, h⟩ := FailsOnly.bind_eq_ok.mp h
        have hn := ih h
        omega

/-- A table that was read has at most as many objects as a byte can number. -/
theorem count_le_of_ofMemory {image : Memory} {header : Header}
    (h : ofMemory image header = .ok t) : t.count ≤ maxObjects := by
  obtain ⟨n, hn, h⟩ := FailsOnly.bind_eq_ok.mp h
  rw [← Except.ok.inj h]
  exact Nat.le_trans (countFrom_le hn) (Nat.le_of_eq (Nat.zero_add _))

/-- The memories that removals and insertions lead to. An object is not inserted below itself. -/
inductive Edited (t : ObjectTable) (m₀ : Memory) : Memory → Prop
  | start : Edited t m₀ m₀
  | remove {m : Memory} {o : UInt16} (h : Edited t m₀ m) (ho : t.IsObject o) :
      Edited t m₀ (t.remove o m).2
  | insert {m : Memory} {o d : UInt16} (h : Edited t m₀ m) (ho : t.IsObject o)
      (hd : t.IsObject d) (hbelow : ¬ Relation.ReflTransGen (t.HasParent m) d o) :
      Edited t m₀ (t.insert o d m).2

/-- Whatever edits are made, a forest stays one. -/
theorem Edited.forest {m₀ : Memory} (ht : t.count ≤ maxObjects) (h₀ : t.Forest m₀)
    (h : t.Edited m₀ m) : t.Forest m := by
  induction h with
  | start => exact h₀
  | remove _ ho ih =>
      obtain ⟨m', hrun, hlinked, hdetached, -⟩ := ih.remove_eq ht ho
      rw [hrun]
      exact ih.of_detached hlinked hdetached
  | insert _ ho hd hbelow ih =>
      obtain ⟨-, m', -, hrun, hforest, -⟩ := ih.insert_eq ht ho hd hbelow
      rw [hrun]
      exact hforest

/-- After any removals and insertions, none of them below the object itself, the objects are
    a forest, and the next removal or insertion succeeds and leaves a forest. A removal takes
    the object out of the list that it is in and changes nothing else but its own links; an
    insertion is a removal after which the object comes first in the list of its new parent. -/
theorem edited_forest {image m₀ : Memory} {header : Header} (ht : ofMemory image header = .ok t)
    (h₀ : t.Forest m₀) (hm : t.Edited m₀ m) :
    t.Forest m ∧
    (∀ o, t.IsObject o → ∃ m', t.remove o m = (.ok (), m') ∧ t.Forest m' ∧
      t.Detached m o m' ∧
      (∀ p cs, t.link m .parent o ≠ .ok p → t.Children m p cs → t.Children m' p cs) ∧
      t.SameElsewhere m m' ∧ (t.link m .parent o = .ok 0 → m' = m) ∧
      (t.link m .parent o ≠ .ok 0 → t.link m' .sibling o = .ok 0)) ∧
    (∀ o d, t.IsObject o → t.IsObject d → ¬ Relation.ReflTransGen (t.HasParent m) d o →
      ∃ m₁ m', t.remove o m = (.ok (), m₁) ∧ t.insert o d m = (.ok (), m') ∧ t.Forest m' ∧
        t.Attached m o d m' ∧
        ∀ a, a ≠ t.address .sibling o → a ≠ t.address .parent o → a ≠ t.address .child d →
          m'.bytes[a]? = m₁.bytes[a]?) := by
  have hcount := count_le_of_ofMemory ht
  have hforest := hm.forest hcount h₀
  refine ⟨hforest, ?_, ?_⟩
  · intro o ho
    obtain ⟨m', hrun, hlinked, hdetached, hrest⟩ := hforest.remove_eq hcount ho
    refine ⟨m', hrun, hforest.of_detached hlinked hdetached, hdetached, ?_, hrest⟩
    intro p cs hp hcs
    have hnot : o ∉ cs := fun hocs => hp ((hforest.mem_iff hcs).mp hocs)
    have hcs' := hdetached.children p cs hcs
    rwa [List.erase_of_not_mem hnot] at hcs'
  · intro o d ho hd hbelow
    exact hforest.insert_eq hcount ho hd hbelow

/-- Object 1 with the children 2, 3 and 4, in this order. -/
def family : Memory :=
  ⟨(List.replicate 62 (0 : UInt8) ++ [0, 0, 0, 0, 0, 0, 2, 0, 98] ++ [0, 0, 0, 0, 1, 3, 0, 0, 98]
    ++ [0, 0, 0, 0, 1, 4, 0, 0, 98] ++ [0, 0, 0, 0, 1, 0, 0, 0, 98]).toArray⟩

/-- A table of four objects. -/
def familyTable : ObjectTable := ⟨0, 4⟩

/-- The objects of the small table. -/
theorem mem_family (h : familyTable.IsObject o) : o = 1 ∨ o = 2 ∨ o = 3 ∨ o = 4 := by
  obtain ⟨hlow, hhigh⟩ : 1 ≤ o.toNat ∧ o.toNat ≤ 4 := h
  have hcases : o.toNat = 1 ∨ o.toNat = 2 ∨ o.toNat = 3 ∨ o.toNat = 4 := by omega
  rw [← UInt16.toNat_inj, ← UInt16.toNat_inj, ← UInt16.toNat_inj, ← UInt16.toNat_inj]
  exact hcases

/-- The first object is the parent of the other three. -/
theorem hasParent_family (h : familyTable.HasParent family o p) :
    p = 1 ∧ (o = 2 ∨ o = 3 ∨ o = 4) := by
  obtain ⟨hp, hlink⟩ := h
  rcases mem_family (isObject_of_link hlink) with rfl | rfl | rfl | rfl
  · cases hlink
    exact absurd rfl (ne_zero_of_isObject hp)
  · exact ⟨(Except.ok.inj hlink).symm, .inl rfl⟩
  · exact ⟨(Except.ok.inj hlink).symm, .inr (.inl rfl)⟩
  · exact ⟨(Except.ok.inj hlink).symm, .inr (.inr rfl)⟩

/-- The small table is a forest. -/
theorem forest_family : familyTable.Forest family where
  linked l o ho := by
    rcases mem_family ho with rfl | rfl | rfl | rfl <;> cases l <;>
      exact ⟨_, rfl, by decide⟩
  children p hp := by
    by_cases hp1 : p = 1
    · subst hp1
      refine ⟨[2, 3, 4], ⟨2, rfl, .cons rfl (.cons rfl (.cons rfl .nil))⟩, by decide, ?_⟩
      intro o
      simp only [List.mem_cons, List.not_mem_nil, or_false]
      constructor
      · rintro (rfl | rfl | rfl) <;> rfl
      · intro h
        exact (hasParent_family ⟨hp, h⟩).2
    · refine ⟨[], ⟨0, ?_, .nil⟩, List.nodup_nil, ?_⟩
      · rcases mem_family hp with rfl | rfl | rfl | rfl
        · exact absurd rfl hp1
        all_goals rfl
      · intro o
        constructor
        · intro h
          cases h
        · intro h
          exact absurd (hasParent_family ⟨hp, h⟩).1 hp1
  -- All parents are the first object, which has none itself.
  acyclic o ho := by
    obtain ⟨p, hfirst, -⟩ := Relation.TransGen.head'_iff.mp ho
    obtain ⟨q, -, hlast⟩ := Relation.TransGen.tail'_iff.mp ho
    rcases (hasParent_family hfirst).2 with rfl | rfl | rfl <;>
      exact absurd (hasParent_family hlast).1 (by decide)

/-- In the family, object 3 is removed and object 2 is then inserted below object 4. -/
theorem edited_forest_family :
    ofMemory family default = .ok familyTable ∧ familyTable.Forest family ∧
    familyTable.Edited family (familyTable.remove 3 family).2 ∧
    ∃ m', familyTable.insert 2 4 (familyTable.remove 3 family).2 = (.ok (), m') ∧
      familyTable.Forest m' ∧ familyTable.Children m' 1 [4] ∧ familyTable.Children m' 4 [2] := by
  have htable : ofMemory family default = .ok familyTable := by rfl
  have hedited : familyTable.Edited family (familyTable.remove 3 family).2 :=
    .remove .start (by decide)
  -- From object 4 the parents lead to object 1 and end there.
  have hbelow : ¬ Relation.ReflTransGen
      (familyTable.HasParent (familyTable.remove 3 family).2) 4 2 := by
    intro h
    rcases Relation.ReflTransGen.cases_head h with h | ⟨p, ⟨-, hp⟩, h⟩
    · cases h
    · cases hp
      rcases Relation.ReflTransGen.cases_head h with h | ⟨q, ⟨hq, hlink⟩, -⟩
      · cases h
      · cases hlink
        exact ne_zero_of_isObject hq rfl
  obtain ⟨-, m', -, hrun, hforest, hattached, -⟩ :=
    (edited_forest htable forest_family hedited).2.2 2 4 (by decide) (by decide) hbelow
  refine ⟨htable, forest_family, hedited, m', hrun, hforest, ?_, ?_⟩
  · exact hattached.children 1 [2, 4] (by decide) ⟨2, rfl, .cons rfl (.cons rfl .nil)⟩
  · exact hattached.destination [] ⟨0, rfl, .nil⟩

end ObjectTable

end ZMachine
