import ZMachine.Proofs.Forest
import ZMachine.Proofs.Properties
import ZMachine.Proofs.AddressSpace

/-! # Setting properties

    Setting a property writes into the very bytes that all later queries walk
    along. If the property tables lie apart from one another and from the entries
    of the objects, only the value of that property changes: numbers and lengths,
    which decide where everything else is, stay as they are.

    * `PropertyTable.SameShape`: tables that differ in data only;
      `find?_of_sameShape`, `nextProperty_of_sameShape`: queries other than for
      values cannot tell them apart;
    * `Laid`: a memory with the property tables of all objects;
      `Laid.of_overwritten`: it stays one when data is written;
    * `putProperty_updates`: what setting a property does, and when it fails;
    * `lengthAt_not_kept`: the address of data past the first 64K is cut to 16
      bits, and the length at that address may be the one that changes. -/

namespace ZMachine

namespace Memory

variable {m m' : Memory} {a : Nat}

/-- Bytes that take the place of as many others leave what stands around them. -/
theorem Holds.overwrite {front old new back : List UInt8} (h : m.Holds a (front ++ (old ++ back)))
    (hlength : new.length = old.length) (hw : m.Overwritten (a + front.length) new m') :
    m'.Holds a (front ++ (new ++ back)) := by
  rw [holds_append, holds_append] at h ⊢
  obtain ⟨hfront, -, hback⟩ := h
  refine ⟨hfront.of_agree fun x _ hx => hw.unchanged x (.inl hx), hw.holds, ?_⟩
  rw [hlength]
  refine hback.of_agree fun x hx _ => hw.unchanged x (.inr ?_)
  rw [hlength]
  exact hx

end Memory

/-! ## Shapes -/

namespace PropertyEntry

/-- The number and the length of a property. -/
def shape (e : PropertyEntry) : Nat × Nat := (e.number, e.data.length)

theorem size_of_shape {e f : PropertyEntry} (h : f.shape = e.shape) : f.size = e.size := by
  obtain ⟨hnumber, hlength⟩ := Prod.mk.inj h
  rw [size, size, hnumber, hlength]

theorem numberWord_of_shape {e f : PropertyEntry} (h : f.shape = e.shape) :
    f.numberWord = e.numberWord :=
  congrArg UInt16.ofNat (Prod.mk.inj h).1

/-- Data is a byte, a word or longer. -/
theorem data_cases (e : PropertyEntry) :
    (∃ b, e.data = [b]) ∨ (∃ b c, e.data = [b, c]) ∨ 2 < e.data.length := by
  have hpos := e.data_pos
  by_cases hone : e.data.length = 1
  · exact .inl (List.length_eq_one_iff.mp hone)
  by_cases htwo : e.data.length = 2
  · exact .inr (.inl (List.length_eq_two.mp htwo))
  · exact .inr (.inr (by omega))

/-- The property with a value put into its data. Data of more than two bytes holds no value. -/
def withValue (e : PropertyEntry) (v : UInt16) : PropertyEntry :=
  if h : e.data.length = 1 then
    { e with data := [lowByte v], data_pos := by simp, data_le := by simp }
  else if h : e.data.length = 2 then
    { e with data := [highByte v, lowByte v], data_pos := by simp, data_le := by simp }
  else e

variable {e : PropertyEntry} {v : UInt16}

/-- A new value does not change the shape. -/
theorem shape_withValue : (e.withValue v).shape = e.shape := by
  unfold withValue shape
  split
  · next h => rw [h]; rfl
  · split
    · next h => rw [h]; rfl
    · rfl

theorem number_withValue : (e.withValue v).number = e.number := (Prod.mk.inj shape_withValue).1

theorem length_withValue : (e.withValue v).data.length = e.data.length :=
  (Prod.mk.inj shape_withValue).2

/-- An entry of one byte gets the low byte of the value. -/
theorem data_withValue_byte (h : e.data.length = 1) : (e.withValue v).data = [lowByte v] := by
  rw [withValue, dif_pos h]

/-- An entry of two bytes gets the value. -/
theorem data_withValue_word (h : e.data.length = 2) :
    (e.withValue v).data = [highByte v, lowByte v] := by
  rw [withValue, dif_neg (by omega), dif_pos h]

end PropertyEntry

namespace PropertyList

/-- The numbers and lengths of the properties. -/
def shape (ps : PropertyList) : List (Nat × Nat) := ps.entries.map PropertyEntry.shape

variable {es fs before after : List PropertyEntry} {e : PropertyEntry} {a x : Nat}

/-- The first number of a list depends on its shape. -/
theorem lead_of_shape (h : fs.map PropertyEntry.shape = es.map PropertyEntry.shape) :
    lead fs = lead es := by
  cases es with
  | nil =>
      rw [List.map_eq_nil_iff.mp h]
  | cons e es =>
      obtain ⟨f, fs, rfl, hshape, -⟩ := List.map_eq_cons_iff.mp h
      exact PropertyEntry.numberWord_of_shape hshape

theorem length_body_of_shape (h : fs.map PropertyEntry.shape = es.map PropertyEntry.shape) :
    (body fs).length = (body es).length := by
  induction es generalizing fs with
  | nil => rw [List.map_eq_nil_iff.mp h]
  | cons e es ih =>
      obtain ⟨f, fs, rfl, hshape, hrest⟩ := List.map_eq_cons_iff.mp h
      have hlength : f.data.length = e.data.length := (Prod.mk.inj hshape).2
      simp only [body_cons, List.length_cons, List.length_append, hlength, ih hrest]

/-- A list of the same shape has a like property at the same place. -/
theorem split_of_shape
    (h : fs.map PropertyEntry.shape = (before ++ e :: after).map PropertyEntry.shape) :
    ∃ before' f after', fs = before' ++ f :: after' ∧ f.shape = e.shape ∧
      before'.map PropertyEntry.shape = before.map PropertyEntry.shape ∧
      after'.map PropertyEntry.shape = after.map PropertyEntry.shape := by
  rw [List.map_append, List.map_cons] at h
  obtain ⟨before', rest, rfl, hbefore, hrest⟩ := List.map_eq_append_iff.mp h
  obtain ⟨f, after', rfl, hshape, hafter⟩ := List.map_eq_cons_iff.mp hrest
  exact ⟨before', f, after', rfl, hshape, hbefore, hafter⟩

/-- Lists of one shape have entries of one shape in the same places. -/
theorem exists_placed_of_shape (h : fs.map PropertyEntry.shape = es.map PropertyEntry.shape)
    (hx : (x, e) ∈ placed a es) : ∃ f, (x, f) ∈ placed a fs ∧ f.shape = e.shape := by
  obtain ⟨before, after, rfl, rfl⟩ := mem_placed_iff.mp hx
  obtain ⟨before', f, after', rfl, hshape, hbefore, -⟩ := split_of_shape h
  refine ⟨f, mem_placed_iff.mpr ⟨before', after', rfl, ?_⟩, hshape⟩
  rw [length_body_of_shape hbefore]

/-- Which properties are not listed depends on the shape. -/
theorem Lacks.of_shape {ps qs : PropertyList} {p : UInt16} (h : qs.shape = ps.shape)
    (hp : ps.Lacks p) : qs.Lacks p := by
  intro f hf
  have hmem : f.shape ∈ ps.shape := h ▸ List.mem_map_of_mem hf
  obtain ⟨e, he, hshape⟩ := List.mem_map.mp hmem
  rw [← (Prod.mk.inj hshape).1]
  exact hp e he

/-- The list with a value put into the property with a given number. -/
def withValue (ps : PropertyList) (p v : UInt16) : PropertyList where
  entries := ps.entries.map fun e => if e.number = p.toNat then e.withValue v else e
  descending := by
    have hnumber (e : PropertyEntry) :
        (if e.number = p.toNat then e.withValue v else e).number = e.number := by
      split
      · exact PropertyEntry.number_withValue
      · rfl
    rw [List.pairwise_map]
    refine ps.descending.imp ?_
    intro e f hlt
    rw [hnumber, hnumber]
    exact hlt

/-- Setting a value keeps the shape of each entry. -/
theorem map_shape_withValue (es : List PropertyEntry) (p v : UInt16) :
    (es.map fun e => if e.number = p.toNat then e.withValue v else e).map PropertyEntry.shape =
      es.map PropertyEntry.shape := by
  rw [List.map_map]
  refine List.map_congr_left ?_
  intro e _
  show (if e.number = p.toNat then e.withValue v else e).shape = e.shape
  split
  · exact PropertyEntry.shape_withValue
  · rfl

theorem shape_withValue (ps : PropertyList) (p v : UInt16) :
    (ps.withValue p v).shape = ps.shape :=
  map_shape_withValue ps.entries p v

/-- Entries stay where they are when a value is set. -/
theorem mem_placed_withValue {ps : PropertyList} (hx : (x, e) ∈ placed a ps.entries)
    (p v : UInt16) :
    (x, if e.number = p.toNat then e.withValue v else e) ∈ placed a (ps.withValue p v).entries := by
  obtain ⟨before, after, hsplit, rfl⟩ := mem_placed_iff.mp hx
  have hentries : (ps.withValue p v).entries = _ := congrArg (List.map _) hsplit
  rw [List.map_append, List.map_cons] at hentries
  refine mem_placed_iff.mpr ⟨_, _, hentries, ?_⟩
  rw [length_body_of_shape (map_shape_withValue before p v)]

/-- Numbers descend, so that only one property changes. -/
theorem entries_withValue {ps : PropertyList} {p v : UInt16}
    (h : ps.entries = before ++ e :: after) (hp : e.number = p.toNat) :
    (ps.withValue p v).entries = before ++ e.withValue v :: after := by
  have hd := ps.descending
  rw [h, List.pairwise_append, List.pairwise_cons] at hd
  obtain ⟨-, ⟨hafter, -⟩, hbefore⟩ := hd
  have hsame {fs : List PropertyEntry} (hne : ∀ f ∈ fs, f.number ≠ p.toNat) :
      fs.map (fun e => if e.number = p.toNat then e.withValue v else e) = fs := by
    refine (List.map_congr_left ?_).trans (List.map_id fs)
    intro f hf
    rw [if_neg (hne f hf)]
    rfl
  show ps.entries.map _ = _
  rw [h, List.map_append, List.map_cons, if_pos hp, hsame, hsame]
  · intro f hf
    exact hp ▸ Nat.ne_of_lt (hafter f hf)
  · intro f hf
    exact hp ▸ Nat.ne_of_gt (hbefore f hf e List.mem_cons_self)

end PropertyList

namespace PropertyTable

/-- Tables at the same place that differ in the data of properties only. -/
structure SameShape (T U : PropertyTable) : Prop where
  address : U.address = T.address
  nameWords : U.nameWords = T.nameWords
  shape : U.list.shape = T.list.shape

/-- One table ends before the other begins. -/
def Apart (T U : PropertyTable) : Prop := T.stop ≤ U.address ∨ U.stop ≤ T.address

instance (T U : PropertyTable) : Decidable (T.Apart U) := inferInstanceAs (Decidable (_ ∨ _))

theorem Apart.symm {T U : PropertyTable} (h : T.Apart U) : U.Apart T := Or.symm h

/-- The table with a value put into the property with a given number. -/
def withValue (T : PropertyTable) (p v : UInt16) : PropertyTable :=
  { T with list := T.list.withValue p v }

variable {T U V : PropertyTable} {e : PropertyEntry} {x : Nat}

theorem SameShape.refl (T : PropertyTable) : T.SameShape T := ⟨rfl, rfl, rfl⟩

/-- Setting a value keeps the shape of a table. -/
theorem sameShape_withValue (T : PropertyTable) (p v : UInt16) :
    T.SameShape (T.withValue p v) :=
  ⟨rfl, rfl, T.list.shape_withValue p v⟩

theorem SameShape.start (h : T.SameShape U) : U.start = T.start := by
  rw [PropertyTable.start, PropertyTable.start, h.address, h.nameWords]

theorem SameShape.stop (h : T.SameShape U) : U.stop = T.stop := by
  rw [PropertyTable.stop, PropertyTable.stop, h.start, PropertyList.bytes, PropertyList.bytes,
    PropertyList.tail, PropertyList.tail, List.length_append, List.length_append,
    PropertyList.length_body_of_shape h.shape]

/-- They have entries of one shape in the same places. -/
theorem SameShape.exists_placed (h : T.SameShape U) (hx : (x, e) ∈ T.placed) :
    ∃ f, (x, f) ∈ U.placed ∧ f.shape = e.shape := by
  rw [placed, h.start]
  exact PropertyList.exists_placed_of_shape h.shape hx

/-- The name comes before the properties. -/
theorem address_lt_start (T : PropertyTable) : T.address < T.start := by
  rw [PropertyTable.start]
  omega

/-- Data is written within the list, so that nothing changes outside of it. -/
theorem unchanged_of_overwritten {m m' : Memory} {v : UInt16} (hx : (x, e) ∈ T.placed)
    (hw : m.Overwritten x (e.withValue v).data m') {y : Nat} (hy : y < T.start ∨ T.stop ≤ y) :
    m'.bytes[y]? = m.bytes[y]? := by
  obtain ⟨hlow, hhigh⟩ := stop_le_of_mem hx
  refine hw.unchanged y ?_
  rw [PropertyEntry.length_withValue]
  omega

theorem mem_placed_withValue (hx : (x, e) ∈ T.placed) (p v : UInt16) :
    (x, if e.number = p.toNat then e.withValue v else e) ∈ (T.withValue p v).placed :=
  PropertyList.mem_placed_withValue hx p v

/-- A property is listed somewhere, or it is not. -/
theorem listed_or_lacks (T : PropertyTable) (p : UInt16) :
    (∃ x e, (x, e) ∈ T.placed ∧ e.number = p.toNat) ∨ T.list.Lacks p :=
  T.list.listed_or_lacks T.start p

end PropertyTable

namespace ObjectTable

variable {t : ObjectTable} {m m' : Memory} {o p q v : UInt16} {T U : PropertyTable}
  {e : PropertyEntry} {x : Nat}

/-! ## What depends on shapes only -/

section SameShape

variable (h : t.HasTable m o T) (h' : t.HasTable m' o U) (hs : T.SameShape U)

include h h' hs

/-- Where a property is found depends on the shape of the table. -/
theorem find?_of_sameShape (p : UInt16) : t.find? m' o p.toNat = t.find? m o p.toNat := by
  rcases T.listed_or_lacks p with ⟨x, e, hx, hp⟩ | hp
  · obtain ⟨f, hf, hshape⟩ := hs.exists_placed hx
    obtain ⟨hnumber, hlength⟩ := Prod.mk.inj hshape
    rw [h.find?_of_mem hx hp, h'.find?_of_mem hf (hnumber.trans hp), hlength]
  · rw [h.find?_of_lacks hp, h'.find?_of_lacks (hp.of_shape hs.shape)]

theorem propertyAddress_of_sameShape (p : UInt16) :
    t.propertyAddress m' o p = t.propertyAddress m o p := by
  rw [propertyAddress, propertyAddress, find?_of_sameShape h h' hs]

theorem nextProperty_of_sameShape (p : UInt16) :
    t.nextProperty m' o p = t.nextProperty m o p := by
  by_cases hp0 : p = 0
  · rw [hp0, h.nextProperty_zero, h'.nextProperty_zero, PropertyList.lead_of_shape hs.shape]
  rcases T.listed_or_lacks p with ⟨x, e, hx, hp⟩ | hp
  · obtain ⟨before, after, hsplit, -⟩ := PropertyList.mem_placed_iff.mp hx
    have hshape := hs.shape
    rw [PropertyList.shape, PropertyList.shape, hsplit] at hshape
    obtain ⟨before', f, after', hsplit', hf, -, hafter⟩ := PropertyList.split_of_shape hshape
    have hword : p = e.numberWord := UInt16.toNat.inj (hp.symm.trans e.toNat_numberWord.symm)
    have hnext := h'.nextProperty_of_split hsplit'
    rw [PropertyEntry.numberWord_of_shape hf] at hnext
    rw [hword, hnext, h.nextProperty_of_split hsplit, PropertyList.lead_of_shape hafter]
  · rw [h.nextProperty_of_lacks hp hp0, h'.nextProperty_of_lacks (hp.of_shape hs.shape) hp0]

theorem lengthAt_of_sameShape (hx : (x, e) ∈ T.placed) {a : UInt16} (ha : a.toNat = x) :
    lengthAt m' a = lengthAt m a := by
  obtain ⟨f, hf, hshape⟩ := hs.exists_placed hx
  rw [h.lengthAt_of_mem hx ha, h'.lengthAt_of_mem hf ha, (Prod.mk.inj hshape).2]

omit hs in
/-- A property that two tables have in common has the same value in both. -/
theorem property_of_mem_placed (hx : (x, e) ∈ T.placed) (hx' : (x, e) ∈ U.placed)
    (hp : e.number = p.toNat) : t.property m' o p = t.property m o p := by
  rcases e.data_cases with ⟨b, hb⟩ | ⟨b, c, hbc⟩ | hlong
  · rw [h.property_of_byte hx hp hb, h'.property_of_byte hx' hp hb]
  · rw [h.property_of_word hx hp hbc, h'.property_of_word hx' hp hbc]
  · rw [h.property_of_long hx hp hlong, h'.property_of_long hx' hp hlong]

end SameShape

/-! ## Default values and entries -/

/-- The address after the last entry. -/
def stop (t : ObjectTable) : Nat := firstEntry t.defaults + entrySize * t.count

/-- Memories with the same default values and the same entries. -/
structure SameEntries (t : ObjectTable) (m m' : Memory) : Prop where
  size : m'.size = m.size
  bytes : ∀ a, t.defaults ≤ a → a < t.stop → m'.bytes[a]? = m.bytes[a]?

/-- An entry stands between the default values and the end of the table. -/
theorem IsObject.entry_bounds (ho : t.IsObject o) :
    t.defaults + 62 ≤ firstEntry t.defaults + entrySize * (o.toNat - 1) ∧
      firstEntry t.defaults + entrySize * (o.toNat - 1) + 9 ≤ t.stop := by
  obtain ⟨hlow, hhigh⟩ := ho
  simp only [stop, firstEntry, entrySize]
  omega

namespace SameEntries

variable (h : t.SameEntries m m')

include h

/-- The bytes of an entry are kept. -/
theorem byteAt_eq (ho : t.IsObject o) {k : Nat} (hk : k < 9) :
    m'.byteAt (firstEntry t.defaults + entrySize * (o.toNat - 1) + k) =
      m.byteAt (firstEntry t.defaults + entrySize * (o.toNat - 1) + k) := by
  have hbounds := ho.entry_bounds
  exact Memory.byteAt_congr h.size (h.bytes _ (by omega) (by omega))

theorem propertyTable_eq (o : UInt16) : t.propertyTable m' o = t.propertyTable m o := by
  by_cases ho : t.IsObject o
  · have hbounds := ho.entry_bounds
    have hword : m'.wordAt (firstEntry t.defaults + entrySize * (o.toNat - 1) + 7) =
        m.wordAt (firstEntry t.defaults + entrySize * (o.toNat - 1) + 7) := by
      refine Memory.wordAt_congr h.size (h.bytes _ ?_ ?_) (h.bytes _ ?_ ?_) <;> omega
    rw [propertyTable, propertyTable, entry_of_isObject ho]
    show (m'.wordAt _ >>= _) = (m.wordAt _ >>= _)
    rw [hword]
  · rw [propertyTable, propertyTable, entry_of_not_isObject ho]
    rfl

theorem link_eq (l : Link) (o : UInt16) : t.link m' l o = t.link m l o := by
  by_cases ho : t.IsObject o
  · have hoffset : l.offset < 9 := by cases l <;> decide
    rw [link_of_isObject ho, link_of_isObject ho, address, h.byteAt_eq ho hoffset]
  · rw [link, link, entry_of_not_isObject ho]
    rfl

theorem hasAttribute_eq (o n : UInt16) : t.hasAttribute m' o n = t.hasAttribute m o n := by
  rw [ObjectTable.hasAttribute_eq, ObjectTable.hasAttribute_eq]
  split
  · rfl
  · next hn =>
      by_cases ho : t.IsObject o
      · have hbyte : n.toNat / 8 < 9 := by
          have hn : ¬ 32 ≤ n.toNat := hn
          omega
        rw [entry_of_isObject ho]
        show (m'.byteAt _ >>= _) = (m.byteAt _ >>= _)
        rw [h.byteAt_eq ho hbyte]
      · rw [entry_of_not_isObject ho]
        rfl

/-- The default values are kept. -/
theorem default_eq {p : UInt16} (hhigh : p.toNat ≤ 31) (ho : t.IsObject o) :
    m'.wordAt (t.defaults + 2 * (p.toNat - 1)) = m.wordAt (t.defaults + 2 * (p.toNat - 1)) := by
  have hbounds := ho.entry_bounds
  refine Memory.wordAt_congr h.size (h.bytes _ ?_ ?_) (h.bytes _ ?_ ?_) <;> omega

end SameEntries

/-! ## Queries about what is no object -/

section NoObject

variable (ho : ¬ t.IsObject o)

include ho

/-- What is not an object has no properties. -/
theorem firstProperty_of_not_isObject : t.firstProperty m o = .error (.invalidObject o) := by
  rw [firstProperty, propertyTable, entry_of_not_isObject ho]
  rfl

theorem find?_of_not_isObject (n : Nat) : t.find? m o n = .error (.invalidObject o) := by
  rw [find?, firstProperty_of_not_isObject ho]
  rfl

theorem propertyAddress_of_not_isObject (p : UInt16) :
    t.propertyAddress m o p = .error (.invalidObject o) := by
  rw [propertyAddress, find?_of_not_isObject ho]
  rfl

theorem nextProperty_of_not_isObject (p : UInt16) :
    t.nextProperty m o p = .error (.invalidObject o) := by
  rw [nextProperty]
  split
  · rw [firstProperty_of_not_isObject ho]
    rfl
  · rw [find?_of_not_isObject ho]
    rfl

/-- None has a value there, whatever memory holds. -/
theorem property_of_not_isObject (p : UInt16) : t.property m' o p = t.property m o p := by
  rw [property, property, find?_of_not_isObject ho, find?_of_not_isObject ho]
  split
  · rfl
  · rfl

end NoObject

/-! ## Writing data -/

/-- A memory in which each object `o` has the property table `T o`. The tables lie apart from one
    another, from the default values and from the entries. -/
structure Laid (t : ObjectTable) (m : Memory) (T : UInt16 → PropertyTable) : Prop where
  table : ∀ o, t.IsObject o → t.HasTable m o (T o)
  apart : ∀ o o', t.IsObject o → t.IsObject o' → o ≠ o' → (T o).Apart (T o')
  aside : ∀ o, t.IsObject o → (T o).stop ≤ t.defaults ∨ t.stop ≤ (T o).address

/-- The tables with a value put into one property of one object. -/
def withValue (T : UInt16 → PropertyTable) (o p v : UInt16) : UInt16 → PropertyTable :=
  fun o' => if o' = o then (T o).withValue p v else T o'

variable {T : UInt16 → PropertyTable}

theorem sameShape_withValue (T : UInt16 → PropertyTable) (o p v o' : UInt16) :
    (T o').SameShape (withValue T o p v o') := by
  rw [withValue]
  split
  · next h =>
      rw [h]
      exact (T o).sameShape_withValue p v
  · exact .refl _

/-- A table stays where it is if its bytes and the entries of the objects do. -/
theorem HasTable.of_agree {U : PropertyTable} (h : t.HasTable m o U) (hentries : t.SameEntries m m')
    (hm : ∀ y, U.address ≤ y → y < U.stop → m'.bytes[y]? = m.bytes[y]?) : t.HasTable m' o U where
  found := (hentries.propertyTable_eq o).trans h.found
  name := by
    have hlt := U.address_lt_start
    have hle : U.start ≤ U.stop := Nat.le_add_right _ _
    rw [Memory.byteAt_congr hentries.size (hm _ (Nat.le_refl _) (by omega))]
    exact h.name
  list := h.list.of_agree fun y hlow hhigh =>
    hm y (Nat.le_trans (Nat.le_of_lt U.address_lt_start) hlow) hhigh

/-- A table whose property is given a new value is the table with this value. -/
theorem HasTable.overwrite {U : PropertyTable} (h : t.HasTable m o U)
    (hentries : t.SameEntries m m') (hx : (x, e) ∈ U.placed) (hp : e.number = p.toNat)
    (hw : m.Overwritten x (e.withValue v).data m') : t.HasTable m' o (U.withValue p v) := by
  obtain ⟨before, after, hsplit, rfl⟩ := PropertyList.mem_placed_iff.mp hx
  refine ⟨(hentries.propertyTable_eq o).trans h.found, ?_, ?_⟩
  · have hlt := U.address_lt_start
    show m'.byteAt U.address = .ok U.nameWords
    rw [Memory.byteAt_congr hentries.size (hw.unchanged _ (.inl (by omega)))]
    exact h.name
  · have hm := h.list
    show m'.Holds U.start (PropertyList.tail (U.list.withValue p v).entries)
    rw [PropertyList.bytes, hsplit, PropertyList.tail_append, PropertyList.tail_cons,
      List.append_cons] at hm
    rw [PropertyList.entries_withValue hsplit hp, PropertyList.tail_append, PropertyList.tail_cons,
      PropertyEntry.size_of_shape PropertyEntry.shape_withValue, List.append_cons]
    refine hm.overwrite PropertyEntry.length_withValue ?_
    rw [List.length_append, List.length_singleton, ← Nat.add_assoc]
    exact hw

namespace Laid

variable (h : t.Laid m T) (ho : t.IsObject o)

include h ho

/-- Setting a property keeps the entries of all objects. -/
theorem sameEntries (hx : (x, e) ∈ (T o).placed) (hw : m.Overwritten x (e.withValue v).data m') :
    t.SameEntries m m' := by
  refine ⟨hw.size, fun a hlow hhigh => PropertyTable.unchanged_of_overwritten hx hw ?_⟩
  have hlt := (T o).address_lt_start
  have haside := h.aside o ho
  omega

/-- When a property is set, the tables lie in memory with the new value. -/
theorem of_overwritten (hx : (x, e) ∈ (T o).placed) (hp : e.number = p.toNat)
    (hw : m.Overwritten x (e.withValue v).data m') : t.Laid m' (withValue T o p v) := by
  have hshape (o' : UInt16) := sameShape_withValue T o p v o'
  have hentries := h.sameEntries ho hx hw
  refine ⟨?_, ?_, ?_⟩
  · intro o' ho'
    rw [withValue]
    split
    · next heq =>
        rw [heq]
        exact (h.table o ho).overwrite hentries hx hp hw
    · next hne =>
        -- the data lies within the table of `o`, from which this one is apart
        have hapart := h.apart o o' ho ho' (Ne.symm hne)
        refine (h.table o' ho').of_agree hentries ?_
        intro y hlow hhigh
        have hlt := (T o).address_lt_start
        rw [PropertyTable.Apart] at hapart
        exact PropertyTable.unchanged_of_overwritten hx hw (by omega)
  · intro o₁ o₂ h₁ h₂ hne
    rw [PropertyTable.Apart, (hshape o₁).stop, (hshape o₂).stop, (hshape o₁).address,
      (hshape o₂).address]
    exact h.apart o₁ o₂ h₁ h₂ hne
  · intro o' ho'
    rw [(hshape o').stop, (hshape o').address]
    exact h.aside o' ho'

end Laid

/-! ## Setting a property -/

section Put

variable {U : PropertyTable} (h : t.HasTable m o U)

include h

/-- A listed property is found before it is set. -/
theorem ask_find?_of_mem (hx : (x, e) ∈ U.placed) (hp : e.number = p.toNat) :
    Action.ask (t.find? · o p.toNat) m = (.ok (some ⟨x, e.data.length⟩), m) := by
  rw [Action.ask_apply, h.find?_of_mem hx hp]

/-- A property of one or two bytes is set. -/
theorem putProperty_of_short (hx : (x, e) ∈ U.placed) (hp : e.number = p.toNat)
    (hshort : e.data.length ≤ 2) (v : UInt16) :
    ∃ m', t.putProperty o p v m = (.ok (), m') ∧ m.Overwritten x (e.withValue v).data m' := by
  have hsize := h.stop_le_size
  have hstop := (PropertyTable.stop_le_of_mem hx).2
  have hpos := e.data_pos
  rw [putProperty, Action.bind_of_ok (ask_find?_of_mem h hx hp)]
  obtain hone | htwo : e.data.length = 1 ∨ e.data.length = 2 := by omega
  · rw [PropertyEntry.data_withValue_byte hone, hone]
    exact Memory.writeByte_eq (by omega) (lowByte v)
  · rw [PropertyEntry.data_withValue_word htwo, htwo]
    exact Memory.writeWord_eq (by omega) v

/-- A longer property is refused. -/
theorem putProperty_of_long (hx : (x, e) ∈ U.placed) (hp : e.number = p.toNat)
    (hlong : 2 < e.data.length) (v : UInt16) : t.putProperty o p v m =
      (.error (.propertyLength "put_prop" o p e.data.length), m) := by
  rw [putProperty, Action.bind_of_ok (ask_find?_of_mem h hx hp)]
  obtain ⟨n, hn⟩ := Nat.exists_eq_add_of_lt hlong
  rw [hn, Nat.add_comm 2 n]
  rfl

/-- A property that is not listed is refused. -/
theorem putProperty_of_lacks (hp : U.list.Lacks p) (v : UInt16) :
    t.putProperty o p v m = (.error (.missingProperty o p), m) := by
  have hask : Action.ask (t.find? · o p.toNat) m = (.ok none, m) := by
    rw [Action.ask_apply, h.find?_of_lacks hp]
  rw [putProperty, Action.bind_of_ok hask]
  rfl

end Put

/-- The value `v` has been put into property `p` of `o`, which has `n` bytes, and nothing else has
    changed that can be asked about. -/
structure Updated (t : ObjectTable) (m : Memory) (T : UInt16 → PropertyTable) (o p v : UInt16)
    (n : Nat) (m' : Memory) : Prop where
  value : t.property m' o p = .ok (if n = 1 then UInt16.ofNat (v.toNat % 256) else v)
  /-- All property tables are where they were, with the same numbers and lengths. -/
  shapes : ∃ T', t.Laid m' T' ∧ ∀ o', (T o').SameShape (T' o')
  others : ∀ o' p', ¬ (o' = o ∧ p' = p) → t.property m' o' p' = t.property m o' p'
  addresses : ∀ o' p', t.propertyAddress m' o' p' = t.propertyAddress m o' p'
  /-- The length at the address of a property, unless its data starts past the first 64K. -/
  lengths : ∀ o' p' a, t.propertyAddress m o' p' = .ok a →
    (∀ x e, (x, e) ∈ (T o').placed → e.number = p'.toNat → x < 0x10000) →
    lengthAt m' a = lengthAt m a
  successors : ∀ o' p', t.nextProperty m' o' p' = t.nextProperty m o' p'
  attributes : ∀ o' n, t.hasAttribute m' o' n = t.hasAttribute m o' n
  links : ∀ l o', t.link m' l o' = t.link m l o'

/-- What has been put into a property is read from it again, as far as it has room. -/
theorem HasTable.property_withValue {U : PropertyTable} (h : t.HasTable m' o (U.withValue p v))
    (hx : (x, e) ∈ U.placed) (hp : e.number = p.toNat) (hshort : e.data.length ≤ 2) :
    t.property m' o p = .ok (if e.data.length = 1 then UInt16.ofNat (v.toNat % 256) else v) := by
  have hmem := PropertyTable.mem_placed_withValue hx p v
  have hnumber : (e.withValue v).number = p.toNat := PropertyEntry.number_withValue.trans hp
  have hpos := e.data_pos
  rw [if_pos hp] at hmem
  obtain hone | htwo : e.data.length = 1 ∨ e.data.length = 2 := by omega
  · rw [h.property_of_byte hmem hnumber (PropertyEntry.data_withValue_byte hone), if_pos hone]
    refine congrArg Except.ok (UInt16.toNat.inj ?_)
    rw [UInt8.toNat_toUInt16, lowByte, UInt8.toNat_ofNat', UInt16.toNat_ofNat']
    omega
  · rw [h.property_of_word hmem hnumber (PropertyEntry.data_withValue_word htwo),
      word_highByte_lowByte, if_neg (by omega)]

namespace Laid

variable (h : t.Laid m T) (ho : t.IsObject o)

include h ho

/-- Setting a property keeps the values of all others. -/
theorem property_eq (hx : (x, e) ∈ (T o).placed) (hp : e.number = p.toNat)
    (hw : m.Overwritten x (e.withValue v).data m') {o' p' : UInt16} (hne : ¬ (o' = o ∧ p' = p)) :
    t.property m' o' p' = t.property m o' p' := by
  by_cases ho' : t.IsObject o'
  · have htable := h.table o' ho'
    have htable' := (h.of_overwritten ho hx hp hw).table o' ho'
    by_cases hrange : 1 ≤ p'.toNat ∧ p'.toNat ≤ maxProperty
    · rcases (T o').listed_or_lacks p' with ⟨y, f, hy, hf⟩ | hlacks
      · refine property_of_mem_placed htable htable' hy ?_ hf
        rw [withValue]
        split
        · next heq =>
            -- the same object, and so another property of it
            have hother : f.number ≠ p.toNat := by
              rw [hf]
              intro hnumber
              exact hne ⟨heq, UInt16.toNat.inj hnumber⟩
            have hmem := PropertyTable.mem_placed_withValue hy p v
            rw [if_neg hother, heq] at hmem
            exact hmem
        · exact hy
      · -- the value is a default one, and those are not in any table
        have hlacks' := hlacks.of_shape (sameShape_withValue T o p v o').shape
        rw [htable.property_of_lacks hlacks hrange.1 hrange.2,
          htable'.property_of_lacks hlacks' hrange.1 hrange.2]
        exact (h.sameEntries ho hx hw).default_eq hrange.2 ho
    · rw [property, property, if_neg hrange, if_neg hrange]
  · exact property_of_not_isObject ho' p'

/-- Setting a property keeps the lengths of all. -/
theorem lengthAt_eq (hx : (x, e) ∈ (T o).placed) (hp : e.number = p.toNat)
    (hw : m.Overwritten x (e.withValue v).data m') {o' p' a : UInt16}
    (ha : t.propertyAddress m o' p' = .ok a)
    (hlow : ∀ x e, (x, e) ∈ (T o').placed → e.number = p'.toNat → x < 0x10000) :
    lengthAt m' a = lengthAt m a := by
  by_cases ho' : t.IsObject o'
  · have htable := h.table o' ho'
    have htable' := (h.of_overwritten ho hx hp hw).table o' ho'
    rcases (T o').listed_or_lacks p' with ⟨y, f, hy, hf⟩ | hlacks
    · have hlt := hlow y f hy hf
      rw [htable.propertyAddress_of_mem hy hf] at ha
      have hay : a.toNat = y := by
        rw [← Except.ok.inj ha, UInt16.toNat_ofNat']
        exact Nat.mod_eq_of_lt hlt
      -- the address is not cut, and so the size byte of a table is read
      exact lengthAt_of_sameShape htable htable' (sameShape_withValue T o p v o') hy hay
    · rw [htable.propertyAddress_of_lacks hlacks] at ha
      cases ha
      rfl
  · rw [propertyAddress_of_not_isObject ho'] at ha
    cases ha

/-- What setting a property does, as a whole. -/
theorem updated (hx : (x, e) ∈ (T o).placed) (hp : e.number = p.toNat)
    (hshort : e.data.length ≤ 2) (hw : m.Overwritten x (e.withValue v).data m') :
    t.Updated m T o p v e.data.length m' := by
  have hlaid := h.of_overwritten ho hx hp hw
  -- What a query answers is decided by the shape, but for the value.
  have hshape := sameShape_withValue T o p v
  have hentries := h.sameEntries ho hx hw
  have htable' := hlaid.table o ho
  rw [withValue, if_pos rfl] at htable'
  refine ⟨htable'.property_withValue hx hp hshort, ⟨_, hlaid, hshape⟩, ?_, ?_, ?_, ?_, ?_, ?_⟩
  · intro o' p' hne
    exact h.property_eq ho hx hp hw hne
  · intro o' p'
    by_cases ho' : t.IsObject o'
    · exact propertyAddress_of_sameShape (h.table o' ho') (hlaid.table o' ho') (hshape o') p'
    · rw [propertyAddress_of_not_isObject ho', propertyAddress_of_not_isObject ho']
  · intro o' p' a ha hlow
    exact h.lengthAt_eq ho hx hp hw ha hlow
  · intro o' p'
    by_cases ho' : t.IsObject o'
    · exact nextProperty_of_sameShape (h.table o' ho') (hlaid.table o' ho') (hshape o') p'
    · rw [nextProperty_of_not_isObject ho', nextProperty_of_not_isObject ho']
  · exact hentries.hasAttribute_eq
  · exact hentries.link_eq

end Laid

/-- Setting a property of one or two bytes changes its value and nothing else that can be asked
    about, but for the length at an address that has been cut to 16 bits. Setting a longer property
    or one that is not there fails and changes nothing. -/
theorem putProperty_updates (h : t.Laid m T) (ho : t.IsObject o) (p v : UInt16) :
    (∀ x e, (x, e) ∈ (T o).placed → e.number = p.toNat → e.data.length ≤ 2 →
      ∃ m', t.putProperty o p v m = (.ok (), m') ∧ t.Updated m T o p v e.data.length m') ∧
    (∀ x e, (x, e) ∈ (T o).placed → e.number = p.toNat → 2 < e.data.length →
      t.putProperty o p v m = (.error (.propertyLength "put_prop" o p e.data.length), m)) ∧
    ((T o).list.Lacks p → t.putProperty o p v m = (.error (.missingProperty o p), m)) := by
  have htable := h.table o ho
  refine ⟨?_, ?_, ?_⟩
  · intro x e hx hp hshort
    obtain ⟨m', hput, hw⟩ := putProperty_of_short htable hx hp hshort v
    exact ⟨m', hput, h.updated ho hx hp hshort hw⟩
  · intro x e hx hp hlong
    exact putProperty_of_long htable hx hp hlong v
  · intro hp
    exact putProperty_of_lacks htable hp v

/-- A memory with two objects. -/
theorem laid_of_two (ht : t.count = 2) (hfirst : t.HasTable m 1 (T 1))
    (hsecond : t.HasTable m 2 (T 2)) (hapart : (T 1).Apart (T 2))
    (hbehind : t.stop ≤ (T 1).address ∧ t.stop ≤ (T 2).address) : t.Laid m T := by
  -- With two objects, there is one pair of tables to be apart.
  have hobject {o : UInt16} (ho : t.IsObject o) : o = 1 ∨ o = 2 := by
    obtain ⟨hlow, hhigh⟩ := ho
    obtain hone | htwo : o.toNat = 1 ∨ o.toNat = 2 := by omega
    · exact .inl (UInt16.toNat.inj hone)
    · exact .inr (UInt16.toNat.inj htwo)
  refine ⟨?_, ?_, ?_⟩
  · intro o ho
    rcases hobject ho with rfl | rfl
    · exact hfirst
    · exact hsecond
  · intro o o' ho ho' hne
    rcases hobject ho with rfl | rfl <;> rcases hobject ho' with rfl | rfl
    · exact absurd rfl hne
    · exact hapart
    · exact hapart.symm
    · exact absurd rfl hne
  · intro o ho
    rcases hobject ho with rfl | rfl
    · exact .inr hbehind.1
    · exact .inr hbehind.2

/-- The tables of a box and a lamp. -/
def lampTables (o : UInt16) : PropertyTable := if o = 1 then boxTable else lampTable

/-- The tables of the sample memory lie in it, apart from each other. -/
theorem laid_lamp : lampObjects.Laid lampMemory lampTables :=
  laid_of_two rfl ⟨rfl, rfl, by decide +kernel⟩ hasTable_lamp (by decide) (by decide)

/-- What setting properties does in the sample memory. -/
theorem lamp_updates :
    lampObjects.Laid lampMemory lampTables ∧ lampObjects.IsObject 2 ∧
      (∃ m', lampObjects.putProperty 2 6 0x1FF lampMemory = (.ok (), m') ∧
        lampObjects.property m' 2 6 = .ok 0xFF ∧
        lampObjects.property m' 2 18 = lampObjects.property lampMemory 2 18 ∧
        lengthAt m' 86 = lengthAt lampMemory 86) ∧
      lampObjects.putProperty 2 2 7 lampMemory =
        (.error (.propertyLength "put_prop" 2 2 4), lampMemory) ∧
      lampObjects.putProperty 2 3 7 lampMemory = (.error (.missingProperty 2 3), lampMemory) := by
  have ho : lampObjects.IsObject 2 := by decide
  obtain ⟨m', hput, hupdated⟩ := (putProperty_updates laid_lamp ho 6 0x1FF).1 89 _
    (.tail _ (.head _)) rfl (by decide)
  have hvalue : lampObjects.property m' 2 6 = .ok 0xFF := hupdated.value
  have haddress : lampObjects.propertyAddress lampMemory 2 18 = .ok 86 :=
    hasTable_lamp.propertyAddress_of_mem (.head _) rfl
  -- The tables of the sample end well below 2 ^ 16.
  have hlow : ∀ x e, (x, e) ∈ (lampTables 2).placed → e.number = (18 : UInt16).toNat →
      x < 0x10000 := by
    intro x e hx _
    have hstop := (PropertyTable.stop_le_of_mem hx).2
    have hlamp : (lampTables 2).stop ≤ 0x10000 := by decide
    omega
  refine ⟨laid_lamp, ho, ⟨m', hput, hvalue, hupdated.others 2 18 (by decide),
    hupdated.lengths 2 18 86 haddress hlow⟩, ?_, ?_⟩
  · exact (putProperty_updates laid_lamp ho 2 7).2.1 91 _ (.tail _ (.tail _ (.head _))) rfl
      (by decide)
  · exact (putProperty_updates laid_lamp ho 3 7).2.2 (by decide)

/-! ## Lengths past the first 64K -/

/-- The start of a story with two objects, the second of which has a property table at 144 with
    one property of one byte. The table of the first is at 65535. -/
def nearPart : Array UInt8 :=
  #[3, 0, 0, 0, 0, 0, 0, 0, 0, 0, 0, 0x40, 0, 0, 0, 0, 0, 0, 0, 0, 0, 0, 0, 0,
    0, 0, 0, 0, 0, 0, 0, 0, 0, 0, 0, 0, 0, 0, 0, 0, 0, 0, 0, 0, 0, 0, 0, 0, 0, 0, 0, 0, 0, 0, 0, 0,
    0, 0, 0, 0, 0, 0, 0, 0,
    0, 0, 0, 0, 0, 0, 0, 0, 0, 0, 0, 0, 0, 0, 0, 0, 0, 0, 0, 0, 0, 0, 0, 0, 0, 0, 0, 0, 0, 0, 0,
    0, 0, 0, 0, 0, 0, 0, 0, 0, 0, 0, 0, 0, 0, 0, 0, 0, 0, 0, 0, 0, 0, 0, 0, 0, 0, 0, 0, 0, 0, 0,
    0, 0, 0, 0, 0, 0, 0, 0xFF, 0xFF,
    0, 0, 0, 0, 0, 0, 0, 0, 0x90,
    0, 0x01, 0, 0]

/-- The table of the first object: a name of 73 words, and a property of one byte. -/
def farPart : Array UInt8 := #[0x49] ++ Array.replicate 146 0 ++ #[0x05, 0x77, 0]

/-- A story in which the data of a property starts past the first 64K, if `n` is as large as it
    has to be for the address of the first table to be right. -/
def farStory (n : Nat) : Memory := ⟨nearPart ++ (Array.replicate n 0 ++ farPart)⟩

namespace FarStory

/-- Two objects. -/
def objects : ObjectTable := { defaults := 64, count := 2 }

/-- The table of the first object, at the end of what words can address. -/
def farTable : PropertyTable where
  address := 0xFFFF
  nameWords := 0x49
  list :=
    { entries := [⟨5, [0x77], by decide, by decide, by decide, by decide⟩]
      descending := by decide }

/-- The table of the second object, next to the entries. -/
def nearTable : PropertyTable where
  address := 0x90
  nameWords := 0
  list :=
    { entries := [⟨1, [0], by decide, by decide, by decide, by decide⟩]
      descending := by decide }

def tables (o : UInt16) : PropertyTable := if o = 1 then farTable else nearTable

variable {n a : Nat} {b : UInt8} {bs : List UInt8}

set_option maxRecDepth 1024 in
theorem size_nearPart : nearPart.size = 148 := rfl

/-- The first part of the story lies at its start. -/
theorem holds_near (h : Memory.Holds ⟨nearPart⟩ a bs) : (farStory n).Holds a bs := by
  intro k b hb
  exact (Memory.byteAt_append _ (Memory.lt_size_of_byteAt (h k b hb))).trans (h k b hb)

/-- The last part of the story lies behind the filling. -/
theorem holds_far (hn : n = 0xFFFF - 148) (h : Memory.Holds ⟨farPart⟩ a bs) :
    (farStory n).Holds (0xFFFF + a) bs := by
  intro k b hb
  have hsize := size_nearPart
  have hindex : 0xFFFF + a + k - nearPart.size - n = a + k := by omega
  rw [Memory.byteAt_eq_ok, farStory, Array.getElem?_append_right (by omega),
    Array.getElem?_append_right (by rw [Array.size_replicate]; omega), Array.size_replicate, hindex]
  exact Memory.byteAt_eq_ok.mp (h k b hb)

/-- The addresses of the two tables in the entries of the objects. -/
theorem wordAt_entries :
    (farStory n).wordAt 133 = .ok 0xFFFF ∧ (farStory n).wordAt 142 = .ok 0x90 :=
  ⟨Memory.wordAt_eq_ok.mpr (holds_near (by decide +kernel)),
    Memory.wordAt_eq_ok.mpr (holds_near (by decide +kernel))⟩

/-- The first object has the far table. -/
theorem hasTable_far (hn : n = 0xFFFF - 148) : objects.HasTable (farStory n) 1 farTable := by
  have hname : (farStory n).Holds (0xFFFF + 0) [0x49] := holds_far hn (by decide +kernel)
  have hlist : (farStory n).Holds (0xFFFF + 147) [0x05, 0x77, 0] := holds_far hn (by decide +kernel)
  refine ⟨FailsOnly.bind_eq_ok.mpr ⟨126, rfl, ?_⟩, (Memory.holds_cons.mp hname).1, hlist⟩
  exact FailsOnly.bind_eq_ok.mpr ⟨0xFFFF, wordAt_entries.1, rfl⟩

/-- The second object has the near table. -/
theorem hasTable_near : objects.HasTable (farStory n) 2 nearTable := by
  have htable : (farStory n).Holds 0x90 [0, 0x01, 0, 0] := holds_near (by decide +kernel)
  obtain ⟨hname, hlist⟩ := Memory.holds_cons.mp htable
  refine ⟨FailsOnly.bind_eq_ok.mpr ⟨135, rfl, ?_⟩, hname, hlist⟩
  exact FailsOnly.bind_eq_ok.mpr ⟨0x90, wordAt_entries.2, rfl⟩

/-- Both tables lie in memory, apart from each other. -/
theorem laid (hn : n = 0xFFFF - 148) : objects.Laid (farStory n) tables :=
  laid_of_two rfl (hasTable_far hn) hasTable_near (.inr (by decide)) (by decide)

/-- The header of the story. -/
def header : Header where
  version := 3
  flags := 0
  release := 0
  highMemory := 0
  initialPc := 0
  dictionary := 0
  objects := 64
  globals := 0
  staticMemory := 0
  serial := "\x00\x00\x00\x00\x00\x00"
  abbreviations := 0
  fileLength := 0
  checksum := 0

set_option maxRecDepth 1024 in
/-- The header of the story can be read. -/
theorem ofImage_eq (n : Nat) : Header.ofImage (farStory n) = .ok header :=
  (Header.ofImage_append _ (by decide)).trans rfl

/-- Two objects are counted. -/
theorem ofMemory_eq (hn : n = 0xFFFF - 148) : ofMemory (farStory n) header = .ok objects := by
  obtain ⟨hfirst, hsecond⟩ := wordAt_entries (n := n)
  have hsize : 65685 ≤ (farStory n).size := (hasTable_far hn).stop_le_size
  refine FailsOnly.bind_eq_ok.mpr ⟨2, ?_, rfl⟩
  show countFrom (farStory n) 126 255 0 0x100000000 = .ok 2
  rw [countFrom, if_neg (by simp only [entrySize]; omega)]
  refine FailsOnly.bind_eq_ok.mpr ⟨0xFFFF, hfirst, ?_⟩
  show countFrom (farStory n) 126 254 1 0xFFFF = .ok 2
  rw [countFrom, if_neg (by simp only [entrySize]; omega)]
  refine FailsOnly.bind_eq_ok.mpr ⟨0x90, hsecond, ?_⟩
  -- The third entry would start where the table of the second object does.
  show countFrom (farStory n) 126 253 2 0x90 = .ok 2
  rw [countFrom, if_pos (.inl (by decide))]
  rfl

end FarStory

/-- The length of a property is not kept if its data starts past the first 64K: its address is cut
    to 16 bits, and the byte before the address that is left may be data of another property. -/
theorem lengthAt_not_kept : ∃ m header t T, Header.ofImage m = .ok header ∧
    ofMemory m header = .ok t ∧ t.Laid m T ∧
    ∃ x e m', (x, e) ∈ (T 2).placed ∧ e.number = 1 ∧ e.data.length = 1 ∧
      t.putProperty 2 1 0xE0 m = (.ok (), m') ∧
      t.propertyAddress m 1 5 = .ok 147 ∧ t.propertyAddress m' 1 5 = .ok 147 ∧
      lengthAt m 147 = .ok 1 ∧ lengthAt m' 147 = .ok 8 := by
  -- The number of zero bytes in between is kept abstract, so that the memory is never evaluated.
  obtain ⟨n, hn⟩ : ∃ n, n = 0xFFFF - 148 := ⟨_, rfl⟩
  have hlaid := FarStory.laid hn
  have hx : (146, _) ∈ FarStory.nearTable.placed := .head _
  obtain ⟨m', hput, hw⟩ := putProperty_of_short (p := 1) FarStory.hasTable_near hx rfl
    (Nat.le_succ 1) 0xE0
  have hupdated := hlaid.updated (o := 2) (p := 1) (by decide) hx rfl (Nat.le_succ 1) hw
  have haddress : FarStory.objects.propertyAddress (farStory n) 1 5 = .ok 147 :=
    (FarStory.hasTable_far hn).propertyAddress_of_mem (x := 0x10093) (.head _) rfl
  have hzero : (farStory n).Holds 146 [0] := FarStory.holds_near (by decide +kernel)
  have hbefore : (farStory n).byteAt 146 = .ok 0 := (Memory.holds_cons.mp hzero).1
  have hafter : m'.byteAt 146 = .ok 0xE0 := (Memory.holds_cons.mp hw.holds).1
  refine ⟨farStory n, FarStory.header, FarStory.objects, FarStory.tables, FarStory.ofImage_eq n,
    FarStory.ofMemory_eq hn, hlaid, 146, _, m', hx, rfl, rfl, hput, haddress,
    (hupdated.addresses 1 5).trans haddress, ?_, ?_⟩
  · rw [lengthAt_eq, if_neg (by decide)]
    exact FailsOnly.bind_eq_ok.mpr ⟨0, hbefore, rfl⟩
  · rw [lengthAt_eq, if_neg (by decide)]
    exact FailsOnly.bind_eq_ok.mpr ⟨0xE0, hafter, rfl⟩

end ObjectTable

end ZMachine
