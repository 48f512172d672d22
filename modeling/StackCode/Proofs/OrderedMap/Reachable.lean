import Mathlib
import StackCode.Key.Number
import StackCode.Proofs.OrderedMap.Indexing

/-! Maps with a past. Whatever an event does, it makes room or changes the map in one of the ways
listed by `Update`, and each of these keeps the map sound; so in every map that a run of events
leads to, the index holds one mark for each bucket, and every mark can be reached from its home. -/
namespace StackCode.OrderedMap

variable {threshold : UInt32} {Q K V : Type} [HashKey Q] [HashKey K] [BEq K]

/-- Whatever else is done to a map, only a key that is absent is appended. -/
inductive Update (m : OrderedMap threshold K V) : OrderedMap threshold K V → Prop
  | stay : Update m m
  | setValue (i : ℕ) (value : V) : Update m (m.setValue i value)
  | append (key : Hashed K) (value : V) {m' : OrderedMap threshold K V}
      (hnew : m.containsHashed key = .ok false) (h : m.append key value = .ok m') : Update m m'
  | removeAt (i : ℕ) {removed : Hashed K × V} {m' : OrderedMap threshold K V}
      (h : m.removeAt i = .ok (removed, m')) : Update m m'
  | pop {popped : Option (K × V)} {m' : OrderedMap threshold K V}
      (h : m.pop = .ok (popped, m')) : Update m m'
  | clear : Update m m.clear
  | sortKeys (s : BucketList.Arrangement K V) {m' : OrderedMap threshold K V}
      (h : m.arranged s = .ok m') : Update m m'

inductive Change (m m' : OrderedMap threshold K V) : Prop
  | update (h : Update m m')
  | reserve (additional : UInt32) (h : m.reserve additional = .ok m')

variable {m m' : OrderedMap threshold K V}

theorem Update.sound (hu : Update m m') (h : m.Sound)
    (hb : m'.size < IndexTable.maxEntries) : m'.Sound := by
  cases hu with
  | stay => exact h
  | setValue i value => exact setValue_sound h i value
  | append key value _ hm =>
    rw [size, list_of_append hm, BucketList.size_push] at hb
    obtain ⟨m₁, hm₁, -, hs⟩ := append_sound h key value hb
    cases hm₁.symm.trans hm
    exact hs
  | removeAt i hm =>
    obtain ⟨b, hi⟩ := bucket_of_removeAt hm
    obtain ⟨_, m₁, hm₁, -, hs⟩ := removeAt_sound h hi
    cases hm₁.symm.trans hm
    exact hs
  | pop hm =>
    rcases List.eq_nil_or_concat m.list.buckets.toList with hnil | ⟨bs, b, hbs⟩
    · cases (pop_empty hnil).symm.trans hm
      exact h
    · obtain ⟨m₁, hm₁, -, hs⟩ := pop_sound h (hbs.trans List.concat_eq_append)
      cases hm₁.symm.trans hm
      exact hs
  | clear => exact clear_sound h
  | sortKeys s hm =>
    obtain ⟨m₁, hm₁, -, hs⟩ := arranged_sound h s
    cases hm₁.symm.trans hm
    exact hs

theorem Change.sound (hc : Change m m') (h : m.Sound)
    (hb : m'.size < IndexTable.maxEntries) : m'.Sound := by
  cases hc with
  | update hu => exact hu.sound h hb
  | reserve additional hm =>
    obtain ⟨m₁, hm₁, -, hs⟩ := reserve_sound h additional
    cases hm₁.symm.trans hm
    exact hs

theorem update_of_insertUnchecked {key : Hashed K} {value : V}
    (h : m.insertUnchecked key value = .ok m') : Update m m' := by
  obtain ⟨hnew, hm⟩ := append_of_insertUnchecked h
  exact .append key value hnew hm

theorem update_of_insertHashed {key : Hashed K} {value : V} {old : Option V}
    (h : m.insertHashed key value = .ok (old, m')) : Update m m' := by
  obtain ⟨found, -, h⟩ := Checked.bind_eq_ok_iff.1 h
  cases found with
  | some i =>
    obtain ⟨_, -, h⟩ := Checked.bind_eq_ok_iff.1 h
    cases h
    exact .setValue i value
  | none =>
    obtain ⟨m₁, hm₁, h⟩ := Checked.bind_eq_ok_iff.1 h
    cases h
    exact update_of_insertUnchecked hm₁

theorem update_of_tryInsert {key : K} {value : V} {offered : ℕ × V × Bool}
    (h : m.tryInsert key value = .ok (offered, m')) : Update m m' := by
  obtain ⟨found, -, h⟩ := Checked.bind_eq_ok_iff.1 h
  cases found with
  | some i =>
    obtain ⟨_, -, h⟩ := Checked.bind_eq_ok_iff.1 h
    cases h
    exact .stay
  | none =>
    obtain ⟨m₁, hm₁, h⟩ := Checked.bind_eq_ok_iff.1 h
    obtain ⟨_, -, h⟩ := Checked.bind_eq_ok_iff.1 h
    cases h
    exact update_of_insertUnchecked hm₁

variable [Equivalent Q K]

theorem update_of_removeHashed {q : Hashed Q} {entry : Option (K × V)}
    (h : m.removeHashed q = .ok (entry, m')) : Update m m' := by
  obtain ⟨found, -, h⟩ := Checked.bind_eq_ok_iff.1 h
  cases found with
  | none =>
    cases h
    exact .stay
  | some i =>
    obtain ⟨_, hm₁, h⟩ := Checked.bind_eq_ok_iff.1 h
    cases h
    exact .removeAt i hm₁

theorem update_of_apply {e : Event Q K V} {answer : Answer K V}
    (h : e.apply m = .ok (answer, m')) (hroom : e.room? = none) : Update m m' := by
  cases e with
  | insert key value =>
    obtain ⟨_, hm, h⟩ := Checked.bind_eq_ok_iff.1 h
    cases h
    exact update_of_insertHashed hm
  | insertHashed key value =>
    obtain ⟨_, hm, h⟩ := Checked.bind_eq_ok_iff.1 h
    cases h
    exact update_of_insertHashed hm
  | tryInsert key value =>
    obtain ⟨_, hm, h⟩ := Checked.bind_eq_ok_iff.1 h
    cases h
    exact update_of_tryInsert hm
  | insertUnchecked key value =>
    obtain ⟨_, hm, h⟩ := Checked.bind_eq_ok_iff.1 h
    cases h
    exact update_of_insertUnchecked hm
  | remove q =>
    obtain ⟨_, hm, h⟩ := Checked.bind_eq_ok_iff.1 h
    obtain ⟨_, hremove, h₁⟩ := Checked.bind_eq_ok_iff.1 hm
    cases h₁
    cases h
    exact update_of_removeHashed hremove
  | removeEntry q =>
    obtain ⟨_, hm, h⟩ := Checked.bind_eq_ok_iff.1 h
    cases h
    exact update_of_removeHashed hm
  | removeHashed q =>
    obtain ⟨_, hm, h⟩ := Checked.bind_eq_ok_iff.1 h
    cases h
    exact update_of_removeHashed hm
  | removeAt i =>
    obtain ⟨_, hm, h⟩ := Checked.bind_eq_ok_iff.1 h
    cases h
    exact .removeAt i hm
  | pop =>
    obtain ⟨_, hm, h⟩ := Checked.bind_eq_ok_iff.1 h
    cases h
    exact .pop hm
  | clear =>
    cases h
    exact .clear
  | reserve additional => cases hroom
  | sortKeys s =>
    obtain ⟨_, hm, h⟩ := Checked.bind_eq_ok_iff.1 h
    cases h
    exact .sortKeys s hm
  | getIndex | first | last =>
    cases h
    exact .stay
  | get | getHashed | getFull | indexOf | indexOfHashed | contains | containsHashed | find
  | valueAt =>
    obtain ⟨_, -, h⟩ := Checked.bind_eq_ok_iff.1 h
    cases h
    exact .stay

omit [BEq K] [Equivalent Q K] in
theorem eq_reserve_of_room {e : Event Q K V} {n : UInt32} (hroom : e.room? = some n) :
    e = .reserve n := by
  cases e with
  | reserve additional =>
    cases hroom
    rfl
  | _ => cases hroom

theorem reserve_of_apply {e : Event Q K V} {answer : Answer K V}
    (h : e.apply m = .ok (answer, m')) {n : UInt32} (hroom : e.room? = some n) :
    m.reserve n = .ok m' := by
  obtain rfl := eq_reserve_of_room hroom
  obtain ⟨_, hm, h⟩ := Checked.bind_eq_ok_iff.1 h
  cases h
  exact hm

theorem change_of_apply {e : Event Q K V} {answer : Answer K V}
    (h : e.apply m = .ok (answer, m')) : Change m m' := by
  cases hroom : e.room? with
  | none => exact .update (update_of_apply h hroom)
  | some n => exact .reserve n (reserve_of_apply h hroom)

/-- The maps that events lead to from the empty one while it holds fewer entries than the index
has room for. -/
inductive Reachable : OrderedMap threshold K V → Prop
  | empty : Reachable {}
  | step {Q : Type} [HashKey Q] [Equivalent Q K] {m m' : OrderedMap threshold K V}
      {answer : Answer K V} (e : Event Q K V) (h : Reachable m) (he : e.apply m = .ok (answer, m'))
      (hb : m'.size < IndexTable.maxEntries) : Reachable m'

omit [HashKey Q] [Equivalent Q K] in
theorem Reachable.sound (h : Reachable m) : m.Sound := by
  induction h with
  | empty => exact sound_empty
  | step e h he hb ih => exact (change_of_apply he).sound ih hb

/-- In every indexed map the marks are those of the buckets, each once; the slots are a power of
two and more than enough; and no slot between a mark and its home is vacant. -/
theorem index_of_reachable (h : Reachable m) {t : IndexTable} (ht : m.index = some t) :
    (IndexTable.marks t.slots).Perm
        (m.list.hashes.mapIdx fun i hash => .entry hash (.ofNat i)) ∧
      t.size.toNat = m.size ∧ (∃ k, 4 ≤ k ∧ t.slots.size = 2 ^ k) ∧
      8 * m.size < 7 * t.slots.size ∧ IndexTable.Chained t.slots := by
  have hr := h.sound.indexed t ht
  have hlen : m.list.hashes.length = m.size := BucketList.length_hashes m.list
  refine ⟨hr.marks_perm, ?_, hr.capacity, ?_, hr.chained⟩
  · rw [hr.size_eq, IndexTable.length_entriesOf, hlen]
  · rw [← hlen, ← IndexTable.length_entriesOf]
    exact hr.load

theorem index_of_reachable_round_the_end :
    ∃ (m : OrderedMap 1 TaggedKey UInt32) (t : IndexTable), Reachable m ∧ m.index = some t ∧
      (IndexTable.marks t.slots).Perm [.entry ⟨8⟩ 0, .entry ⟨8⟩ 1] ∧
      IndexTable.Chained t.slots := by
  -- the home of both keys is the last of sixteen slots
  have h₁ : Reachable (⟨⟨#[], 2⟩, some (.withCapacity 0)⟩ : OrderedMap 1 TaggedKey UInt32) :=
    .step (.reserve 2 : Event TaggedKey TaggedKey UInt32) .empty rfl (by decide)
  have h₂ : Reachable (⟨⟨#[⟨⟨8⟩, ⟨1, ⟨8⟩, []⟩, 5⟩], 2⟩,
      some ⟨(Array.replicate 16 Slot.empty).setIfInBounds 15 (.entry ⟨8⟩ 0), 1, 16⟩⟩ :
      OrderedMap 1 TaggedKey UInt32) :=
    .step (.insert ⟨1, ⟨8⟩, []⟩ 5 : Event TaggedKey TaggedKey UInt32) h₁ rfl (by decide)
  have h₃ : Reachable (⟨⟨#[⟨⟨8⟩, ⟨1, ⟨8⟩, []⟩, 5⟩, ⟨⟨8⟩, ⟨2, ⟨8⟩, []⟩, 6⟩], 2⟩,
      some ⟨((Array.replicate 16 Slot.empty).setIfInBounds 15 (.entry ⟨8⟩ 0)).setIfInBounds 0
        (.entry ⟨8⟩ 1), 2, 16⟩⟩ : OrderedMap 1 TaggedKey UInt32) :=
    .step (.insert ⟨2, ⟨8⟩, []⟩ 6 : Event TaggedKey TaggedKey UInt32) h₂ rfl (by decide)
  obtain ⟨hmarks, -, -, -, hchained⟩ := index_of_reachable h₃ rfl
  exact ⟨_, _, h₃, rfl, hmarks, hchained⟩

end StackCode.OrderedMap
