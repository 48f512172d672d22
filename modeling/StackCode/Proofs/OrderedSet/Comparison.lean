import Mathlib
import StackCode.Proofs.OrderedMap.Comparison
import StackCode.Proofs.OrderedSet.Plain

/-! The comparisons of sets are those of the maps that they are made of, and whatever happens to a
set happens to its map; so the comparisons of sets fit together as those of maps do. -/
namespace StackCode

variable {threshold : UInt32} {Q K V : Type} [HashKey Q] [HashKey K] [BEq K]

theorem OrderedMap.apply_request [Equivalent Q K] {m m' : OrderedMap threshold K V}
    {e : Event Q K V} {answer : Answer K V} (h : e.apply m = .ok (answer, m')) :
    (Request.event e).apply m = .ok m' := by
  rw [Request.apply, h, Checked.map_ok]

namespace OrderedSet

variable {s s' : OrderedSet threshold K}

theorem request_of_insertUnchecked {m : OrderedMap threshold K Unit} {key : Hashed K}
    (h : s.map.insertUnchecked key () = .ok m) :
    ∃ r : Request K Unit, r.apply s.map = .ok m :=
  ⟨.event (.insertUnchecked key () : StackCode.Event K K Unit),
    OrderedMap.apply_request (by rw [StackCode.Event.apply, h]; rfl)⟩

theorem request_of_insertHashed {key : Hashed K} {new : Bool}
    (h : s.insertHashed key = .ok (new, s')) :
    s'.map = s.map ∨ ∃ r : Request K Unit, r.apply s.map = .ok s'.map := by
  obtain ⟨present, -, h⟩ := Checked.bind_eq_ok_iff.1 h
  cases present with
  | true =>
    cases h
    exact .inl rfl
  | false =>
    obtain ⟨m, hm, h⟩ := Checked.bind_eq_ok_iff.1 h
    cases h
    exact .inr (request_of_insertUnchecked hm)

theorem request_of_apply [Equivalent Q K] {e : Event Q K} {answer : Answer K}
    (h : e.apply s = .ok (answer, s')) :
    s'.map = s.map ∨ ∃ r : Request K Unit, r.apply s.map = .ok s'.map := by
  cases e with
  | insert key =>
    obtain ⟨_, hinsert, h⟩ := Checked.bind_eq_ok_iff.1 h
    cases h
    rw [insert_eq_insertHashed] at hinsert
    exact request_of_insertHashed hinsert
  | insertHashed key =>
    obtain ⟨_, hinsert, h⟩ := Checked.bind_eq_ok_iff.1 h
    cases h
    exact request_of_insertHashed hinsert
  | insertUnchecked key =>
    obtain ⟨_, hinsert, h⟩ := Checked.bind_eq_ok_iff.1 h
    cases h
    obtain ⟨m, hm, rfl⟩ := Checked.map_eq_ok_iff.1 hinsert
    exact .inr (request_of_insertUnchecked hm)
  | remove q =>
    obtain ⟨_, hremove, h⟩ := Checked.bind_eq_ok_iff.1 h
    cases h
    obtain ⟨_, hm, hremove⟩ := Checked.bind_eq_ok_iff.1 hremove
    cases hremove
    exact .inr ⟨.event (.removeEntry q : StackCode.Event Q K Unit),
      OrderedMap.apply_request (by rw [StackCode.Event.apply, hm]; rfl)⟩
  | pop =>
    obtain ⟨_, hpop, h⟩ := Checked.bind_eq_ok_iff.1 h
    cases h
    obtain ⟨_, hm, hpop⟩ := Checked.bind_eq_ok_iff.1 hpop
    cases hpop
    exact .inr ⟨.event (.pop : StackCode.Event K K Unit),
      OrderedMap.apply_request (by rw [StackCode.Event.apply, hm]; rfl)⟩
  | clear =>
    cases h
    exact .inr ⟨.event (.clear : StackCode.Event K K Unit), rfl⟩
  | reserve additional =>
    obtain ⟨_, hreserve, h⟩ := Checked.bind_eq_ok_iff.1 h
    cases h
    obtain ⟨m, hm, rfl⟩ := Checked.map_eq_ok_iff.1 hreserve
    exact .inr ⟨.event (.reserve additional : StackCode.Event K K Unit),
      OrderedMap.apply_request (by rw [StackCode.Event.apply, hm]; rfl)⟩
  | contains q | containsHashed q | indexOf q =>
    obtain ⟨_, -, h⟩ := Checked.bind_eq_ok_iff.1 h
    cases h
    exact .inl rfl
  | getIndex i =>
    cases h
    exact .inl rfl

/-- The sets that events and sorts of any kind lead to from the empty one, as long as they break no
contract. -/
inductive Attained : OrderedSet threshold K → Prop
  | empty : Attained {}
  | event {Q : Type} [HashKey Q] [Equivalent Q K] {s s' : OrderedSet threshold K}
      {answer : Answer K} (e : Event Q K) (h : Attained s) (he : e.apply s = .ok (answer, s')) :
      Attained s'
  | arranged {s s' : OrderedSet threshold K} (order : BucketList.Arrangement K Unit)
      (h : Attained s) (hs : s.arranged order = .ok s') : Attained s'

omit [HashKey Q] in
theorem Attained.map (h : s.Attained) : s.map.Served := by
  induction h with
  | empty => exact .empty
  | event e _ he ih =>
    rcases request_of_apply he with hstays | ⟨r, hr⟩
    · exact hstays ▸ ih
    · exact ih.request hr
  | arranged order _ hs ih =>
    obtain ⟨m, hm, rfl⟩ := Checked.map_eq_ok_iff.1 hs
    exact ih.request (OrderedMap.apply_request (e := (.sortKeys order : StackCode.Event K K Unit))
      (by rw [StackCode.Event.apply, hm]; rfl))

structure Consistent [LT K] (a b : OrderedSet threshold K) : Prop where
  same : a.equalInOrder b = true → a.sameKeys b = .ok true
  hash : a.equalInOrder b = true →
    ∀ mix : UInt64 → UInt64 → UInt64, a.hashInOrder mix = b.hashInOrder mix
  digest : a.equalInOrder b = true → a.sameDigest b = true
  sorted : ∀ order order' : BucketList.Arrangement K Unit, order.Sorts → order'.Sorts → ∀ a' b',
    a.arranged order = .ok a' → b.arranged order' = .ok b' →
      (a.sameKeys b = .ok true ↔ a'.equalInOrder b' = true)
  returns : (b.isIndexed = true → b.size < IndexTable.maxEntries) →
    ∃ same, a.sameKeys b = .ok same
  sorts : ∀ order : BucketList.Arrangement K Unit, (∃ a', a.arranged order = .ok a') ↔
    (a.isIndexed = true → a.size < IndexTable.maxEntries)

omit [HashKey Q] in
theorem consistent_of_map [LT K] {a b : OrderedSet threshold K} (h : a.map.Consistent b.map) :
    a.Consistent b where
  same := h.same
  hash hequal mix := h.hash hequal mix _ fun _ _ _ => rfl
  digest := h.digest
  sorted order order' horder horder' a' b' ha' hb' := by
    obtain ⟨m, hm, rfl⟩ := Checked.map_eq_ok_iff.1 ha'
    obtain ⟨m', hm', rfl⟩ := Checked.map_eq_ok_iff.1 hb'
    exact h.sorted order order' horder horder' m m' hm hm'
  returns := h.returns
  sorts order := by
    refine Iff.trans ?_ (h.sorts order)
    simp only [arranged, Checked.map_eq_ok_iff]
    constructor
    · rintro ⟨_, m, hm, -⟩
      exact ⟨m, hm⟩
    · rintro ⟨m, hm⟩
      exact ⟨_, m, hm, rfl⟩

end OrderedSet

end StackCode
