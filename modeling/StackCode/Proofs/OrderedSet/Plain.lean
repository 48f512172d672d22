import Mathlib
import StackCode.OrderedSet
import StackCode.Proofs.OrderedMap.Served

/-! Sets and plain sets. A plain set is the list of keys alone, searched from the front. A run of
events has the answers of the same run on the plain set, however early or late the index comes into
being; and the two ways to insert a key are the same in every state. -/
namespace StackCode

variable {threshold : UInt32} {Q K : Type} [HashKey Q] [HashKey K]

abbrev PlainSet (K : Type) := List K

namespace PlainSet

variable (l : PlainSet K)

def find [Equivalent Q K] (q : Hashed Q) : Option Nat :=
  l.findIdx? fun k => hashOf k == q.hash && equivalent q.key k

def put [BEq K] (key : Hashed K) : Bool × PlainSet K :=
  match l.find key with
  | some _ => (false, l)
  | none => (true, l ++ [key.key])

def take [Equivalent Q K] (q : Hashed Q) : Bool × PlainSet K :=
  match l.find q with
  | some i => (true, l.eraseIdx i)
  | none => (false, l)

def Distinct [BEq K] : Prop := l.Pairwise fun k k' => ¬Matches k k'

end PlainSet

namespace OrderedSet

inductive Answer (K : Type)
  | done
  | inserted (new : Bool)
  | removed (present : Bool)
  | key (found : Option K)
  | present (found : Bool)
  | position (found : Option Nat)

inductive Event (Q K : Type) [HashKey Q] [HashKey K]
  | insert (key : K)
  | insertHashed (key : Hashed K)
  | insertUnchecked (key : Hashed K)
  | remove (q : Q)
  | pop
  | clear
  | reserve (additional : UInt32)
  | contains (q : Q)
  | containsHashed (q : Hashed Q)
  | indexOf (q : Q)
  | getIndex (i : Nat)

namespace Event

variable [BEq K] [Equivalent Q K]

def apply (s : OrderedSet threshold K) :
    Event Q K → Checked (Answer K × OrderedSet threshold K)
  | insert key => do
    let (new, s) ← s.insert key
    return (.inserted new, s)
  | insertHashed key => do
    let (new, s) ← s.insertHashed key
    return (.inserted new, s)
  | insertUnchecked key => do return (.done, ← s.insertUnchecked key)
  | remove q => do
    let (present, s) ← s.remove q
    return (.removed present, s)
  | pop => do
    let (key, s) ← s.pop
    return (.key key, s)
  | clear => .ok (.done, s.clear)
  | reserve additional => do return (.done, ← s.reserve additional)
  | contains q => do return (.present (← s.contains q), s)
  | containsHashed q => do return (.present (← s.containsHashed q), s)
  | indexOf q => do return (.position (← s.indexOf? q), s)
  | getIndex i => .ok (.key (s.getIndex? i), s)

def plain (l : PlainSet K) : Event Q K → Answer K × PlainSet K
  | insert key =>
    let (new, l) := l.put (.of key)
    (.inserted new, l)
  | insertHashed key =>
    let (new, l) := l.put key
    (.inserted new, l)
  | insertUnchecked key => (.done, l ++ [key.key])
  | remove q =>
    let (present, l) := l.take (.of q)
    (.removed present, l)
  | pop => (.key l.getLast?, l.dropLast)
  | clear => (.done, [])
  | reserve _ => (.done, l)
  | contains q => (.present (l.find (.of q)).isSome, l)
  | containsHashed q => (.present (l.find q).isSome, l)
  | indexOf q => (.position (l.find (.of q)), l)
  | getIndex i => (.key l[i]?, l)

def Valid (l : PlainSet K) : Event Q K → Prop
  | insertUnchecked key => l.find key = none
  | _ => True

end Event

variable [BEq K]

/-- In every state, one whose index is out of step included. -/
theorem insert_eq_insertHashed (s : OrderedSet threshold K) (key : K) :
    s.insert key = s.insertHashed (.of key) := by
  rw [insert, OrderedMap.tryInsert, insertHashed, OrderedMap.containsHashed]
  cases hfound : s.map.indexOfHashed? (Hashed.of key) with
  | error fault => rfl
  | ok found =>
    cases found with
    | some i =>
      obtain ⟨b, hb⟩ := OrderedMap.bucket_of_indexOf hfound
      simp [hb]
    | none =>
      cases hm : s.map.insertUnchecked (Hashed.of key) () with
      | error fault => simp
      | ok m =>
        have happend := (OrderedMap.append_of_insertUnchecked hm).2
        simp [OrderedMap.bucketAt_last_of_append happend]

variable {s : OrderedSet threshold K} {l : PlainSet K}

def bucketOf (key : K) : Bucket K Unit := ⟨hashOf key, key, ()⟩

/-- The plain set has the same keys, which are distinct, and the index is that of their hashes. -/
def Mirrors (s : OrderedSet threshold K) (l : PlainSet K) : Prop := s.map.Mirrors (l.map bucketOf)

omit [BEq K] in
theorem find_map [Equivalent Q K] (l : PlainSet K) (q : Hashed Q) :
    PlainMap.find (l.map bucketOf) q = l.find q := by
  rw [PlainMap.find, List.findIdx?_map]
  rfl

omit [HashKey Q] [BEq K] in
theorem append_map (l : PlainSet K) (key : Hashed K) :
    PlainMap.append (l.map bucketOf) key () = (l ++ [key.key]).map bucketOf := by
  rw [PlainMap.append, List.map_append, List.map_singleton, bucketOf, key.hash_eq]

omit [BEq K] in
theorem take_map [Equivalent Q K] (l : PlainSet K) (q : Hashed Q) :
    (PlainMap.take (l.map bucketOf) q).1.isSome = (l.take q).1 ∧
      (PlainMap.take (l.map bucketOf) q).2 = (l.take q).2.map bucketOf := by
  rw [PlainMap.take, PlainSet.take, find_map]
  cases hf : l.find q with
  | none => exact ⟨rfl, rfl⟩
  | some i =>
    have hlt : i < l.length := (List.findIdx?_eq_some_iff_getElem.1 hf).1
    simp [hlt, List.eraseIdx_map]

theorem mirrors_empty : Mirrors ({} : OrderedSet threshold K) [] := OrderedMap.mirrors_empty

namespace Mirrors

theorem keys (h : Mirrors s l) : s.keys = l := by
  rw [OrderedSet.keys, OrderedMap.keys, BucketList.keys, h.buckets, List.map_map]
  exact List.map_id l

theorem distinct (h : Mirrors s l) : l.Distinct := by
  have hd := OrderedMap.Mirrors.distinct h
  rw [PlainMap.Distinct, List.map_map] at hd
  rwa [show Bucket.key ∘ bucketOf = (id : K → K) from rfl, List.map_id] at hd

theorem getIndex (h : Mirrors s l) (i : ℕ) : s.getIndex? i = l[i]? := by
  rw [getIndex?, OrderedMap.Mirrors.getIndex h, List.getElem?_map]
  cases l[i]? <;> rfl

theorem pop (h : Mirrors s l) : ∃ s', s.pop = .ok (l.getLast?, s') ∧ Mirrors s' l.dropLast := by
  obtain ⟨m, hm, hmirrors⟩ := OrderedMap.Mirrors.pop h
  rw [← List.map_dropLast] at hmirrors
  refine ⟨⟨m⟩, ?_, hmirrors⟩
  rw [OrderedSet.pop, hm, List.getLast?_map]
  cases l.getLast? <;> rfl

theorem clear (h : Mirrors s l) : Mirrors s.clear [] := OrderedMap.Mirrors.clear h

theorem reserve (h : Mirrors s l) (additional : UInt32) :
    ∃ s', s.reserve additional = .ok s' ∧ Mirrors s' l := by
  obtain ⟨m, hm, hmirrors⟩ := OrderedMap.Mirrors.reserve h additional
  exact ⟨⟨m⟩, by rw [OrderedSet.reserve, hm, Checked.map_ok], hmirrors⟩

section Query

variable [Equivalent Q K] [LawfulQuery Q K]

theorem containsHashed (h : Mirrors s l) (q : Hashed Q) :
    s.containsHashed q = .ok (l.find q).isSome := by
  rw [OrderedSet.containsHashed, OrderedMap.Mirrors.contains h, find_map]

theorem indexOf (h : Mirrors s l) (q : Q) : s.indexOf? q = .ok (l.find (.of q)) := by
  rw [indexOf?, OrderedMap.indexOf?, OrderedMap.Mirrors.indexOf h, find_map]

theorem remove (h : Mirrors s l) (q : Q) :
    ∃ s', s.remove q = .ok ((l.take (.of q)).1, s') ∧ Mirrors s' (l.take (.of q)).2 := by
  obtain ⟨m, hm, hmirrors⟩ := OrderedMap.Mirrors.take h (.of q)
  obtain ⟨hpresent, hrest⟩ := take_map l (.of q)
  rw [hrest] at hmirrors
  refine ⟨⟨m⟩, ?_, hmirrors⟩
  rw [OrderedSet.remove, OrderedMap.removeEntry, hm, ← hpresent]
  rfl

end Query

variable [LawfulKey K]

theorem insertUnchecked (h : Mirrors s l) {key : Hashed K} (hf : l.find key = none)
    (hlen : l.length + 1 < IndexTable.maxEntries) :
    ∃ s', s.insertUnchecked key = .ok s' ∧ Mirrors s' (l ++ [key.key]) := by
  obtain ⟨m, hm, hmirrors⟩ := OrderedMap.Mirrors.insertUnchecked h () ((find_map l key).trans hf)
    (by rwa [List.length_map])
  rw [append_map] at hmirrors
  exact ⟨⟨m⟩, by rw [OrderedSet.insertUnchecked, hm, Checked.map_ok], hmirrors⟩

theorem insertHashed (h : Mirrors s l) (key : Hashed K)
    (hlen : (l.put key).2.length < IndexTable.maxEntries) :
    ∃ s', s.insertHashed key = .ok ((l.put key).1, s') ∧ Mirrors s' (l.put key).2 := by
  rw [PlainSet.put] at hlen ⊢
  rw [OrderedSet.insertHashed, show s.map.containsHashed key = _ from h.containsHashed key]
  cases hf : l.find key with
  | some i => exact ⟨s, rfl, h⟩
  | none =>
    rw [hf, List.length_append, List.length_singleton] at hlen
    obtain ⟨s', hs', hmirrors⟩ := h.insertUnchecked hf hlen
    obtain ⟨m, hm, rfl⟩ := Checked.map_eq_ok_iff.1 hs'
    exact ⟨⟨m⟩, by simp [hm], hmirrors⟩

end Mirrors

variable [Equivalent Q K] [LawfulKey K] [LawfulQuery Q K]

theorem Event.apply_mirrors (h : Mirrors s l) {e : Event Q K} (hv : e.Valid l)
    (hlen : (e.plain l).2.length < IndexTable.maxEntries) :
    ∃ s', e.apply s = .ok ((e.plain l).1, s') ∧ Mirrors s' (e.plain l).2 := by
  cases e with
  | insert key =>
    obtain ⟨s', hs', hmirrors⟩ := h.insertHashed (.of key) hlen
    exact ⟨s', by rw [apply, insert_eq_insertHashed, hs']; rfl, hmirrors⟩
  | insertHashed key =>
    obtain ⟨s', hs', hmirrors⟩ := h.insertHashed key hlen
    exact ⟨s', by rw [apply, hs']; rfl, hmirrors⟩
  | insertUnchecked key =>
    rw [plain, List.length_append, List.length_singleton] at hlen
    obtain ⟨s', hs', hmirrors⟩ := h.insertUnchecked hv hlen
    exact ⟨s', by rw [apply, hs']; rfl, hmirrors⟩
  | remove q =>
    obtain ⟨s', hs', hmirrors⟩ := h.remove q
    exact ⟨s', by rw [apply, hs']; rfl, hmirrors⟩
  | pop =>
    obtain ⟨s', hs', hmirrors⟩ := h.pop
    exact ⟨s', by rw [apply, hs']; rfl, hmirrors⟩
  | clear => exact ⟨s.clear, rfl, h.clear⟩
  | reserve additional =>
    obtain ⟨s', hs', hmirrors⟩ := h.reserve additional
    exact ⟨s', by rw [apply, hs']; rfl, hmirrors⟩
  | contains q =>
    have hq : s.contains q = _ := h.containsHashed (.of q)
    exact ⟨s, by rw [apply, hq]; rfl, h⟩
  | containsHashed q => exact ⟨s, by rw [apply, h.containsHashed]; rfl, h⟩
  | indexOf q => exact ⟨s, by rw [apply, h.indexOf]; rfl, h⟩
  | getIndex i => exact ⟨s, by rw [apply, h.getIndex]; rfl, h⟩

end OrderedSet

section Runs

variable [BEq K] [Equivalent Q K]

def OrderedSet.run (s : OrderedSet threshold K) :
    List (OrderedSet.Event Q K) → Checked (List (OrderedSet.Answer K) × OrderedSet threshold K)
  | [] => .ok ([], s)
  | e :: es => do
    let (answer, s) ← e.apply s
    let (answers, s) ← s.run es
    return (answer :: answers, s)

def PlainSet.run (l : PlainSet K) :
    List (OrderedSet.Event Q K) → List (OrderedSet.Answer K) × PlainSet K
  | [] => ([], l)
  | e :: es =>
    let (answer, l) := e.plain l
    let (answers, l) := PlainSet.run l es
    (answer :: answers, l)

def PlainSet.ValidRun (l : PlainSet K) : List (OrderedSet.Event Q K) → Prop
  | [] => True
  | e :: es => e.Valid l ∧ (e.plain l).2.length < IndexTable.maxEntries ∧
      PlainSet.ValidRun (e.plain l).2 es

variable [LawfulKey K] [LawfulQuery Q K]

theorem OrderedSet.Mirrors.run {s : OrderedSet threshold K} {l : PlainSet K} (h : s.Mirrors l)
    {es : List (OrderedSet.Event Q K)} (hv : PlainSet.ValidRun l es) :
    ∃ s', s.run es = .ok ((PlainSet.run l es).1, s') ∧ s'.Mirrors (PlainSet.run l es).2 := by
  induction es generalizing s l with
  | nil => exact ⟨s, rfl, h⟩
  | cons e es ih =>
    obtain ⟨he, hlen, hrest⟩ := hv
    obtain ⟨s₁, hs₁, h₁⟩ := OrderedSet.Event.apply_mirrors h he hlen
    obtain ⟨s', hs', hmirrors⟩ := ih h₁ hrest
    refine ⟨s', ?_, hmirrors⟩
    rw [OrderedSet.run, hs₁]
    simp only [Checked.ok_bind, hs', Checked.pure_eq_ok, PlainSet.run]

/-- A run has the answers and the keys of the plain run, whatever the threshold; and in whatever
state, a key inserted with its hash is as one inserted without. -/
theorem OrderedSet.run_eq_plainSet_run (threshold : UInt32) {es : List (OrderedSet.Event Q K)}
    (h : PlainSet.ValidRun [] es) :
    (∃ s : OrderedSet threshold K,
      OrderedSet.run {} es = .ok ((PlainSet.run [] es).1, s) ∧
      s.keys = (PlainSet.run [] es).2 ∧ PlainSet.Distinct (PlainSet.run [] es).2) ∧
    ∀ (s : OrderedSet threshold K) (key : K), s.insert key = s.insertHashed (.of key) := by
  have hempty : Mirrors ({} : OrderedSet threshold K) [] := mirrors_empty
  obtain ⟨s, hs, hmirrors⟩ := hempty.run h
  exact ⟨⟨s, hs, hmirrors.keys, hmirrors.distinct⟩, insert_eq_insertHashed⟩

theorem OrderedSet.run_eq_plainSet_run_past_threshold :
    ∃ s : OrderedSet 1 TaggedKey,
      OrderedSet.run {} [.insert ⟨1, ⟨8⟩, [97]⟩, .insertHashed (.of ⟨1, ⟨8⟩, [98]⟩),
          .insertHashed (.of ⟨2, ⟨8⟩, [99]⟩), .insert ⟨2, ⟨8⟩, [100]⟩,
          .insertUnchecked (.of ⟨3, ⟨8⟩, [101]⟩), .getIndex 0, .remove ⟨1, ⟨8⟩, []⟩,
          .indexOf (⟨3, ⟨8⟩, []⟩ : TaggedKey)] =
        .ok ([.inserted true, .inserted false, .inserted true, .inserted false, .done,
          .key (some ⟨1, ⟨8⟩, [97]⟩), .removed true, .position (some 1)], s) ∧
      s.keys = [⟨2, ⟨8⟩, [99]⟩, ⟨3, ⟨8⟩, [101]⟩] := by
  have hv : PlainSet.ValidRun [] ([.insert ⟨1, ⟨8⟩, [97]⟩, .insertHashed (.of ⟨1, ⟨8⟩, [98]⟩),
      .insertHashed (.of ⟨2, ⟨8⟩, [99]⟩), .insert ⟨2, ⟨8⟩, [100]⟩,
      .insertUnchecked (.of ⟨3, ⟨8⟩, [101]⟩), .getIndex 0, .remove ⟨1, ⟨8⟩, []⟩,
      .indexOf ⟨3, ⟨8⟩, []⟩] : List (OrderedSet.Event TaggedKey TaggedKey)) := by
    refine ⟨trivial, ?_, trivial, ?_, trivial, ?_, trivial, ?_, rfl, ?_, trivial, ?_, trivial, ?_,
      trivial, ?_, trivial⟩
    all_goals decide
  obtain ⟨⟨s, hs, hkeys, -⟩, -⟩ := OrderedSet.run_eq_plainSet_run 1 hv
  exact ⟨s, hs, hkeys⟩

end Runs

end StackCode
