import Mathlib
import StackCode.Proofs.OrderedMap.Plain

/-! Contracts of maps. A caller has to give canonical hashes, which the type of hashed keys sees to,
has to insert only absent keys through the unchecked path, and has to remove only at positions of
entries. Every request that keeps to this succeeds in every sound map and leaves a sound map,
whatever the equality of keys is like; so no run of such requests breaks a contract. -/
namespace StackCode

variable {threshold : UInt32} {Q K V : Type} [HashKey Q] [HashKey K] [Equivalent Q K]

namespace OrderedMap

variable {m : OrderedMap threshold K V}

omit [HashKey K] in
theorem size_eq_length (m : OrderedMap threshold K V) : m.size = m.buckets.length :=
  m.list.size_eq_length

theorem Sound.lookup (h : m.Sound) (q : Hashed Q) :
    (∃ i j b, m.indexOfHashed? q = .ok (some i) ∧ m.buckets[i]? = some b ∧
      m.list.bucketAt i = .ok b ∧ m.buckets.find q = some j) ∨
    m.indexOfHashed? q = .ok none ∧ m.buckets.find q = none := by
  obtain ⟨found, hfound, hsome, hnone⟩ := h.indexOf rfl q
  cases found with
  | some i =>
    obtain ⟨b, hi, hb⟩ := hsome i rfl
    cases hf : m.buckets.find q with
    | none =>
      rw [PlainMap.not_holds_of_find hf b (List.mem_of_getElem? hi)] at hb
      cases hb
    | some j => exact .inl ⟨i, j, b, hfound, hi, bucketAt_of_getElem? rfl hi, rfl⟩
  | none => exact .inr ⟨hfound, List.findIdx?_eq_none_iff.2 (hnone rfl)⟩

theorem Sound.get (h : m.Sound) (q : Hashed Q) : ∃ value, m.getHashed? q = .ok value := by
  rcases h.lookup q with ⟨i, -, b, hi, -, hb, -⟩ | ⟨hi, -⟩
  · exact ⟨some b.value, by simp only [getHashed?, hi, hb, Checked.ok_bind, Checked.pure_eq_ok]⟩
  · exact ⟨none, by simp only [getHashed?, hi, Checked.ok_bind, Checked.pure_eq_ok]⟩

theorem Sound.getFull (h : m.Sound) (q : Q) : ∃ entry, m.getFull? q = .ok entry := by
  rcases h.lookup (.of q) with ⟨i, -, b, hi, -, hb, -⟩ | ⟨hi, -⟩
  · exact ⟨some (i, b.entry), by
      simp only [getFull?, indexOf?, hi, hb, Checked.ok_bind, Checked.pure_eq_ok]⟩
  · exact ⟨none, by simp only [getFull?, indexOf?, hi, Checked.ok_bind, Checked.pure_eq_ok]⟩

theorem Sound.contains (h : m.Sound) (q : Hashed Q) :
    m.containsHashed q = .ok (m.buckets.find q).isSome := by
  rcases h.lookup q with ⟨i, j, b, hi, -, -, hf⟩ | ⟨hi, hf⟩
  · rw [containsHashed, hi, hf]
    rfl
  · rw [containsHashed, hi, hf]
    rfl

theorem Sound.find (h : m.Sound) (q : Q) : ∃ c, m.find q = .ok c := by
  rcases h.lookup (.of q) with ⟨i, -, b, hi, -, hb, -⟩ | ⟨hi, -⟩
  · exact ⟨_, by simp only [OrderedMap.find, indexOf?, hi, Checked.ok_bind]; rfl⟩
  · exact ⟨_, by simp only [OrderedMap.find, indexOf?, hi, Checked.ok_bind]; rfl⟩

theorem Sound.removeHashed (h : m.Sound) (q : Hashed Q) :
    ∃ entry m', m.removeHashed q = .ok (entry, m') ∧ m'.Sound ∧
      m'.size = (m.buckets.take q).2.length := by
  rw [PlainMap.take]
  rcases h.lookup q with ⟨i, j, b, hi, hb, -, hf⟩ | ⟨hi, hf⟩
  · obtain ⟨_, m', hm', hl, hs⟩ := removeAt_sound h hb
    refine ⟨some (b.key, b.value), m', ?_, hs, ?_⟩
    · simp only [OrderedMap.removeHashed, hi, hm', Checked.ok_bind, Checked.pure_eq_ok]
    · obtain ⟨c, hj, -⟩ := PlainMap.getElem?_of_find hf
      have hlt := (List.getElem?_eq_some_iff.1 hb).1
      have hlt' := (List.getElem?_eq_some_iff.1 hj).1
      rw [size_eq_length, buckets, hl, hf, List.length_eraseIdx_of_lt hlt,
        List.length_eraseIdx_of_lt hlt']
  · refine ⟨none, m, ?_, h, ?_⟩
    · simp only [OrderedMap.removeHashed, hi, Checked.ok_bind, Checked.pure_eq_ok]
    · rw [hf, size_eq_length]

variable [BEq K]

theorem Sound.insertUnchecked (h : m.Sound) {key : Hashed K} (value : V)
    (hnew : m.buckets.find key = none) (hb : m.size + 1 < IndexTable.maxEntries) :
    ∃ m', m.insertUnchecked key value = .ok m' ∧ m'.list = m.list.push key value ∧ m'.Sound := by
  rw [OrderedMap.insertUnchecked, h.contains key, hnew]
  exact append_sound h key value hb

theorem Sound.insertHashed (h : m.Sound) (key : Hashed K) (value : V)
    (hb : (m.buckets.put key value).2.length < IndexTable.maxEntries) :
    ∃ old m', m.insertHashed key value = .ok (old, m') ∧ m'.Sound ∧
      m'.size = (m.buckets.put key value).2.length := by
  rw [PlainMap.put] at hb ⊢
  rcases h.lookup key with ⟨i, j, b, hi, -, hat, hf⟩ | ⟨hi, hf⟩
  · refine ⟨some b.value, m.setValue i value, ?_, setValue_sound h i value, ?_⟩
    · simp only [OrderedMap.insertHashed, hi, hat, Checked.ok_bind, Checked.pure_eq_ok]
      rfl
    · rw [hf, size_eq_length, buckets, setValue, BucketList.setValue, Array.toList_modify,
        List.length_modify, List.length_modify]
  · rw [hf, PlainMap.append, List.length_append, List.length_singleton, ← size_eq_length] at hb
    obtain ⟨m', hm', hl, hs⟩ := h.insertUnchecked value hf hb
    refine ⟨none, m', ?_, hs, ?_⟩
    · simp only [OrderedMap.insertHashed, hi, hm', Checked.ok_bind, Checked.pure_eq_ok]
    · rw [hf, size, hl, BucketList.size_push, PlainMap.append, List.length_append,
        List.length_singleton, ← size_eq_length, size]

theorem Sound.tryInsert (h : m.Sound) (key : K) (value : V)
    (hb : (m.buckets.offer (.of key) value).2.length < IndexTable.maxEntries) :
    ∃ offered m', m.tryInsert key value = .ok (offered, m') ∧ m'.Sound ∧
      m'.size = (m.buckets.offer (.of key) value).2.length := by
  rw [PlainMap.offer] at hb ⊢
  rcases h.lookup (.of key) with ⟨i, j, b, hi, -, hat, hf⟩ | ⟨hi, hf⟩
  · refine ⟨(i, b.value, false), m, ?_, h, by rw [hf, size_eq_length]⟩
    simp only [OrderedMap.tryInsert, hi, hat, Checked.ok_bind, Checked.pure_eq_ok]
  · rw [hf, PlainMap.append, List.length_append, List.length_singleton, ← size_eq_length] at hb
    obtain ⟨m', hm', hl, hs⟩ := h.insertUnchecked value hf hb
    have hsize : m'.size = m.size + 1 := by rw [size, hl, BucketList.size_push, size]
    have hat : m'.list.bucketAt (m'.size - 1) = .ok ⟨hashOf key, key, value⟩ := by
      refine bucketAt_of_getElem? rfl ?_
      rw [hsize, Nat.add_sub_cancel, hl, BucketList.push, Array.toList_push, size_eq_length]
      exact List.getElem?_concat_length
    refine ⟨(m'.size - 1, value, true), m', ?_, hs, ?_⟩
    · simp only [OrderedMap.tryInsert, hi, hm', hat, Checked.ok_bind, Checked.pure_eq_ok]
    · rw [hf, hsize, PlainMap.append, List.length_append, List.length_singleton, size_eq_length]

end OrderedMap

namespace Event

variable [BEq K] {m : OrderedMap threshold K V}

theorem apply_sound (h : m.Sound) {e : Event Q K V} (hv : e.Valid m.buckets)
    (hb : (e.plain m.buckets).2.length < IndexTable.maxEntries) :
    ∃ answer m', e.apply m = .ok (answer, m') ∧ m'.Sound ∧
      m'.size = (e.plain m.buckets).2.length := by
  have hsize := m.size_eq_length
  cases e with
  | insert key value =>
    obtain ⟨_, m', hm', hs, hsize⟩ := h.insertHashed (.of key) value hb
    exact ⟨_, m', by rw [apply, OrderedMap.insert, hm']; rfl, hs, hsize⟩
  | insertHashed key value =>
    obtain ⟨_, m', hm', hs, hsize⟩ := h.insertHashed key value hb
    exact ⟨_, m', by rw [apply, hm']; rfl, hs, hsize⟩
  | tryInsert key value =>
    obtain ⟨_, m', hm', hs, hsize⟩ := h.tryInsert key value hb
    exact ⟨_, m', by rw [apply, hm']; rfl, hs, hsize⟩
  | insertUnchecked key value =>
    rw [plain, PlainMap.append, List.length_append, List.length_singleton, ← hsize] at hb ⊢
    obtain ⟨m', hm', hl, hs⟩ := h.insertUnchecked value hv hb
    refine ⟨_, m', by rw [apply, hm']; rfl, hs, ?_⟩
    rw [OrderedMap.size, hl, BucketList.size_push, OrderedMap.size]
  | remove q =>
    obtain ⟨_, m', hm', hs, hsize⟩ := h.removeHashed (.of q)
    exact ⟨_, m', by rw [apply, OrderedMap.remove, OrderedMap.removeEntry, hm']; rfl, hs, hsize⟩
  | removeEntry q =>
    obtain ⟨_, m', hm', hs, hsize⟩ := h.removeHashed (.of q)
    exact ⟨_, m', by rw [apply, OrderedMap.removeEntry, hm']; rfl, hs, hsize⟩
  | removeHashed q =>
    obtain ⟨_, m', hm', hs, hsize⟩ := h.removeHashed q
    exact ⟨_, m', by rw [apply, hm']; rfl, hs, hsize⟩
  | removeAt i =>
    obtain ⟨_, m', hm', hl, hs⟩ := OrderedMap.removeAt_sound h (List.getElem?_eq_getElem hv)
    refine ⟨_, m', by rw [apply, hm']; rfl, hs, ?_⟩
    rw [m'.size_eq_length, OrderedMap.buckets, hl]
    rfl
  | pop =>
    rcases List.eq_nil_or_concat m.buckets with hnil | ⟨bs, b, hbs⟩
    · exact ⟨_, m, by rw [apply, OrderedMap.pop_empty hnil]; rfl, h, by rw [hsize, hnil]; rfl⟩
    · rw [List.concat_eq_append] at hbs
      obtain ⟨m', hm', hl, hs⟩ := OrderedMap.pop_sound h hbs
      refine ⟨_, m', by rw [apply, hm']; rfl, hs, ?_⟩
      rw [m'.size_eq_length, OrderedMap.buckets, hl, plain, hbs, List.dropLast_concat]
  | clear => exact ⟨_, m.clear, rfl, OrderedMap.clear_sound h, rfl⟩
  | reserve additional =>
    obtain ⟨m', hm', hl, hs⟩ := OrderedMap.reserve_sound h additional
    refine ⟨_, m', by rw [apply, hm']; rfl, hs, ?_⟩
    rw [m'.size_eq_length, OrderedMap.buckets, hl, plain]
  | sortKeys s =>
    obtain ⟨m', hm', hl, hs⟩ := OrderedMap.arranged_sound h s
    refine ⟨_, m', by rw [apply, hm']; rfl, hs, ?_⟩
    rw [m'.size_eq_length, OrderedMap.buckets, hl]
    rfl
  | get q =>
    obtain ⟨_, hget⟩ := h.get (.of q)
    exact ⟨_, m, by rw [apply, OrderedMap.get?, hget]; rfl, h, hsize⟩
  | getHashed q =>
    obtain ⟨_, hget⟩ := h.get q
    exact ⟨_, m, by rw [apply, hget]; rfl, h, hsize⟩
  | getFull q =>
    obtain ⟨_, hget⟩ := h.getFull q
    exact ⟨_, m, by rw [apply, hget]; rfl, h, hsize⟩
  | indexOf q =>
    obtain ⟨_, hget, -⟩ := h.indexOf rfl (.of q)
    exact ⟨_, m, by rw [apply, OrderedMap.indexOf?, hget]; rfl, h, hsize⟩
  | indexOfHashed q =>
    obtain ⟨_, hget, -⟩ := h.indexOf rfl q
    exact ⟨_, m, by rw [apply, hget]; rfl, h, hsize⟩
  | contains q => exact ⟨_, m, by rw [apply, OrderedMap.contains, h.contains]; rfl, h, hsize⟩
  | containsHashed q => exact ⟨_, m, by rw [apply, h.contains]; rfl, h, hsize⟩
  | find q =>
    obtain ⟨_, hfind⟩ := h.find q
    exact ⟨_, m, by rw [apply, hfind]; rfl, h, hsize⟩
  | valueAt q =>
    obtain ⟨value, hget⟩ := h.get (.of q)
    have hat : ∃ found, m.valueAt q = .ok found := by
      cases value <;> exact ⟨_, by rw [OrderedMap.valueAt, OrderedMap.get?, hget]; rfl⟩
    obtain ⟨_, hat⟩ := hat
    exact ⟨_, m, by rw [apply, hat]; rfl, h, hsize⟩
  | getIndex | first | last => exact ⟨_, m, rfl, h, hsize⟩

end Event

/-- What is asked of a map: an event, a new value for the entry that a query finds, a new value
written at a position through a reference, or new values for all entries. -/
inductive Request (K V : Type) [HashKey K] : Type 1
  | event {Q : Type} [HashKey Q] [Equivalent Q K] (e : Event Q K V)
  | replace {Q : Type} [HashKey Q] [Equivalent Q K] (q : Hashed Q) (value : V)
  | write (i : ℕ) (value : V)
  | mapValues (f : V → V)

namespace Request

def room? : Request K V → Option UInt32
  | event e => e.room?
  | _ => none

variable [BEq K] {m : OrderedMap threshold K V}

def apply (m : OrderedMap threshold K V) : Request K V → Checked (OrderedMap threshold K V)
  | event e => Prod.snd <$> e.apply m
  | replace q value => Prod.snd <$> m.replaceHashed q value
  | write i value => .ok (m.setValue i value)
  | mapValues f => .ok (m.mapValues f)

/-- An event has to be valid and to leave fewer entries than an index has room for. -/
def Allowed (l : PlainMap K V) : Request K V → Prop
  | event e => e.Valid l ∧ (e.plain l).2.length < IndexTable.maxEntries
  | _ => True

end Request

namespace OrderedMap

variable {m m' : OrderedMap threshold K V}

omit [HashKey Q] [Equivalent Q K] in
theorem Sound.mapValues (h : m.Sound) (f : V → V) : (m.mapValues f).Sound := by
  refine ⟨?_, h.canonical.mapValues f, ?_⟩
  · intro t ht
    rw [OrderedMap.mapValues, BucketList.hashes_mapValues]
    exact h.indexed t ht
  · simpa [size, BucketList.size, OrderedMap.mapValues, BucketList.mapValues] using h.bounded

theorem Sound.replaceHashed (h : m.Sound) (q : Hashed Q) (value : V) :
    ∃ old m', m.replaceHashed q value = .ok (old, m') ∧ m'.Sound := by
  rcases h.lookup q with ⟨i, -, b, hi, -, hb, -⟩ | ⟨hi, -⟩
  · refine ⟨some b.value, m.setValue i value, ?_, setValue_sound h i value⟩
    simp only [OrderedMap.replaceHashed, hi, hb, Checked.ok_bind, Checked.pure_eq_ok]
  · refine ⟨none, m, ?_, h⟩
    simp only [OrderedMap.replaceHashed, hi, Checked.ok_bind, Checked.pure_eq_ok]

variable [BEq K]

omit [HashKey Q] [Equivalent Q K] in
theorem Sound.request (h : m.Sound) {r : Request K V} (hr : r.Allowed m.buckets) :
    ∃ m', r.apply m = .ok m' ∧ m'.Sound := by
  cases r with
  | event e =>
    obtain ⟨answer, m', hm', hs, -⟩ := Event.apply_sound h hr.1 hr.2
    exact ⟨m', by rw [Request.apply, hm', Checked.map_ok], hs⟩
  | replace q value =>
    obtain ⟨old, m', hm', hs⟩ := h.replaceHashed q value
    exact ⟨m', by rw [Request.apply, hm', Checked.map_ok], hs⟩
  | write i value => exact ⟨_, rfl, setValue_sound h i value⟩
  | mapValues f => exact ⟨_, rfl, h.mapValues f⟩

def serve (m : OrderedMap threshold K V) :
    List (Request K V) → Checked (OrderedMap threshold K V)
  | [] => .ok m
  | r :: rs => do (← r.apply m).serve rs

def Allows (m : OrderedMap threshold K V) : List (Request K V) → Prop
  | [] => True
  | r :: rs => r.Allowed m.buckets ∧ ∀ m', r.apply m = .ok m' → m'.Allows rs

omit [HashKey Q] [Equivalent Q K] in
theorem allows_cons {r : Request K V} {rs : List (Request K V)} (hr : r.Allowed m.buckets)
    (happly : r.apply m = .ok m') (h : m'.Allows rs) : m.Allows (r :: rs) := by
  refine ⟨hr, fun m₁ hm₁ => ?_⟩
  cases happly.symm.trans hm₁
  exact h

omit [HashKey Q] [Equivalent Q K] in
theorem Sound.serve (h : m.Sound) {rs : List (Request K V)} (ha : m.Allows rs) :
    ∃ m', m.serve rs = .ok m' ∧ m'.Sound := by
  induction rs generalizing m with
  | nil => exact ⟨m, rfl, h⟩
  | cons r rs ih =>
    obtain ⟨m₁, hm₁, h₁⟩ := h.request ha.1
    obtain ⟨m', hm', h'⟩ := ih h₁ (ha.2 m₁ hm₁)
    exact ⟨m', by rw [OrderedMap.serve, hm₁, Checked.ok_bind, hm'], h'⟩

variable [BEq V]

omit [HashKey Q] [Equivalent Q K] in
theorem exists_sameEntries (hc : m.list.Canonical)
    (hl : ∀ q : Hashed K, ∃ found, m'.indexOfHashed? q = .ok found) :
    ∃ same, m.sameEntries m' = .ok same := by
  have hequal : ∀ b ∈ m.buckets, ∃ equal, m'.hasEqual b = .ok equal := by
    intro b hb
    obtain ⟨found, hfound⟩ := hl ⟨b.key, b.hash, hc b hb⟩
    rw [hasEqual, hc.hashed_eq hb, Checked.ok_bind, getHashed?, hfound, Checked.ok_bind]
    cases found with
    | none => exact ⟨false, rfl⟩
    | some i =>
      obtain ⟨c, hat⟩ := bucket_of_indexOf hfound
      exact ⟨c.value == b.value, by simp only [hat, Checked.ok_bind, Checked.pure_eq_ok]⟩
  choose! equal hequal using hequal
  by_cases hsize : m.size ≠ m'.size
  · exact ⟨false, by rw [OrderedMap.sameEntries, if_pos hsize]⟩
  · exact ⟨m.buckets.all equal, by
      rw [OrderedMap.sameEntries, if_neg hsize, Checked.allM_eq_ok hequal]⟩

omit [HashKey Q] [Equivalent Q K] in
theorem Sound.sameEntries (h : m.Sound) (h' : m'.Sound) :
    ∃ same, m.sameEntries m' = .ok same := by
  refine exists_sameEntries h.canonical fun q => ?_
  obtain ⟨found, hfound, -⟩ := h'.indexOf rfl q
  exact ⟨found, hfound⟩

omit [HashKey Q] [Equivalent Q K] in
/-- Allowed requests never break a contract, in either of two maps, and neither does the comparison
of what they lead to. -/
theorem serve_never_faults {rs rs' : List (Request K V)}
    (h : Allows ({} : OrderedMap threshold K V) rs)
    (h' : Allows ({} : OrderedMap threshold K V) rs') :
    ∃ m m' : OrderedMap threshold K V, serve {} rs = .ok m ∧ serve {} rs' = .ok m' ∧
      ∃ same, m.sameEntries m' = .ok same := by
  obtain ⟨m, hm, hs⟩ := sound_empty.serve h
  obtain ⟨m', hm', hs'⟩ := sound_empty.serve h'
  exact ⟨m, m', hm, hm', hs.sameEntries hs'⟩

theorem serve_never_faults_round_the_end :
    let rs : List (Request TaggedKey UInt32) :=
      [.event (.reserve 2 : Event TaggedKey TaggedKey UInt32),
        .event (.insert ⟨1, ⟨8⟩, []⟩ 5 : Event TaggedKey TaggedKey UInt32),
        .event (.insertUnchecked (.of ⟨2, ⟨8⟩, []⟩) 6 : Event TaggedKey TaggedKey UInt32),
        .write 0 7,
        .event (.pop : Event TaggedKey TaggedKey UInt32),
        .event (.removeAt 0 : Event TaggedKey TaggedKey UInt32)]
    let rs' : List (Request TaggedKey UInt32) :=
      [.event (.insert ⟨2, ⟨8⟩, []⟩ 6 : Event TaggedKey TaggedKey UInt32)]
    ∃ m m' : OrderedMap 1 TaggedKey UInt32, serve {} rs = .ok m ∧ serve {} rs' = .ok m' ∧
      ∃ same, m.sameEntries m' = .ok same := by
  intro rs rs'
  have hallows : Allows ({} : OrderedMap 1 TaggedKey UInt32) rs := by
    refine allows_cons ⟨trivial, by decide⟩ rfl ?_
    refine allows_cons ⟨trivial, by decide⟩ rfl ?_
    refine allows_cons ⟨by rfl, by decide⟩ rfl ?_
    refine allows_cons trivial rfl ?_
    refine allows_cons ⟨trivial, by decide⟩ rfl ?_
    exact ⟨⟨Nat.zero_lt_one, by decide⟩, fun _ _ => trivial⟩
  have hallows' : Allows ({} : OrderedMap 1 TaggedKey UInt32) rs' :=
    ⟨⟨trivial, by decide⟩, fun _ _ => trivial⟩
  exact serve_never_faults hallows hallows'

end OrderedMap

end StackCode
