import Mathlib
import StackCode.Proofs.BucketList.History
import StackCode.Proofs.IndexTable.Lookup
import StackCode.Proofs.OrderedMap.Event

/-! The index of a map follows its buckets. Each event changes a map in one of the ways listed by
`Change`, and after each of them the index, if there is one, represents the hashes of the buckets
as they then are. -/
namespace StackCode

namespace OrderedMap

variable {threshold : UInt32} {Q K V : Type} {m m' : OrderedMap threshold K V}

theorem reindexed_eq (m : OrderedMap threshold K V) (t : IndexTable)
    (hb : m.size < IndexTable.maxEntries) :
    ∃ t', m.reindexed t = .ok { m with index := some t' } ∧ t'.Represents m.list.hashes := by
  have hlen : m.list.hashes.length = m.size := BucketList.length_hashes m.list
  obtain ⟨t', ht', hr⟩ := IndexTable.rebuild_represents t
    (show m.list.hashes.length < IndexTable.maxEntries by rwa [hlen])
  rw [hlen] at ht'
  exact ⟨t', by simp [reindexed, ht'], hr⟩

theorem list_of_reindexed {t : IndexTable} (h : m.reindexed t = .ok m') : m'.list = m.list := by
  obtain ⟨t', -, h⟩ := Checked.bind_eq_ok_iff.1 h
  cases h
  rfl

theorem arranged_congr {s s' : BucketList.Arrangement K V}
    (h : s.arrange m.buckets = s'.arrange m.buckets) : m.arranged s = m.arranged s' := by
  have hlist : m.list.arranged s = m.list.arranged s' := by
    rw [BucketList.arranged, h]
    rfl
  rw [arranged, hlist]
  rfl

variable [HashKey Q] [HashKey K]

/-- The index, if there is one, represents the hashes of the buckets; and every hash is that of
its key. -/
structure Sound (m : OrderedMap threshold K V) : Prop where
  indexed : ∀ t, m.index = some t → t.Represents m.list.hashes
  canonical : m.list.Canonical
  bounded : m.size < IndexTable.maxEntries

theorem sound_empty : Sound ({} : OrderedMap threshold K V) := by
  refine ⟨?_, BucketList.canonical_empty, Nat.mul_pos (by decide) (Nat.two_pow_pos 28)⟩
  intro t ht
  cases ht

theorem Sound.length_hashes_lt (h : m.Sound) : m.list.hashes.length < 2 ^ 32 := by
  rw [BucketList.length_hashes]
  exact h.bounded.trans (by decide)

theorem Sound.of_not_indexed (hi : m.index = none) (hc : m.list.Canonical)
    (hb : m.size < IndexTable.maxEntries) : m.Sound := by
  refine ⟨?_, hc, hb⟩
  intro t ht
  rw [hi] at ht
  cases ht

theorem reindexed_sound (m : OrderedMap threshold K V) (t : IndexTable) (hc : m.list.Canonical)
    (hb : m.size < IndexTable.maxEntries) :
    ∃ m', m.reindexed t = .ok m' ∧ m'.list = m.list ∧ m'.Sound := by
  obtain ⟨t', ht', hr⟩ := reindexed_eq m t hb
  refine ⟨_, ht', rfl, ?_, hc, hb⟩
  intro t₁ ht₁
  cases ht₁
  exact hr

theorem append_indexed {t : IndexTable} (hi : m.index = some t) (key : Hashed K) (value : V) :
    m.append key value = do
      let t ← t.insert key.hash (.ofNat m.size)
      return { list := m.list.push key value, index := some t } := by
  simp [append, hi, size]

theorem append_listed (hi : m.index = none) (key : Hashed K) (value : V) :
    m.append key value =
      if threshold.toNat < m.size + 1 then
        reindexed { m with list := m.list.push key value } {}
      else .ok { m with list := m.list.push key value } := by
  simp [append, hi, size, createIndex]

theorem append_sound (h : m.Sound) (key : Hashed K) (value : V)
    (hb : m.size + 1 < IndexTable.maxEntries) :
    ∃ m', m.append key value = .ok m' ∧ m'.list = m.list.push key value ∧ m'.Sound := by
  have hc := h.canonical.push key value
  have hsize : (m.list.push key value).size < IndexTable.maxEntries := by
    rw [BucketList.size_push]
    exact hb
  cases hi : m.index with
  | none =>
    rw [append_listed hi]
    by_cases ht : threshold.toNat < m.size + 1
    · rw [if_pos ht]
      exact reindexed_sound _ _ hc hsize
    · rw [if_neg ht]
      exact ⟨_, rfl, rfl, .of_not_indexed hi hc hsize⟩
  | some table =>
    have hlen : m.list.hashes.length = m.size := BucketList.length_hashes m.list
    obtain ⟨t, ht, hr⟩ := (h.indexed table hi).insert key.hash (by rwa [hlen])
    rw [hlen] at ht
    refine ⟨{ list := m.list.push key value, index := some t }, ?_, rfl, ?_, hc, hsize⟩
    · rw [append_indexed hi, ht]
      rfl
    · intro t₁ ht₁
      cases ht₁
      rwa [BucketList.hashes_push]

theorem list_of_append {key : Hashed K} {value : V} (h : m.append key value = .ok m') :
    m'.list = m.list.push key value := by
  cases hi : m.index with
  | none =>
    rw [append_listed hi] at h
    by_cases ht : threshold.toNat < m.size + 1
    · rw [if_pos ht] at h
      rw [list_of_reindexed h]
    · rw [if_neg ht] at h
      cases h
      rfl
  | some table =>
    rw [append_indexed hi] at h
    obtain ⟨t, -, h⟩ := Checked.bind_eq_ok_iff.1 h
    cases h
    rfl

theorem append_of_insertUnchecked [BEq K] {key : Hashed K} {value : V}
    (h : m.insertUnchecked key value = .ok m') :
    m.containsHashed key = .ok false ∧ m.append key value = .ok m' := by
  obtain ⟨present, hpresent, h⟩ := Checked.bind_eq_ok_iff.1 h
  obtain ⟨_, hnew, h⟩ := Checked.bind_eq_ok_iff.1 h
  rw [Checked.require_eq_ok_iff, Bool.not_eq_true'] at hnew
  rw [hnew] at hpresent
  exact ⟨hpresent, h⟩

theorem bucketAt_last_of_append {key : Hashed K} {value : V} (h : m.append key value = .ok m') :
    m'.list.bucketAt (m'.size - 1) = .ok ⟨key.hash, key.key, value⟩ := by
  rw [size, list_of_append h, BucketList.size_push, Nat.add_sub_cancel,
    BucketList.bucketAt_eq_ok_iff, BucketList.push, BucketList.size]
  exact Array.getElem?_push_size

theorem removeAt_sound (h : m.Sound) {i : ℕ} {b : Bucket K V}
    (hi : m.list.buckets.toList[i]? = some b) :
    ∃ (hb : b.hash = hashOf b.key) (m' : OrderedMap threshold K V),
      m.removeAt i = .ok ((⟨b.key, b.hash, hb⟩, b.value), m') ∧
      m'.list.buckets.toList = m.list.buckets.toList.eraseIdx i ∧ m'.Sound := by
  obtain ⟨hb, rest, hrem, hrest⟩ := h.canonical.removeAt_eq hi
  have hc : rest.Canonical := h.canonical.of_subset (hrest ▸ List.eraseIdx_subset)
  have hsize : rest.size < IndexTable.maxEntries := by
    rw [rest.size_eq_length, hrest]
    exact (List.length_eraseIdx_le _ _).trans_lt (m.list.size_eq_length ▸ h.bounded)
  refine ⟨hb, ?_⟩
  rw [removeAt, hrem]
  cases ht : m.index with
  | none => exact ⟨⟨rest, none⟩, rfl, hrest, .of_not_indexed rfl hc hsize⟩
  | some table =>
    obtain ⟨m', hm', hlist, hs⟩ := reindexed_sound
      (⟨rest, some table⟩ : OrderedMap threshold K V) table hc hsize
    refine ⟨m', ?_, by rw [hlist, hrest], hs⟩
    simp only [Checked.ok_bind, hm', Checked.pure_eq_ok]

theorem bucket_of_removeAt {i : ℕ} {removed : Hashed K × V} (h : m.removeAt i = .ok (removed, m')) :
    ∃ b, m.list.buckets.toList[i]? = some b := by
  obtain ⟨_, hrem, -⟩ := Checked.bind_eq_ok_iff.1 h
  exact BucketList.bucket_of_removeAt hrem

theorem pop_empty (h : m.list.buckets.toList = []) : m.pop = .ok (none, m) := by
  have he : m.isEmpty = true := by simpa [isEmpty, BucketList.isEmpty] using h
  rw [pop, if_pos he]
  rfl

theorem pop_eq (hc : m.list.Canonical) {bs : List (Bucket K V)} {b : Bucket K V}
    (hbs : m.list.buckets.toList = bs ++ [b]) :
    ∃ rest : BucketList K V, rest.buckets.toList = bs ∧ rest.Canonical ∧
      m.pop = match m.index with
        | none => .ok (some b.entry, ⟨rest, none⟩)
        | some table => do
          let t ← table.eraseLast b.hash (.ofNat bs.length)
          return (some b.entry, ⟨rest, some t⟩) := by
  have hsize : m.size = bs.length + 1 := by
    rw [size, m.list.size_eq_length, hbs, List.length_append, List.length_singleton]
  have hne : ¬ m.isEmpty = true := by
    simp [isEmpty, BucketList.isEmpty, ← Array.toList_eq_nil_iff, hbs]
  have hlast : m.list.bucketAt bs.length = .ok b := by
    rw [BucketList.bucketAt_eq_ok_iff, ← Array.getElem?_toList, hbs]
    exact List.getElem?_concat_length
  obtain ⟨hb, rest, hpop, hrest⟩ := hc.pop_eq hbs
  refine ⟨rest, hrest,
    hc.of_subset (by rw [hrest, hbs]; exact List.subset_append_left _ _), ?_⟩
  rw [pop, if_neg hne, hsize, Nat.add_sub_cancel]
  cases m.index with
  | none => simp [hpop, Bucket.entry]
  | some table => cases ht : table.eraseLast b.hash (.ofNat bs.length) <;>
      simp [hlast, hpop, ht, Bucket.entry]

theorem pop_sound (h : m.Sound) {bs : List (Bucket K V)} {b : Bucket K V}
    (hbs : m.list.buckets.toList = bs ++ [b]) :
    ∃ m', m.pop = .ok (some b.entry, m') ∧ m'.list.buckets.toList = bs ∧ m'.Sound := by
  have hlt : bs.length + 1 < IndexTable.maxEntries := by
    have hb := h.bounded
    rwa [size, m.list.size_eq_length, hbs, List.length_append, List.length_singleton] at hb
  obtain ⟨rest, hrest, hc, hpop⟩ := pop_eq h.canonical hbs
  have hbound : rest.size < IndexTable.maxEntries := by
    rw [rest.size_eq_length, hrest]
    omega
  rw [hpop]
  cases ht : m.index with
  | none => exact ⟨⟨rest, none⟩, rfl, hrest, .of_not_indexed rfl hc hbound⟩
  | some table =>
    have hr := h.indexed table ht
    rw [BucketList.hashes, hbs, List.map_append, List.map_singleton] at hr
    obtain ⟨t, ht', hr'⟩ := hr.eraseLast (by simpa using hlt.trans (by decide))
    rw [List.length_map] at ht'
    refine ⟨⟨rest, some t⟩, ?_, hrest, ?_, hc, hbound⟩
    · simp only [ht', Checked.ok_bind, Checked.pure_eq_ok]
    · intro t₁ ht₁
      cases ht₁
      rwa [BucketList.hashes, hrest]

theorem clear_sound (h : m.Sound) : m.clear.Sound := by
  refine ⟨?_, BucketList.canonical_empty, Nat.mul_pos (by decide) (Nat.two_pow_pos 28)⟩
  intro t ht
  obtain ⟨t', ht', rfl⟩ := Option.map_eq_some_iff.1 ht
  exact (h.indexed t' ht').clear

theorem setValue_sound (h : m.Sound) (i : ℕ) (value : V) : (m.setValue i value).Sound := by
  refine ⟨?_, h.canonical.setValue i value, ?_⟩
  · intro t ht
    rw [setValue, BucketList.hashes_setValue]
    exact h.indexed t ht
  · simpa [size, BucketList.size, setValue, BucketList.setValue] using h.bounded

theorem reserve_sound (h : m.Sound) (additional : UInt32) :
    ∃ m', m.reserve additional = .ok m' ∧ m'.list.buckets = m.list.buckets ∧ m'.Sound := by
  by_cases hc : (!m.isIndexed && threshold < UInt32.ofNat m.size + additional) = true
  · obtain ⟨m', hm', hlist, hs⟩ := reindexed_sound { m with list := m.list.reserve additional } {}
      h.canonical h.bounded
    refine ⟨m', ?_, by rw [hlist]; rfl, hs⟩
    rw [reserve]
    exact (if_pos hc).trans hm'
  · refine ⟨{ m with list := m.list.reserve additional }, ?_, rfl, h.indexed, h.canonical,
      h.bounded⟩
    rw [reserve]
    exact if_neg hc

theorem arranged_sound (h : m.Sound) (s : BucketList.Arrangement K V) :
    ∃ m', m.arranged s = .ok m' ∧ m'.list = m.list.arranged s ∧ m'.Sound := by
  have hperm := m.list.arranged_perm s
  have hc : (m.list.arranged s).Canonical := h.canonical.of_subset hperm.subset
  have hsize : (m.list.arranged s).size < IndexTable.maxEntries := by
    rw [BucketList.size_eq_length, hperm.length_eq, ← BucketList.size_eq_length]
    exact h.bounded
  rw [arranged]
  cases ht : m.index with
  | none => exact ⟨_, rfl, rfl, .of_not_indexed rfl hc hsize⟩
  | some table => exact reindexed_sound _ table hc hsize

end OrderedMap

end StackCode
