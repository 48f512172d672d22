import Mathlib
import StackCode.Proofs.OrderedMap.Switch

/-! Maps sorted by their keys. A sort has to bring the buckets into the order of their keys, and no
more is known of it; where no two keys are equal, there is only one such order. The index is built
anew for it, so every key is found at its new position, and one more sort changes nothing, in the
slots of the index either. -/
namespace StackCode

variable {threshold : UInt32} {Q K V : Type}

namespace BucketList.Arrangement

/-- No bucket comes before one with a lower key. -/
def Sorts [LT K] (s : Arrangement K V) : Prop :=
  ∀ bs, (s.arrange bs).Pairwise fun b c => ¬c.key < b.key

theorem byKeys_sorts [BEq K] [LT K] [DecidableLT K] [OrderedKey K] :
    (byKeys : Arrangement K V).Sorts := by
  intro bs
  refine (List.pairwise_mergeSort ?_ ?_ bs).imp ?_
  · intro a b c hab hbc
    rw [Bool.not_eq_true', decide_eq_false_iff_not] at hab hbc ⊢
    exact OrderedKey.not_lt_trans hab hbc
  · intro a b
    by_cases h : b.key < a.key
    · rw [decide_eq_false (OrderedKey.lt_asymm h), Bool.not_false, Bool.or_true]
    · rw [decide_eq_false h, Bool.not_false, Bool.true_or]
  · intro b c h
    rwa [Bool.not_eq_true', decide_eq_false_iff_not] at h

end BucketList.Arrangement

namespace PlainMap

variable [BEq K] [LT K] {l l' : PlainMap K V}

def Ascending (l : PlainMap K V) : Prop := l.Pairwise fun b c => b.key < c.key

variable [OrderedKey K]

theorem Ascending.eq_of_perm (h : l.Ascending) (h' : l'.Ascending) (hp : l.Perm l') : l = l' :=
  List.Perm.eq_of_pairwise (fun _ _ _ _ hbc hcb => absurd hcb (OrderedKey.lt_asymm hbc)) h h' hp

theorem ascending_arrange {s : BucketList.Arrangement K V} (hs : s.Sorts)
    (hne : l.Pairwise fun b c => (b.key == c.key) = false) : Ascending (s.arrange l) := by
  have hne' : (s.arrange l).Pairwise fun b c => (b.key == c.key) = false := by
    refine ((s.perm l).pairwise_iff ?_).2 hne
    intro b c hbc
    rwa [BEq.comm]
  refine (hne'.and (hs l)).imp ?_
  rintro b c ⟨hbc, hcb⟩
  exact OrderedKey.lt_of_not_lt hbc hcb

theorem Ascending.pairwise_ne (h : l.Ascending) :
    l.Pairwise fun b c => (b.key == c.key) = false :=
  h.imp OrderedKey.beq_eq_false_of_lt

end PlainMap

namespace OrderedMap

variable {m m' : OrderedMap threshold K V}

theorem reindexed_again {t : IndexTable} (h : m.reindexed t = .ok m') :
    ∃ t', m'.index = some t' ∧ m'.reindexed t' = .ok m' := by
  obtain ⟨t', ht', h⟩ := Checked.bind_eq_ok_iff.1 h
  cases h
  refine ⟨t', rfl, ?_⟩
  rw [reindexed]
  simp only [size] at ht' ⊢
  rw [IndexTable.rebuild_of_rebuild ht']
  rfl

theorem arranged_again {s s' : BucketList.Arrangement K V} (h : m.arranged s = .ok m')
    (hs' : s'.arrange m'.buckets = m'.buckets) : m'.arranged s' = .ok m' := by
  have hlist : m'.list.arranged s' = m'.list := by
    rw [BucketList.arranged, hs']
  rw [arranged, hlist]
  rw [arranged] at h
  cases hi : m.index with
  | none =>
    rw [hi] at h
    cases h
    rfl
  | some table =>
    rw [hi] at h
    obtain ⟨t', ht', hagain⟩ := reindexed_again h
    simp only [ht']
    exact hagain

theorem pairwise_keys_iff {R : K → K → Prop} :
    m.keys.Pairwise R ↔ m.buckets.Pairwise fun b c => R b.key c.key := by
  rw [keys, BucketList.keys, List.pairwise_map]

variable [HashKey K]

theorem Kept.exists_arranged_iff (h : m.Kept) (s : BucketList.Arrangement K V) :
    (∃ m', m.arranged s = .ok m') ↔ (m.isIndexed = true → m.size < IndexTable.maxEntries) := by
  cases hi : m.index with
  | none =>
    rw [arranged, isIndexed, hi]
    exact ⟨fun _ hindexed => (by cases hindexed), fun _ => ⟨_, rfl⟩⟩
  | some table =>
    have hindexed : m.isIndexed = true := by rw [isIndexed, hi, Option.isSome_some]
    constructor
    · rintro ⟨m', hm'⟩ -
      rw [arranged, hi] at hm'
      obtain ⟨t, ht, -⟩ := Checked.bind_eq_ok_iff.1 hm'
      have hlt := IndexTable.length_lt_of_rebuild ht
      rwa [BucketList.length_hashes, BucketList.size_eq_length,
        (m.list.arranged_perm s).length_eq, ← size_eq_length] at hlt
    · intro hb
      obtain ⟨m', hm', -⟩ := arranged_sound (h.sound (hb hindexed)) s
      exact ⟨m', hm'⟩

variable [BEq K]

/-- The same buckets with increasing keys, each found at the position that it now has; and no sort
changes the map any further. -/
structure SortedFrom [LT K] (m m' : OrderedMap threshold K V) : Prop where
  perm : m'.buckets.Perm m.buckets
  increasing : m'.keys.Pairwise (· < ·)
  isIndexed : m'.isIndexed = m.isIndexed
  found : ∀ {Q : Type} [HashKey Q] [Equivalent Q K] [LawfulQuery Q K] (q : Hashed Q) (i : ℕ),
    m'.indexOfHashed? q = .ok (some i) ↔ ∃ b, m'.buckets[i]? = some b ∧ Matches q.key b.key
  missed : ∀ {Q : Type} [HashKey Q] [Equivalent Q K] [LawfulQuery Q K] (q : Hashed Q),
    m'.indexOfHashed? q = .ok none ↔ ∀ b ∈ m'.buckets, ¬Matches q.key b.key
  absent : ∀ {Q : Type} [HashKey Q] [Equivalent Q K] [LawfulQuery Q K] (q : Hashed Q),
    m'.indexOfHashed? q = .ok none ↔ m.indexOfHashed? q = .ok none
  again : ∀ s : BucketList.Arrangement K V, s.Sorts → m'.arranged s = .ok m'

theorem Mirrors.indexOf_eq_some_iff {l : PlainMap K V} [HashKey Q] [Equivalent Q K]
    [LawfulQuery Q K] (h : m.Mirrors l) (q : Hashed Q) (i : ℕ) :
    m.indexOfHashed? q = .ok (some i) ↔ ∃ b, l[i]? = some b ∧ Matches q.key b.key := by
  rw [h.indexOf q, Except.ok.injEq]
  exact h.distinct.find_eq_some_iff (h.buckets ▸ h.sound.canonical)

theorem Mirrors.indexOf_eq_none_iff {l : PlainMap K V} [HashKey Q] [Equivalent Q K]
    [LawfulQuery Q K] (h : m.Mirrors l) (q : Hashed Q) :
    m.indexOfHashed? q = .ok none ↔ ∀ b ∈ l, ¬Matches q.key b.key := by
  rw [h.indexOf q, Except.ok.injEq]
  exact PlainMap.Canonical.find_eq_none_iff (h.buckets ▸ h.sound.canonical)

section Sorting

variable [LT K] [OrderedKey K]

theorem Served.sortedFrom (h : m.Served) (hb : m.size < IndexTable.maxEntries)
    (hne : m.keys.Pairwise fun k k' => (k == k') = false) {s : BucketList.Arrangement K V}
    (hs : s.Sorts) : ∃ m', m.arranged s = .ok m' ∧ SortedFrom m m' := by
  obtain ⟨m', hm', -, hsound⟩ := arranged_sound (h.kept.sound hb) s
  have hbuckets : m'.buckets = s.arrange m.buckets := (h.kept.of_arranged hm').1
  have hperm : m'.buckets.Perm m.buckets := hbuckets ▸ s.perm m.buckets
  have hascending : m'.buckets.Ascending :=
    hbuckets ▸ PlainMap.ascending_arrange hs (pairwise_keys_iff.1 hne)
  have hmirrors := h.mirrors hb
  have hmirrors' : m'.Mirrors m'.buckets := ⟨hsound, rfl, h.distinct.of_perm hperm⟩
  refine ⟨m', hm', hperm, pairwise_keys_iff.2 hascending, isIndexed_of_arranged hm',
    hmirrors'.indexOf_eq_some_iff, hmirrors'.indexOf_eq_none_iff, ?_, ?_⟩
  · intro Q _ _ _ q
    rw [hmirrors'.indexOf_eq_none_iff q, hmirrors.indexOf_eq_none_iff q]
    exact forall_congr' fun b => imp_congr_left hperm.mem_iff
  · intro s' hs'
    have hascending' : PlainMap.Ascending (s'.arrange m'.buckets) :=
      PlainMap.ascending_arrange hs' hascending.pairwise_ne
    exact arranged_again hm' (hascending'.eq_of_perm hascending (s'.perm m'.buckets))

/-- A sort of a map with different keys brings its buckets, each with its hash, key and value, into
the one increasing order of the keys, whatever the sort does besides. -/
theorem sortKeys_of_served [DecidableLT K] (h : m.Served)
    (hb : m.size < IndexTable.maxEntries)
    (hne : m.keys.Pairwise fun k k' => (k == k') = false) {s : BucketList.Arrangement K V}
    (hs : s.Sorts) : ∃ m', m.arranged s = .ok m' ∧ m.sortKeys = .ok m' ∧ SortedFrom m m' := by
  obtain ⟨m', hm', hsorted⟩ := h.sortedFrom hb hne hs
  refine ⟨m', hm', ?_, hsorted⟩
  have hne := pairwise_keys_iff.1 hne
  have harrange : s.arrange m.buckets = BucketList.Arrangement.byKeys.arrange m.buckets := by
    refine (PlainMap.ascending_arrange hs hne).eq_of_perm
      (PlainMap.ascending_arrange BucketList.Arrangement.byKeys_sorts hne) ?_
    exact (s.perm _).trans (BucketList.Arrangement.byKeys.perm _).symm
  rw [sortKeys, ← arranged_congr harrange, hm']

end Sorting

theorem sortKeys_of_served_indexed :
    ∃ m m' : OrderedMap 1 TaggedKey UInt32, m.Served ∧ m.isIndexed = true ∧
      m.entries = [(⟨3, ⟨8⟩, []⟩, 5), (⟨1, ⟨8⟩, []⟩, 6), (⟨2, ⟨8⟩, []⟩, 7)] ∧
      m.sortKeys = .ok m' ∧ m'.isIndexed = true ∧
      m'.entries = [(⟨1, ⟨8⟩, []⟩, 6), (⟨2, ⟨8⟩, []⟩, 7), (⟨3, ⟨8⟩, []⟩, 5)] ∧
      m'.indexOf? (⟨3, ⟨8⟩, [9]⟩ : TaggedKey) = .ok (some 2) ∧
      m'.indexOf? (⟨4, ⟨8⟩, []⟩ : TaggedKey) = .ok none ∧ m'.sortKeys = .ok m' := by
  obtain ⟨m, hserve, hindexed, hbuckets⟩ : ∃ m : OrderedMap 1 TaggedKey UInt32,
      serve {} [.event (.reserve 3 : Event TaggedKey TaggedKey UInt32),
        .event (.insert ⟨3, ⟨8⟩, []⟩ 5 : Event TaggedKey TaggedKey UInt32),
        .event (.insert ⟨1, ⟨8⟩, []⟩ 6 : Event TaggedKey TaggedKey UInt32),
        .event (.insert ⟨2, ⟨8⟩, []⟩ 7 : Event TaggedKey TaggedKey UInt32)] = .ok m ∧
      m.isIndexed = true ∧
      m.buckets = [⟨⟨8⟩, ⟨3, ⟨8⟩, []⟩, 5⟩, ⟨⟨8⟩, ⟨1, ⟨8⟩, []⟩, 6⟩, ⟨⟨8⟩, ⟨2, ⟨8⟩, []⟩, 7⟩] :=
    ⟨_, rfl, rfl, rfl⟩
  have hserved : m.Served := ⟨_, hserve⟩
  have hsize : m.size < IndexTable.maxEntries := by
    rw [size_eq_length, hbuckets]
    decide
  have hne : m.keys.Pairwise fun k k' => (k == k') = false := by
    rw [pairwise_keys_iff, hbuckets]
    decide
  obtain ⟨m', -, hm', hsorted⟩ :=
    sortKeys_of_served hserved hsize hne BucketList.Arrangement.byKeys_sorts
  have hbuckets' : m'.buckets =
      [⟨⟨8⟩, ⟨1, ⟨8⟩, []⟩, 6⟩, ⟨⟨8⟩, ⟨2, ⟨8⟩, []⟩, 7⟩, ⟨⟨8⟩, ⟨3, ⟨8⟩, []⟩, 5⟩] := by
    refine PlainMap.Ascending.eq_of_perm (pairwise_keys_iff.1 hsorted.increasing) ?_ ?_
    · rw [PlainMap.Ascending]
      decide
    · exact (hbuckets ▸ hsorted.perm).trans (List.perm_append_singleton _ [_, _]).symm
  refine ⟨m, m', hserved, hindexed, congrArg (List.map Bucket.entry) hbuckets, hm',
    hsorted.isIndexed.trans hindexed, congrArg (List.map Bucket.entry) hbuckets', ?_, ?_,
    hsorted.again _ BucketList.Arrangement.byKeys_sorts⟩
  · exact (hsorted.found _ 2).2 ⟨_, by rw [hbuckets']; rfl, rfl, rfl⟩
  · rw [indexOf?, hsorted.missed, hbuckets']
    decide

end OrderedMap

end StackCode
