import Mathlib
import StackCode.Proofs.IndexTable.Rebuilt
import StackCode.Proofs.OrderedMap.Served

/-! When a map starts to use an index. It does so as soon as it holds more entries than the
threshold, or room for so many is asked for; and whatever is done afterwards, it never goes back.
The index is that of the buckets as they are, so nothing that a caller can see changes with it,
whatever the hashes and the equality of keys are like. -/
namespace StackCode

variable {threshold : UInt32} {Q K V : Type}

def Event.isLookup [HashKey Q] [HashKey K] : Event Q K V → Bool
  | .get _ | .getHashed _ | .getFull _ | .indexOf _ | .indexOfHashed _ | .contains _
  | .containsHashed _ | .find _ | .valueAt _ | .getIndex _ | .first | .last => true
  | _ => false

namespace OrderedMap

variable {m m' : OrderedMap threshold K V}

section Lookup

variable [HashKey Q] [Equivalent Q K] {l : PlainMap K V}

theorem find_of_pairwise (hlen : l.length < 2 ^ 32) {q : Hashed Q} {is : List UInt32}
    (hsorted : is.Pairwise (· ≤ ·))
    (hmem : ∀ i : UInt32, i ∈ is ↔ ∃ b, l[i.toNat]? = some b ∧ b.hash = q.hash) :
    (is.find? (accepts l q)).map UInt32.toNat = l.find q := by
  obtain ⟨hsome, hnone⟩ := holds_of_accepts hlen hmem
  cases hf : is.find? (accepts l q) with
  | none => exact (List.findIdx?_eq_none_iff.2 (hnone hf)).symm
  | some i =>
    obtain ⟨b, hi, hb⟩ := hsome i hf
    obtain ⟨hlt, hget⟩ := List.getElem?_eq_some_iff.1 hi
    refine (List.findIdx?_eq_some_iff_getElem.2 ⟨hlt, by rwa [hget], fun j hj => ?_⟩).symm
    -- a bucket before that holds the query would have been accepted first
    intro hheld
    have hn : (UInt32.ofNat j).toNat = j := UInt32.toNat_ofNat_of_lt' (hj.trans (hlt.trans hlen))
    have hjl : j < l.length := hj.trans hlt
    have hget : l[(UInt32.ofNat j).toNat]? = some l[j] := by
      rw [hn]
      exact List.getElem?_eq_getElem hjl
    have hhash : l[j].hash = q.hash := by
      rw [Bucket.holds, Bool.and_eq_true] at hheld
      exact beq_iff_eq.1 hheld.1
    have hle := IndexTable.le_of_find?_of_pairwise hsorted hf ((hmem _).2 ⟨_, hget, hhash⟩)
      (by rwa [accepts_of_holds hget hhash])
    rw [UInt32.le_iff_toNat_le, hn] at hle
    omega

omit [HashKey Q] [Equivalent Q K] in
theorem index_of_createIndex (h : m.createIndex = .ok m') :
    ∃ t, m' = { m with index := some t } ∧
      IndexTable.rebuild {} m.list.hashes (.ofNat m.size) = .ok t := by
  obtain ⟨t, ht, h⟩ := Checked.bind_eq_ok_iff.1 h
  cases h
  exact ⟨t, rfl, ht⟩

theorem indexOf_of_createIndex (hi : m.index = none) (h : m.createIndex = .ok m')
    (q : Hashed Q) : m'.indexOfHashed? q = m.indexOfHashed? q := by
  obtain ⟨t, rfl, ht⟩ := index_of_createIndex h
  have hlen := (IndexTable.length_lt_of_rebuild ht).trans (show _ < 2 ^ 32 by decide)
  obtain ⟨is, his, hsorted, hmem⟩ :=
    IndexTable.search_of_rebuild ht q.hash (accepts m.buckets q) fun i hi => accepts_eq rfl hi
  rw [hashes_eq rfl, List.length_map] at hlen
  have hfind := find_of_pairwise hlen hsorted fun i => (hmem i).trans (getElem?_hashes rfl)
  rw [indexOf_listed hi rfl, ← hfind, indexOf_indexed rfl, IndexTable.find, his, Checked.map_ok,
    Checked.ok_bind, Search.among_found, Checked.pure_eq_ok]

variable [HashKey K] [BEq K]

theorem apply_of_createIndex (hi : m.index = none) (h : m.createIndex = .ok m')
    {e : Event Q K V} (he : e.isLookup = true) :
    Prod.fst <$> e.apply m' = Prod.fst <$> e.apply m := by
  have hindex : ∀ q : Hashed Q, m'.indexOfHashed? q = m.indexOfHashed? q :=
    indexOf_of_createIndex hi h
  obtain ⟨t, rfl, -⟩ := index_of_createIndex h
  have hget : ∀ q : Hashed Q, OrderedMap.getHashed? { m with index := some t } q =
      m.getHashed? q := fun q => by rw [getHashed?, hindex, getHashed?]
  cases e with
  | get q => simp [Event.apply, get?, hget]
  | getHashed q => simp [Event.apply, hget]
  | getFull q => simp [Event.apply, getFull?, indexOf?, hindex]
  | indexOf q => simp [Event.apply, indexOf?, hindex]
  | indexOfHashed q => simp [Event.apply, hindex]
  | contains q => simp [Event.apply, contains, containsHashed, hindex]
  | containsHashed q => simp [Event.apply, containsHashed, hindex]
  | find q =>
    have hend : ({ m with index := some t } : OrderedMap threshold K V).endCursor = m.endCursor :=
      rfl
    simp [Event.apply, find, indexOf?, hindex, hend]
  | valueAt q => simp [Event.apply, valueAt, get?, hget]
  | getIndex | first | last => rfl
  | _ => cases he

end Lookup

theorem isIndexed_of_reindexed {t : IndexTable} (h : m.reindexed t = .ok m') :
    m'.isIndexed = true := by
  obtain ⟨t', -, h⟩ := Checked.bind_eq_ok_iff.1 h
  cases h
  rfl

theorem isIndexed_of_reserve {additional : UInt32} (h : m.reserve additional = .ok m') :
    m'.isIndexed = (m.isIndexed || decide (threshold < UInt32.ofNat m.size + additional)) := by
  rw [reserve] at h
  by_cases hc : (!m.isIndexed && threshold < UInt32.ofNat m.size + additional) = true
  · rw [isIndexed_of_reindexed ((if_pos hc).symm.trans h)]
    rw [Bool.and_eq_true] at hc
    rw [hc.2, Bool.or_true]
  · cases (if_neg hc).symm.trans h
    cases hi : m.isIndexed with
    | true => exact hi
    | false =>
      rw [hi, Bool.not_false, Bool.true_and, Bool.not_eq_true] at hc
      rw [hc]
      exact hi

theorem isIndexed_of_pop [HashKey K] {popped : Option (K × V)} (h : m.pop = .ok (popped, m')) :
    m'.isIndexed = m.isIndexed := by
  rw [pop] at h
  by_cases he : m.isEmpty = true
  · cases (if_pos he).symm.trans h
    rfl
  · rw [if_neg he] at h
    cases hi : m.index with
    | none =>
      simp only [hi, Checked.ok_bind] at h
      obtain ⟨_, -, h⟩ := Checked.bind_eq_ok_iff.1 h
      cases h
      simp [isIndexed, hi]
    | some table =>
      simp only [hi] at h
      obtain ⟨b, -, h⟩ := Checked.bind_eq_ok_iff.1 h
      obtain ⟨index, hindex, h⟩ := Checked.bind_eq_ok_iff.1 h
      obtain ⟨t, -, rfl⟩ := Checked.map_eq_ok_iff.1 hindex
      obtain ⟨_, -, h⟩ := Checked.bind_eq_ok_iff.1 h
      cases h
      simp [isIndexed, hi]

theorem isIndexed_of_removeAt [HashKey K] {i : ℕ} {removed : Hashed K × V}
    (h : m.removeAt i = .ok (removed, m')) : m'.isIndexed = m.isIndexed := by
  obtain ⟨⟨_, rest⟩, -, h⟩ := Checked.bind_eq_ok_iff.1 h
  cases hi : m.index with
  | none =>
    simp only [hi] at h
    cases h
    simp [isIndexed, hi]
  | some table =>
    simp only [hi] at h
    obtain ⟨_, hm, h⟩ := Checked.bind_eq_ok_iff.1 h
    cases h
    rw [isIndexed_of_reindexed hm, isIndexed, hi]
    rfl

theorem isIndexed_of_arranged {s : BucketList.Arrangement K V} (h : m.arranged s = .ok m') :
    m'.isIndexed = m.isIndexed := by
  rw [arranged] at h
  cases hi : m.index with
  | none =>
    rw [hi] at h
    cases h
    simp [isIndexed, hi]
  | some table =>
    rw [hi] at h
    rw [isIndexed_of_reindexed h, isIndexed, hi]
    rfl

theorem isIndexed_of_append [HashKey K] {key : Hashed K} {value : V}
    (h : m.append key value = .ok m') :
    m'.isIndexed = (m.isIndexed || decide (threshold.toNat < m.size + 1)) := by
  cases hi : m.index with
  | none =>
    rw [append_listed hi] at h
    by_cases ht : threshold.toNat < m.size + 1
    · rw [if_pos ht] at h
      rw [isIndexed_of_reindexed h, decide_eq_true ht, Bool.or_true]
    · rw [if_neg ht] at h
      cases h
      simp [isIndexed, hi, ht]
  | some table =>
    rw [append_indexed hi] at h
    obtain ⟨t, -, h⟩ := Checked.bind_eq_ok_iff.1 h
    cases h
    simp [isIndexed, hi]

variable [HashKey K] [BEq K]

theorem Update.isIndexed (hu : Update m m') (hi : m.isIndexed = true) : m'.isIndexed = true := by
  cases hu with
  | stay | setValue => exact hi
  | append key value _ hm => rw [isIndexed_of_append hm, hi, Bool.true_or]
  | removeAt i hm => rw [isIndexed_of_removeAt hm, hi]
  | pop hm => rw [isIndexed_of_pop hm, hi]
  | clear => rwa [OrderedMap.isIndexed, OrderedMap.clear, Option.isSome_map]
  | sortKeys s hm => rw [isIndexed_of_arranged hm, hi]

theorem Change.isIndexed (hc : Change m m') (hi : m.isIndexed = true) : m'.isIndexed = true := by
  cases hc with
  | update hu => exact hu.isIndexed hi
  | reserve additional hm => rw [isIndexed_of_reserve hm, hi, Bool.true_or]

/-- An index comes into being last, for buckets that are already in their places. -/
theorem Change.switch (hc : Change m m') (hi : m.isIndexed = false) (hi' : m'.isIndexed = true) :
    ∃ listed : OrderedMap threshold K V, listed.index = none ∧ listed.createIndex = .ok m' ∧
      (listed.buckets = m.buckets ∨ ∃ b, listed.buckets = m.buckets ++ [b]) := by
  have hnone : m.index = none := Option.not_isSome_iff_eq_none.1 (Bool.eq_false_iff.1 hi)
  have hsame : m'.isIndexed ≠ m.isIndexed := by rw [hi, hi']; decide
  cases hc with
  | update hu =>
    cases hu with
    | stay | setValue => exact absurd rfl hsame
    | append key value _ hm =>
      rw [append_listed hnone] at hm
      by_cases ht : threshold.toNat < m.size + 1
      · rw [if_pos ht] at hm
        exact ⟨{ m with list := m.list.push key value }, hnone, hm,
          .inr ⟨⟨key.hash, key.key, value⟩, Array.toList_push⟩⟩
      · rw [if_neg ht] at hm
        cases hm
        exact absurd rfl hsame
    | removeAt i hm => exact absurd (isIndexed_of_removeAt hm) hsame
    | pop hm => exact absurd (isIndexed_of_pop hm) hsame
    | clear => exact absurd Option.isSome_map hsame
    | sortKeys s hm => exact absurd (isIndexed_of_arranged hm) hsame
  | reserve additional hm =>
    rw [OrderedMap.reserve] at hm
    by_cases hc : (!m.isIndexed && threshold < UInt32.ofNat m.size + additional) = true
    · exact ⟨{ m with list := m.list.reserve additional }, hnone, (if_pos hc).symm.trans hm,
        .inl rfl⟩
    · cases (if_neg hc).symm.trans hm
      exact absurd rfl hsame

/-- The map is indexed if it holds more entries than the threshold. -/
def Settled (m : OrderedMap threshold K V) : Prop := threshold.toNat < m.size → m.isIndexed = true

omit [HashKey K] [BEq K] in
theorem Settled.iff_of_le (hs : m.Settled) (hi : m'.isIndexed = m.isIndexed)
    (hle : m'.size ≤ m.size) :
    m'.isIndexed = true ↔ m.isIndexed = true ∨ threshold.toNat < m'.size := by
  rw [hi]
  exact ⟨.inl, fun h => h.elim id fun hlt => hs (hlt.trans_le hle)⟩

theorem Update.indexed_iff (hu : Update m m') (h : m.Kept) (hs : m.Settled) :
    m'.isIndexed = true ↔ m.isIndexed = true ∨ threshold.toNat < m'.size := by
  cases hu with
  | stay => exact hs.iff_of_le rfl le_rfl
  | setValue i value => exact hs.iff_of_le rfl (by simp [size, BucketList.size, OrderedMap.setValue,
      BucketList.setValue])
  | append key value _ hm =>
    have hsize : m'.size = m.size + 1 := by
      rw [size, list_of_append hm, BucketList.size_push, size]
    rw [isIndexed_of_append hm, hsize, Bool.or_eq_true, decide_eq_true_eq]
  | removeAt i hm =>
    refine hs.iff_of_le (isIndexed_of_removeAt hm) ?_
    rw [size_eq_length, size_eq_length, (h.of_removeAt hm).1]
    exact List.length_eraseIdx_le _ _
  | pop hm =>
    refine hs.iff_of_le (isIndexed_of_pop hm) ?_
    rw [size_eq_length, size_eq_length, (h.of_pop hm).1, List.length_dropLast]
    exact Nat.sub_le _ _
  | clear => exact hs.iff_of_le Option.isSome_map (Nat.zero_le _)
  | sortKeys s hm =>
    refine hs.iff_of_le (isIndexed_of_arranged hm) ?_
    rw [size_eq_length, size_eq_length, (h.of_arranged hm).1, (s.perm _).length_eq]

omit [BEq K] in
theorem indexed_iff_of_reserve (h : m.Kept) {n : UInt32} (hfits : m.size + n.toNat < 2 ^ 32)
    (hm : m.reserve n = .ok m') :
    m'.size = m.size ∧
      (m'.isIndexed = true ↔ m.isIndexed = true ∨ threshold.toNat < m.size + n.toNat) := by
  have hsum : (UInt32.ofNat m.size + n).toNat = m.size + n.toNat := by
    rw [UInt32.toNat_add, UInt32.toNat_ofNat_of_lt' (by change m.size < 2 ^ 32; omega)]
    exact Nat.mod_eq_of_lt hfits
  constructor
  · rw [size_eq_length, size_eq_length, (h.of_reserve hm).1]
  · rw [isIndexed_of_reserve hm, Bool.or_eq_true, decide_eq_true_eq, UInt32.lt_iff_toNat_lt, hsum]

def Request.Fits (m : OrderedMap threshold K V) (r : Request K V) : Prop :=
  ∀ n ∈ r.room?, m.size + n.toNat < 2 ^ 32

def Fits (m : OrderedMap threshold K V) : List (Request K V) → Prop
  | [] => True
  | r :: rs => Request.Fits m r ∧ ∀ m', r.apply m = .ok m' → m'.Fits rs

/-- At some point of the run there are more entries than the threshold, or room for so many is
asked for. -/
def Crossed (m : OrderedMap threshold K V) : List (Request K V) → Prop
  | [] => threshold.toNat < m.size
  | r :: rs => threshold.toNat < m.size ∨
      (∃ n ∈ r.room?, threshold.toNat < m.size + n.toNat) ∨ ∃ m', r.apply m = .ok m' ∧ m'.Crossed rs

theorem indexed_iff_of_request (h : m.Kept) (hs : m.Settled) {r : Request K V}
    (hfits : Request.Fits m r) (hm : r.apply m = .ok m') :
    m'.isIndexed = true ↔ m.isIndexed = true ∨ threshold.toNat < m'.size ∨
      ∃ n ∈ r.room?, threshold.toNat < m.size + n.toNat := by
  cases hroom : r.room? with
  | none =>
    simp only [Option.mem_def, reduceCtorEq, false_and, exists_false, or_false]
    rcases update_of_request hm hroom with hu | ⟨f, rfl⟩
    · exact hu.indexed_iff h hs
    · exact hs.iff_of_le rfl (by simp [size, BucketList.size, mapValues, BucketList.mapValues])
  | some n =>
    obtain ⟨hsize, hiff⟩ := indexed_iff_of_reserve h (hfits n hroom) (reserve_of_request hm hroom)
    simp only [Option.mem_def, Option.some.injEq, exists_eq_left', hiff, hsize]
    -- more entries than the threshold are more with room for others, too
    exact or_congr_right ⟨.inr, fun h => h.elim (fun hlt => by omega) id⟩

theorem kept_of_request (h : m.Kept) {r : Request K V} (hm : r.apply m = .ok m') : m'.Kept := by
  rcases change_of_request hm with hc | ⟨f, rfl⟩
  · exact hc.kept h
  · exact h.mapValues f

theorem crossed_of_lt {rs : List (Request K V)} (hlt : threshold.toNat < m.size) :
    m.Crossed rs := by
  cases rs with
  | nil => exact hlt
  | cons r rs => exact .inl hlt

theorem crossed_cons_iff {r : Request K V} {rs : List (Request K V)} (hm : r.apply m = .ok m') :
    m.Crossed (r :: rs) ↔ threshold.toNat < m.size ∨
      (∃ n ∈ r.room?, threshold.toNat < m.size + n.toNat) ∨ m'.Crossed rs := by
  rw [Crossed, hm]
  simp

theorem indexed_iff_of_serve (h : m.Kept) (hs : m.Settled) {rs : List (Request K V)}
    (hfits : m.Fits rs) (hm : m.serve rs = .ok m') :
    m'.isIndexed = true ↔ m.isIndexed = true ∨ m.Crossed rs := by
  induction rs generalizing m with
  | nil =>
    cases hm
    exact ⟨.inl, fun h => h.elim id hs⟩
  | cons r rs ih =>
    obtain ⟨m₁, hm₁, hm⟩ := Checked.bind_eq_ok_iff.1 hm
    have hstep := indexed_iff_of_request h hs hfits.1 hm₁
    have hs₁ : m₁.Settled := fun hlt => hstep.2 (.inr (.inl hlt))
    rw [ih (kept_of_request h hm₁) hs₁ (hfits.2 m₁ hm₁) hm, hstep, crossed_cons_iff hm₁]
    constructor
    · rintro ((hi | hlt | hroom) | hcrossed)
      · exact .inl hi
      · exact .inr (.inr (.inr (crossed_of_lt hlt)))
      · exact .inr (.inr (.inl hroom))
      · exact .inr (.inr (.inr hcrossed))
    · rintro (hi | hlt | hroom | hcrossed)
      · exact .inl (.inl hi)
      · exact .inl (.inl (hs hlt))
      · exact .inl (.inr (.inr hroom))
      · exact .inr hcrossed

def inserts (entries : List (K × V)) : List (Request K V) :=
  entries.map fun (key, value) => .event (.insert key value : Event K K V)

theorem insertAll_eq_serve (m : OrderedMap threshold K V) (entries : List (K × V)) :
    m.insertAll entries = m.serve (inserts entries) := by
  induction entries generalizing m with
  | nil => rfl
  | cons entry entries ih =>
    obtain ⟨key, value⟩ := entry
    rw [insertAll, inserts, List.map_cons, serve, Request.apply, Event.apply]
    cases m.insert key value with
    | error fault => rfl
    | ok outcome => exact ih outcome.2

theorem ofList_eq_serve (entries : List (K × V)) :
    (ofList entries : Checked (OrderedMap threshold K V)) = serve {} (inserts entries) :=
  insertAll_eq_serve {} entries

theorem ofSizedList_eq_serve (entries : List (K × V)) :
    (ofSizedList entries : Checked (OrderedMap threshold K V)) =
      serve {} (.event (.reserve (.ofNat entries.length) : Event K K V) :: inserts entries) := by
  rw [ofSizedList, withCapacity, serve, Request.apply, Event.apply]
  cases reserve ({} : OrderedMap threshold K V) (.ofNat entries.length) with
  | error fault => rfl
  | ok m => exact insertAll_eq_serve m entries

theorem fits_inserts (m : OrderedMap threshold K V) (entries : List (K × V)) :
    m.Fits (inserts entries) := by
  induction entries generalizing m with
  | nil => trivial
  | cons entry entries ih => exact ⟨fun n hn => (by cases hn), fun m' _ => ih m'⟩

theorem fits_sized (entries : List (K × V)) :
    Fits ({} : OrderedMap threshold K V)
      (.event (.reserve (.ofNat entries.length) : Event K K V) :: inserts entries) := by
  refine ⟨fun n hn => ?_, fun m' _ => fits_inserts m' entries⟩
  rw [show ({} : OrderedMap threshold K V).size = 0 from rfl, Nat.zero_add]
  exact n.toNat_lt

end OrderedMap

end StackCode
