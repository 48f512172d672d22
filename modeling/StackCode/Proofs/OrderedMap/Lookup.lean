import Mathlib
import StackCode.Proofs.Key.Lawful
import StackCode.Proofs.OrderedMap.Indexing

/-! Lookups with and without the index. In a sound map both find a bucket that holds the query if
there is one; where the keys are distinct there is at most one, so both agree with a search of the
buckets from the front. -/
namespace StackCode

variable {threshold : UInt32} {Q K V : Type}

namespace PlainMap

variable {l : PlainMap K V}

def Distinct [HashKey K] [BEq K] (l : PlainMap K V) : Prop :=
  (l.map Bucket.key).Pairwise fun k k' => ¬Matches k k'

def Canonical [HashKey K] (l : PlainMap K V) : Prop := ∀ b ∈ l, b.hash = hashOf b.key

variable [HashKey Q] [Equivalent Q K] {q : Hashed Q} {i : ℕ}

theorem getElem?_of_find (hf : l.find q = some i) : ∃ b, l[i]? = some b ∧ b.holds q = true := by
  obtain ⟨hlt, hb, -⟩ := List.findIdx?_eq_some_iff_getElem.1 hf
  exact ⟨l[i], List.getElem?_eq_getElem hlt, hb⟩

theorem not_holds_of_find (hf : l.find q = none) : ∀ b ∈ l, b.holds q = false :=
  List.findIdx?_eq_none_iff.1 hf

theorem Distinct.eq_of_holds [HashKey K] [BEq K] [LawfulQuery Q K] (h : l.Distinct)
    (hc : l.Canonical) {i j : ℕ} {b c : Bucket K V} (hi : l[i]? = some b) (hj : l[j]? = some c)
    (hb : b.holds q = true) (hq : c.holds q = true) : i = j := by
  have hqb := (Bucket.holds_iff (hc b (List.mem_of_getElem? hi)) q).1 hb
  have hqc := (Bucket.holds_iff (hc c (List.mem_of_getElem? hj)) q).1 hq
  have hki : (l.map Bucket.key)[i]? = some b.key := by rw [List.getElem?_map, hi, Option.map_some]
  have hkj : (l.map Bucket.key)[j]? = some c.key := by rw [List.getElem?_map, hj, Option.map_some]
  obtain ⟨hli, hki⟩ := List.getElem?_eq_some_iff.1 hki
  obtain ⟨hlj, hkj⟩ := List.getElem?_eq_some_iff.1 hkj
  have hd := List.pairwise_iff_getElem.1 h
  rcases Nat.lt_trichotomy i j with hlt | heq | hlt
  · have hne := hd i j hli hlj hlt
    rw [hki, hkj] at hne
    exact absurd (LawfulQuery.same hqb hqc) hne
  · exact heq
  · have hne := hd j i hlj hli hlt
    rw [hki, hkj] at hne
    exact absurd (LawfulQuery.same hqc hqb) hne

variable [HashKey K]

theorem Distinct.find_eq_some_iff [BEq K] [LawfulQuery Q K] (h : l.Distinct) (hc : l.Canonical) :
    l.find q = some i ↔ ∃ b, l[i]? = some b ∧ Matches q.key b.key := by
  constructor
  · intro hf
    obtain ⟨b, hi, hb⟩ := getElem?_of_find hf
    exact ⟨b, hi, (Bucket.holds_iff (hc b (List.mem_of_getElem? hi)) q).1 hb⟩
  · rintro ⟨b, hi, hmatches⟩
    have hmem := List.mem_of_getElem? hi
    have hb := (Bucket.holds_iff (hc b hmem) q).2 hmatches
    cases hf : l.find q with
    | none =>
      rw [not_holds_of_find hf b hmem] at hb
      cases hb
    | some j =>
      obtain ⟨c, hj, hholds⟩ := getElem?_of_find hf
      rw [h.eq_of_holds hc hj hi hholds hb]

theorem Canonical.find_eq_none_iff (hc : l.Canonical) :
    l.find q = none ↔ ∀ b ∈ l, ¬Matches q.key b.key := by
  rw [find, List.findIdx?_eq_none_iff]
  refine forall₂_congr fun b hb => ?_
  rw [← Bucket.holds_iff (hc b hb), Bool.not_eq_true]

end PlainMap

namespace OrderedMap

section Buckets

variable {m : OrderedMap threshold K V} {l : PlainMap K V}

theorem bucketAt_of_getElem? (hl : m.list.buckets.toList = l) {i : ℕ} {b : Bucket K V}
    (hi : l[i]? = some b) : m.list.bucketAt i = .ok b := by
  rw [BucketList.bucketAt_eq_ok_iff, ← Array.getElem?_toList, hl, hi]

theorem hashes_eq (hl : m.list.buckets.toList = l) : m.list.hashes = l.map Bucket.hash := by
  rw [BucketList.hashes, hl]

theorem getElem?_hashes (hl : m.list.buckets.toList = l) {i : ℕ} {hash : HashCode} :
    m.list.hashes[i]? = some hash ↔ ∃ b, l[i]? = some b ∧ b.hash = hash := by
  rw [hashes_eq hl, List.getElem?_map, Option.map_eq_some_iff]

end Buckets

variable [HashKey Q] [Equivalent Q K] {m : OrderedMap threshold K V} {l : PlainMap K V}

def accepts (l : PlainMap K V) (q : Hashed Q) (i : UInt32) : Bool :=
  match l[i.toNat]? with
  | none => false
  | some b => equivalent q.key b.key

theorem accepts_of_holds {q : Hashed Q} {i : UInt32} {b : Bucket K V} (hi : l[i.toNat]? = some b)
    (hash : b.hash = q.hash) : accepts l q i = b.holds q := by
  simp only [accepts, hi, Bucket.holds, hash, beq_self_eq_true, Bool.true_and]

theorem accepts_eq (hl : m.list.buckets.toList = l) {q : Hashed Q} {i : UInt32}
    (hi : m.list.hashes[i.toNat]? = some q.hash) :
    (do return equivalent q.key (← m.list.bucketAt i.toNat).key) = Except.ok (accepts l q i) := by
  obtain ⟨b, hb, -⟩ := (getElem?_hashes hl).1 hi
  simp [accepts, hb, bucketAt_of_getElem? hl hb]

theorem holds_of_accepts (hlen : l.length < 2 ^ 32) {q : Hashed Q} {is : List UInt32}
    (hmem : ∀ i : UInt32, i ∈ is ↔ ∃ b, l[i.toNat]? = some b ∧ b.hash = q.hash) :
    (∀ i, is.find? (accepts l q) = some i → ∃ b, l[i.toNat]? = some b ∧ b.holds q = true) ∧
      (is.find? (accepts l q) = none → ∀ b ∈ l, b.holds q = false) := by
  constructor
  · intro i hi
    obtain ⟨b, hb, hash⟩ := (hmem i).1 (List.mem_of_find?_eq_some hi)
    refine ⟨b, hb, ?_⟩
    rw [← accepts_of_holds hb hash]
    exact List.find?_some hi
  · intro hnone b hb
    rw [List.find?_eq_none] at hnone
    obtain ⟨i, hi⟩ := List.getElem?_of_mem hb
    have hlt : i < 2 ^ 32 := (List.getElem?_eq_some_iff.1 hi).1.trans hlen
    have hn : (UInt32.ofNat i).toNat = i := UInt32.toNat_ofNat_of_lt' hlt
    rw [← hn] at hi
    -- a bucket with another hash does not hold the query, whatever its key
    by_cases hash : b.hash = q.hash
    · rw [← accepts_of_holds hi hash]
      exact Bool.eq_false_iff.2 (hnone _ ((hmem _).2 ⟨b, hi, hash⟩))
    · rw [Bucket.holds, beq_eq_false_iff_ne.2 hash, Bool.false_and]

theorem indexOf_listed (hi : m.index = none) (hl : m.list.buckets.toList = l) (q : Hashed Q) :
    m.indexOfHashed? q = .ok (l.find q) := by
  rw [indexOfHashed?, hi, ← hl, PlainMap.find, ← List.findIdx?_toArray]
  rfl

theorem indexOf_indexed {t : IndexTable} (hi : m.index = some t) (q : Hashed Q) :
    m.indexOfHashed? q = do
      let found ← t.find q.hash fun i => do return equivalent q.key (← m.list.bucketAt i.toNat).key
      return found.map UInt32.toNat := by
  rw [indexOfHashed?, hi]

theorem bucket_of_indexOf {q : Hashed Q} {i : ℕ} (h : m.indexOfHashed? q = .ok (some i)) :
    ∃ b, m.list.bucketAt i = .ok b := by
  cases hi : m.index with
  | none =>
    rw [indexOf_listed hi rfl] at h
    cases hf : m.buckets.find q with
    | none =>
      rw [hf] at h
      cases h
    | some j =>
      obtain ⟨b, hb, -⟩ := PlainMap.getElem?_of_find hf
      rw [hf] at h
      cases h
      exact ⟨b, bucketAt_of_getElem? rfl hb⟩
  | some t =>
    rw [indexOf_indexed hi] at h
    obtain ⟨found, hfound, h⟩ := Checked.bind_eq_ok_iff.1 h
    cases found with
    | none => cases h
    | some j =>
      cases h
      obtain ⟨b, hb, -⟩ := Checked.bind_eq_ok_iff.1 (IndexTable.accepted_of_find hfound)
      exact ⟨b, hb⟩

variable [HashKey K]

/-- A search finds a bucket that holds the query, or there is none. -/
theorem Sound.indexOf (h : m.Sound) (hl : m.list.buckets.toList = l) (q : Hashed Q) :
    ∃ found, m.indexOfHashed? q = .ok found ∧
      (∀ i, found = some i → ∃ b, l[i]? = some b ∧ b.holds q = true) ∧
      (found = none → ∀ b ∈ l, b.holds q = false) := by
  cases ht : m.index with
  | none =>
    exact ⟨_, indexOf_listed ht hl q, fun i hi => PlainMap.getElem?_of_find hi,
      PlainMap.not_holds_of_find⟩
  | some t =>
    have hlen := h.length_hashes_lt
    obtain ⟨is, his, -, hmem⟩ :=
      (h.indexed t ht).search hlen q.hash (accepts l q) fun i hi => accepts_eq hl hi
    rw [hashes_eq hl, List.length_map] at hlen
    obtain ⟨hsome, hnone⟩ := holds_of_accepts hlen fun i => (hmem i).trans (getElem?_hashes hl)
    refine ⟨(is.find? (accepts l q)).map UInt32.toNat, ?_, ?_, ?_⟩
    · rw [indexOf_indexed ht, IndexTable.find, his, Checked.map_ok, Checked.ok_bind,
        Search.among_found, Checked.pure_eq_ok]
    · intro i hi
      obtain ⟨j, hj, rfl⟩ := Option.map_eq_some_iff.1 hi
      exact hsome j hj
    · exact fun hi => hnone (Option.map_eq_none_iff.1 hi)

end OrderedMap

namespace OrderedMap

variable [HashKey K] [BEq K] {m : OrderedMap threshold K V} {l : PlainMap K V}

/-- The plain map has the same buckets, and their keys are distinct. -/
structure Mirrors (m : OrderedMap threshold K V) (l : PlainMap K V) : Prop where
  sound : m.Sound
  buckets : m.list.buckets.toList = l
  distinct : l.Distinct

namespace Mirrors

theorem size_eq (h : Mirrors m l) : m.size = l.length := by
  rw [size, BucketList.size_eq_length, h.buckets]

theorem entries_eq (h : Mirrors m l) : m.entries = l.map Bucket.entry := by
  rw [entries, BucketList.entries, h.buckets]

theorem getIndex (h : Mirrors m l) (i : ℕ) : m.getIndex? i = l[i]?.map Bucket.entry := by
  rw [getIndex?, BucketList.getIndex?, ← Array.getElem?_toList, h.buckets]

theorem first (h : Mirrors m l) : m.first? = l.head?.map Bucket.entry := by
  rw [first?, h.getIndex, List.head?_eq_getElem?]

theorem last (h : Mirrors m l) : m.last? = l.getLast?.map Bucket.entry := by
  rw [last?, h.size_eq, h.getIndex, List.getLast?_eq_getElem?]
  by_cases he : m.isEmpty = true
  · have hnil : l = [] := by
      rw [← h.buckets]
      simpa [isEmpty, BucketList.isEmpty] using he
    simp [he, hnil]
  · rw [if_neg he]

variable [HashKey Q] [Equivalent Q K]

theorem holds_iff (h : Mirrors m l) {b : Bucket K V} (hb : b ∈ l) (q : Hashed Q) :
    b.holds q = true ↔ Matches q.key b.key :=
  Bucket.holds_iff (h.sound.canonical b (by rwa [h.buckets])) q

variable [LawfulQuery Q K]

theorem indexOf (h : Mirrors m l) (q : Hashed Q) : m.indexOfHashed? q = .ok (l.find q) := by
  obtain ⟨found, hfound, hsome, hnone⟩ := h.sound.indexOf h.buckets q
  rw [hfound]
  congr 1
  cases hf : l.find q with
  | none =>
    cases found with
    | none => rfl
    | some i =>
      obtain ⟨b, hi, hb⟩ := hsome i rfl
      rw [PlainMap.not_holds_of_find hf b (List.mem_of_getElem? hi)] at hb
      cases hb
  | some i =>
    obtain ⟨b, hi, hb⟩ := PlainMap.getElem?_of_find hf
    cases found with
    | none =>
      rw [hnone rfl b (List.mem_of_getElem? hi)] at hb
      cases hb
    | some j =>
      obtain ⟨c, hj, hc⟩ := hsome j rfl
      rw [h.distinct.eq_of_holds (h.buckets ▸ h.sound.canonical) hi hj hb hc]

theorem get (h : Mirrors m l) (q : Hashed Q) : m.getHashed? q = .ok (l.get q) := by
  rw [getHashed?, h.indexOf q, PlainMap.get]
  cases hf : l.find q with
  | none => rfl
  | some i =>
    obtain ⟨b, hi, -⟩ := PlainMap.getElem?_of_find hf
    simp [bucketAt_of_getElem? h.buckets hi, hi]

theorem getFull (h : Mirrors m l) (q : Q) : m.getFull? q = .ok (l.getFull (.of q)) := by
  rw [getFull?, indexOf?, h.indexOf, PlainMap.getFull]
  cases hf : l.find (.of q) with
  | none => rfl
  | some i =>
    obtain ⟨b, hi, -⟩ := PlainMap.getElem?_of_find hf
    simp [bucketAt_of_getElem? h.buckets hi, hi]

theorem contains (h : Mirrors m l) (q : Hashed Q) :
    m.containsHashed q = .ok (l.find q).isSome := by
  rw [containsHashed, h.indexOf q, Checked.map_ok]

theorem find (h : Mirrors m l) (q : Q) :
    m.find q = .ok ⟨((l.find (.of q)).getD l.length : ℕ)⟩ := by
  rw [OrderedMap.find, indexOf?, h.indexOf]
  cases hf : l.find (.of q) with
  | none => simp [endCursor, h.size_eq]
  | some i => simp [Cursor.start, Cursor.move]

theorem valueAt (h : Mirrors m l) (q : Q) :
    m.valueAt q = .ok ((l.get (.of q)).elim (.error .key) .ok) := by
  rw [OrderedMap.valueAt, get?, h.get]
  cases l.get (Hashed.of q) with
  | none => rfl
  | some value => rfl

end Mirrors

end OrderedMap

end StackCode
