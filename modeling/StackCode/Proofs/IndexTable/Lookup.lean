import Mathlib
import StackCode.Proofs.IndexTable.Gap

/-! The table as an index of a sequence of hashes: the marks are the pairs of hash and position.
Runs of operations keep this, so that a search asks about exactly the positions with its hash. -/
namespace StackCode.IndexTable

variable {t : IndexTable} {hs : List HashCode}

def entriesOf (hs : List HashCode) : List Slot := hs.mapIdx fun i h => .entry h (.ofNat i)

theorem entriesOf_append_singleton (hs : List HashCode) (hash : HashCode) :
    entriesOf (hs ++ [hash]) = entriesOf hs ++ [.entry hash (.ofNat hs.length)] := by
  simp [entriesOf, List.mapIdx_append]

theorem length_entriesOf (hs : List HashCode) : (entriesOf hs).length = hs.length := by
  simp [entriesOf]

theorem ofNat_add_one_ne_zero {n : ℕ} (h : n + 1 < 2 ^ 32) : UInt32.ofNat n + 1 ≠ 0 := by
  intro he
  have hn := congrArg UInt32.toNat he
  rw [UInt32.toNat_add, UInt32.toNat_ofNat_of_lt' (by simp [UInt32.size]; omega)] at hn
  change (n + 1) % 2 ^ 32 = 0 at hn
  omega

theorem mem_entriesOf {s : Slot} :
    s ∈ entriesOf hs ↔ ∃ i hash, hs[i]? = some hash ∧ s = .entry hash (.ofNat i) := by
  rw [entriesOf, List.mem_mapIdx]
  constructor
  · rintro ⟨i, hi, he⟩
    exact ⟨i, hs[i], List.getElem?_eq_getElem hi, he.symm⟩
  · rintro ⟨i, hash, hi, he⟩
    obtain ⟨hlt, rfl⟩ := List.getElem?_eq_some_iff.1 hi
    exact ⟨i, hlt, he.symm⟩

theorem nodup_tags_entriesOf (h : hs.length < 2 ^ 32) : ((entriesOf hs).map Slot.tag).Nodup := by
  have hm : (entriesOf hs).map Slot.tag =
      (List.range hs.length).map fun i => UInt32.ofNat i + 1 := by
    apply List.ext_getElem?
    intro i
    simp only [entriesOf, List.getElem?_map, List.getElem?_mapIdx]
    by_cases hi : i < hs.length
    · simp [hi, Slot.entry]
    · simp [hi]
  rw [hm]
  refine List.Nodup.map_on (fun i hi j hj hij => ?_) List.nodup_range
  have hn := congrArg UInt32.toNat (add_right_cancel hij)
  rw [List.mem_range] at hi hj
  rwa [UInt32.toNat_ofNat_of_lt' (hi.trans h), UInt32.toNat_ofNat_of_lt' (hj.trans h)] at hn

theorem mem_candidates {slots : Array Slot} (hc : Chained slots) {hash : HashCode} {k : ℕ}
    (hr : Run slots (home slots hash) k) {i : UInt32} :
    i ∈ candidates slots hash (home slots hash) k ↔
      ∃ s ∈ marks slots, s.hash = hash ∧ s.position = i := by
  simp only [candidates, List.mem_map, List.mem_filter, List.mem_range, decide_eq_true_eq]
  constructor
  · rintro ⟨_, ⟨⟨j, hj, rfl⟩, hh⟩, rfl⟩
    exact ⟨_, mem_marks.2 ⟨_, hr.taken j hj, rfl⟩, hh, rfl⟩
  · rintro ⟨s, hs, rfl, rfl⟩
    obtain ⟨p, hp, rfl⟩ := mem_marks.1 hs
    obtain ⟨j, hj, hpj, ht⟩ := hc p hp
    refine ⟨_, ⟨⟨j, ?_, by rw [← hpj]⟩, rfl⟩, rfl⟩
    -- the chain ends before the vacancy, since the mark itself is no vacancy
    by_contra hjk
    rcases Nat.lt_or_eq_of_le (Nat.le_of_not_lt hjk) with hlt | rfl
    · exact hr.vacant (ht k hlt)
    · exact hr.vacant (hpj ▸ hp)

theorem nodup_candidates {slots : Array Slot} (hn : ((marks slots).map Slot.tag).Nodup)
    {hash : HashCode} {a k : ℕ} (ha : a < slots.size) (hk : k < slots.size) (hr : Run slots a k) :
    (candidates slots hash a k).Nodup := by
  rw [candidates, List.filter_map, List.map_map]
  refine List.Nodup.map_on ?_ (List.nodup_range.filter _)
  intro i hi j hj hij
  have hik : i < k := List.mem_range.1 (List.mem_filter.1 hi).1
  have hjk : j < k := List.mem_range.1 (List.mem_filter.1 hj).1
  have htag : (look slots (ahead slots a i)).tag = (look slots (ahead slots a j)).tag :=
    sub_left_injective (hij : (look slots (ahead slots a i)).tag - 1 = _ - 1)
  exact ahead_injective ha (hik.trans hk) (hjk.trans hk)
    (eq_of_tag_eq hn (hr.taken i hik) (hr.taken j hjk) htag)

theorem exists_mem_entriesOf_iff (hlen : hs.length < 2 ^ 32) {hash : HashCode} {i : UInt32} :
    (∃ s ∈ entriesOf hs, s.hash = hash ∧ s.position = i) ↔ hs[i.toNat]? = some hash := by
  constructor
  · rintro ⟨s, hs', hh, hi⟩
    obtain ⟨j, hash', hj, rfl⟩ := mem_entriesOf.1 hs'
    rw [Slot.hash_entry] at hh
    rw [Slot.position_entry] at hi
    have hlt := (List.getElem?_eq_some_iff.1 hj).1.trans hlen
    rw [← hi, UInt32.toNat_ofNat_of_lt' hlt, hj, hh]
  · intro hi
    refine ⟨.entry hash i, mem_entriesOf.2 ⟨i.toNat, hash, hi, ?_⟩,
      Slot.hash_entry hash i, Slot.position_entry hash i⟩
    rw [UInt32.ofNat_toNat]

theorem Keeps.mem_marks_iff (h : t.Keeps (entriesOf hs)) (hlen : hs.length < 2 ^ 32)
    {hash : HashCode} {i : UInt32} :
    (∃ s ∈ marks t.slots, s.hash = hash ∧ s.position = i) ↔ hs[i.toNat]? = some hash := by
  rw [← exists_mem_entriesOf_iff hlen]
  exact exists_congr fun s => and_congr_left' h.marks_perm.mem_iff

theorem Keeps.search (h : t.Keeps (entriesOf hs)) (hv : HasVacancy t.slots)
    (hlen : hs.length < 2 ^ 32) (hash : HashCode) {accepts : UInt32 → Checked Bool}
    (good : UInt32 → Bool)
    (hacc : ∀ i : UInt32, hs[i.toNat]? = some hash → accepts i = .ok (good i)) :
    ∃ is : List UInt32, t.search hash accepts = .ok (.among good is) ∧ is.Nodup ∧
      ∀ i : UInt32, i ∈ is ↔ hs[i.toNat]? = some hash := by
  have hhome := home_lt h.size_pos hash
  have hn : ((marks t.slots).map Slot.tag).Nodup :=
    (h.marks_perm.map Slot.tag).nodup_iff.2 (nodup_tags_entriesOf hlen)
  obtain ⟨k, hk, hr⟩ := exists_run hv hhome
  have hmem : ∀ i : UInt32, i ∈ candidates t.slots hash (home t.slots hash) k ↔
      hs[i.toNat]? = some hash :=
    fun i => (mem_candidates h.chained hr).trans (h.mem_marks_iff hlen)
  refine ⟨_, ?_, nodup_candidates hn hhome hk hr, hmem⟩
  rw [search_eq_searchFrom h.size_pos]
  exact searchFrom_eq hr hk hhome fun i hi => hacc i ((hmem i).1 hi)

/-- The table indexes these hashes, each at its position. -/
def Represents (t : IndexTable) (hs : List HashCode) : Prop := t.Holds (entriesOf hs)

theorem Represents.search (h : t.Represents hs) (hlen : hs.length < 2 ^ 32) (hash : HashCode)
    {accepts : UInt32 → Checked Bool} (good : UInt32 → Bool)
    (hacc : ∀ i : UInt32, hs[i.toNat]? = some hash → accepts i = .ok (good i)) :
    ∃ is : List UInt32, t.search hash accepts = .ok (.among good is) ∧ is.Nodup ∧
      ∀ i : UInt32, i ∈ is ↔ hs[i.toNat]? = some hash :=
  h.keeps.search (h.keeps.hasVacancy h.length_lt) hlen hash good hacc

theorem Represents.insert (h : t.Represents hs) (hash : HashCode)
    (hlen : hs.length + 1 < maxEntries) :
    ∃ t', t.insert hash (.ofNat hs.length) = .ok t' ∧ t'.Represents (hs ++ [hash]) := by
  obtain ⟨t', ht', hh⟩ := Records.insert (Or.inr h) hash
    (ofNat_add_one_ne_zero (hlen.trans (by decide))) (by rwa [length_entriesOf])
  exact ⟨t', ht', by rwa [Represents, entriesOf_append_singleton]⟩

theorem Represents.eraseLast {hash : HashCode} (h : t.Represents (hs ++ [hash]))
    (hlen : hs.length + 1 < 2 ^ 32) :
    ∃ t', t.eraseLast hash (.ofNat hs.length) = .ok t' ∧ t'.Represents hs := by
  have hn : ((entriesOf (hs ++ [hash])).map Slot.tag).Nodup :=
    nodup_tags_entriesOf (by simpa using hlen)
  have hsize := h.size_eq
  rw [length_entriesOf, List.length_append, List.length_singleton] at hsize
  rw [Represents, entriesOf_append_singleton] at h
  rw [entriesOf_append_singleton] at hn
  refine h.eraseLast hn (UInt32.toNat_inj.1 ?_)
  rw [UInt32.toNat_add, UInt32.toNat_ofNat_of_lt' (by simp [UInt32.size]; omega), hsize]
  exact Nat.mod_eq_of_lt hlen

theorem Represents.placeFrom (h : t.Represents hs) (rest : List HashCode)
    (hload : 8 * (hs.length + rest.length) < 7 * t.slots.size)
    (hlen : hs.length + rest.length < 2 ^ 32) :
    ∃ t', t.placeFrom (.ofNat hs.length) rest = .ok t' ∧ t'.Represents (hs ++ rest) := by
  induction rest generalizing t hs with
  | nil => exact ⟨t, rfl, by simpa using h⟩
  | cons hash rest ih =>
    rw [List.length_cons] at hload hlen
    have hpos : UInt32.ofNat hs.length + 1 ≠ 0 := ofNat_add_one_ne_zero (by omega)
    obtain ⟨t₁, ht₁, hsize, hh⟩ := Holds.place h hash hpos (by rw [length_entriesOf]; omega)
      (by rw [length_entriesOf]; omega)
    rw [← entriesOf_append_singleton] at hh
    have hl : (hs ++ [hash]).length = hs.length + 1 := by simp
    obtain ⟨t', ht', hh'⟩ := ih hh (by rw [hl, hsize]; omega) (by rw [hl]; omega)
    refine ⟨t', ?_, by simpa using hh'⟩
    rw [hl, UInt32.ofNat_add] at ht'
    simpa [IndexTable.placeFrom, ht₁] using ht'

theorem rebuild_represents (t : IndexTable) (hlen : hs.length < maxEntries) :
    ∃ t', t.rebuild hs (.ofNat hs.length) = .ok t' ∧ t'.Represents hs := by
  have hcount : (UInt32.ofNat hs.length).toNat = hs.length :=
    UInt32.toNat_ofNat_of_lt' (hlen.trans (by decide))
  have hload : 8 * (UInt32.ofNat hs.length).toNat < 7 * (capacityFor (.ofNat hs.length)).toNat :=
    load_capacityFor (by rwa [hcount])
  have hempty : (t.reset (.ofNat hs.length)).Represents [] := reset_holds t _
  obtain ⟨t', ht', hh⟩ := hempty.placeFrom hs
    (by simpa [reset, hcount] using hload) (by simpa using hlen.trans (by decide))
  refine ⟨t', ?_, by simpa using hh⟩
  change (t.reset (.ofNat hs.length)).placeFrom 0 hs = .ok t' at ht'
  simp [rebuild, ht']

end StackCode.IndexTable
