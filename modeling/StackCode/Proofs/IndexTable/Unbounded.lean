import Mathlib
import StackCode.Proofs.IndexTable.Lookup

/-! Tables of any number of entries. Past `maxEntries` the slots are fewer than the load allows: a
rebuild then fails for want of slots, and in a table without a vacancy the search for an absent
entry has no end. But where an operation succeeds, it leaves the marks it should, and where a search
does, it is right. -/
namespace StackCode.IndexTable

variable {t t' : IndexTable} {hs : List HashCode} {ms : List Slot} {hash : HashCode}

theorem Keeps.length_le (h : t.Keeps ms) : ms.length ≤ t.slots.size := by
  rw [← h.marks_perm.length_eq, ← Array.length_toList]
  exact List.length_filter_le _ _

theorem Keeps.of_place (h : t.Keeps ms) (hc : t.slots.size ≤ 2 ^ 31) {position : UInt32}
    (hpos : position + 1 ≠ 0) (hp : t.place hash position = .ok t') :
    t'.slots.size = t.slots.size ∧ t'.Keeps (ms ++ [.entry hash position]) := by
  obtain ⟨_, hroom, -⟩ := Checked.bind_eq_ok_iff.1 hp
  rw [Checked.require_eq_ok_iff, decide_eq_true_eq, h.size_eq] at hroom
  obtain ⟨t₁, ht₁, hsize, hk⟩ := h.place hash hpos hroom (by omega)
  cases ht₁.symm.trans hp
  exact ⟨hsize, hk⟩

theorem placeAll_preserves {P : IndexTable → List Slot → Prop}
    (hstep : ∀ {t t' ms s}, P t ms → s.isEmpty = false → t.place s.hash s.position = .ok t' →
      P t' (ms ++ [s]))
    {ss : List Slot} (h : P t ms)
    (hf : ss.foldlM (fun larger s =>
      if s.isEmpty then Except.ok larger else larger.place s.hash s.position) t = .ok t') :
    P t' (ms ++ ss.filter (!·.isEmpty)) := by
  induction ss generalizing t ms with
  | nil =>
    cases hf
    rwa [List.filter_nil, List.append_nil]
  | cons s ss ih =>
    rw [List.foldlM_cons] at hf
    by_cases hs : s.isEmpty = true
    · rw [if_pos hs, Checked.ok_bind] at hf
      rw [List.filter_cons_of_neg (by simp [hs])]
      exact ih h hf
    · rw [if_neg hs] at hf
      obtain ⟨t₁, ht₁, hf⟩ := Checked.bind_eq_ok_iff.1 hf
      have hrest := ih (hstep h (Bool.eq_false_iff.2 hs) ht₁) hf
      rw [List.append_assoc, List.singleton_append] at hrest
      rwa [List.filter_cons_of_pos (by simpa using hs)]

theorem Keeps.of_place_mark (h : t.Keeps ms) (hc : t.slots.size ≤ 2 ^ 31) {s : Slot}
    (hs : s.isEmpty = false) (hp : t.place s.hash s.position = .ok t') :
    t'.slots.size = t.slots.size ∧ t'.Keeps (ms ++ [s]) := by
  have hplaced := h.of_place hc (Slot.position_add_one_ne_zero hs) hp
  rwa [Slot.entry_hash_position] at hplaced

theorem grow_preserves {P : IndexTable → List Slot → Prop}
    (hstep : ∀ {t t' ms s}, P t ms → s.isEmpty = false → t.place s.hash s.position = .ok t' →
      P t' (ms ++ [s]))
    (h : P (withCapacity t.capacity) []) (hg : t.grow = .ok t') : P t' (marks t.slots) := by
  rw [grow, ← Array.foldlM_toList] at hg
  exact placeAll_preserves hstep h hg

theorem placeFrom_preserves {P : IndexTable → List HashCode → Prop}
    (hstep : ∀ {t t' hs hash}, P t hs → t.place hash (.ofNat hs.length) = .ok t' →
      P t' (hs ++ [hash]))
    {rest : List HashCode} (h : P t hs) (hf : t.placeFrom (.ofNat hs.length) rest = .ok t') :
    P t' (hs ++ rest) := by
  induction rest generalizing t hs with
  | nil =>
    cases hf
    rwa [List.append_nil]
  | cons hash rest ih =>
    obtain ⟨t₁, ht₁, hf⟩ := Checked.bind_eq_ok_iff.1 hf
    have hnext : UInt32.ofNat hs.length + 1 = .ofNat (hs ++ [hash]).length := by
      rw [List.length_append, List.length_singleton, UInt32.ofNat_add]
      rfl
    rw [hnext] at hf
    have hrest := ih (hstep h ht₁) hf
    rwa [List.append_assoc, List.singleton_append] at hrest

theorem Keeps.of_place_next (h : t.Keeps (entriesOf hs)) (hc : t.slots.size ≤ 2 ^ 31)
    (hp : t.place hash (.ofNat hs.length) = .ok t') :
    t'.slots.size = t.slots.size ∧ t'.Keeps (entriesOf (hs ++ [hash])) := by
  have hlen := h.length_le
  rw [length_entriesOf] at hlen
  rw [entriesOf_append_singleton]
  exact h.of_place hc (ofNat_add_one_ne_zero (by omega)) hp

theorem Keeps.of_placeFrom (h : t.Keeps (entriesOf hs)) (hc : t.slots.size ≤ 2 ^ 31)
    {rest : List HashCode} (hf : t.placeFrom (.ofNat hs.length) rest = .ok t') :
    t'.slots.size = t.slots.size ∧ t'.Keeps (entriesOf (hs ++ rest)) := by
  refine placeFrom_preserves
    (P := fun t₁ hs => t₁.slots.size = t.slots.size ∧ t₁.Keeps (entriesOf hs)) ?_ ⟨rfl, h⟩ hf
  rintro t₁ t₂ hs hash ⟨hsize, hk⟩ hp
  obtain ⟨hsize₂, hk₂⟩ := hk.of_place_next (hsize ▸ hc) hp
  exact ⟨hsize₂.trans hsize, hk₂⟩

/-- The table has a mark for each of these hashes, with its position; and below `maxEntries` it
also has the vacancies that it should. -/
structure Tracks (t : IndexTable) (hs : List HashCode) : Prop where
  keeps : t.Keeps (entriesOf hs)
  capacity : ∃ k, 4 ≤ k ∧ k ≤ 31 ∧ t.slots.size = 2 ^ k
  load : hs.length < maxEntries → 8 * hs.length < 7 * t.slots.size

theorem Tracks.represents (h : t.Tracks hs) (hlen : hs.length < maxEntries) : t.Represents hs := by
  obtain ⟨k, hk, -, hsize⟩ := h.capacity
  exact h.keeps.holds ⟨k, hk, hsize⟩ (by rw [length_entriesOf]; exact h.load hlen)

theorem slots_le_of_capacity (h : ∃ k, 4 ≤ k ∧ k ≤ 31 ∧ t.slots.size = 2 ^ k) :
    t.slots.size ≤ 2 ^ 31 := by
  obtain ⟨k, -, hk, hsize⟩ := h
  rw [hsize]
  exact Nat.pow_le_pow_right (by decide) hk

theorem slots_eq_of_capacity (h : ∃ k, 4 ≤ k ∧ k ≤ 31 ∧ t.slots.size = 2 ^ k)
    (hlt : 2 ^ 30 < t.slots.size) : t.slots.size = 2 ^ 31 := by
  obtain ⟨k, -, hk, hsize⟩ := h
  obtain rfl : k = 31 := by
    by_contra hne
    have hle : 2 ^ k ≤ 2 ^ 30 := Nat.pow_le_pow_right (by decide) (by omega)
    omega
  exact hsize

theorem Tracks.length_le (h : t.Tracks hs) : hs.length ≤ t.slots.size := by
  rw [← length_entriesOf hs]
  exact h.keeps.length_le

theorem Tracks.length_le_two_pow (h : t.Tracks hs) : hs.length ≤ 2 ^ 31 :=
  h.length_le.trans (slots_le_of_capacity h.capacity)

theorem Tracks.length_lt (h : t.Tracks hs) (hlen : hs.length < 2 ^ 31) :
    hs.length < t.slots.size := by
  by_cases hbelow : hs.length < maxEntries
  · have hload := h.load hbelow
    omega
  · -- so many entries only fit into the most slots there can be
    have hle := h.length_le
    rw [maxEntries] at hbelow
    rwa [slots_eq_of_capacity h.capacity (by omega)]

theorem Tracks.hasVacancy (h : t.Tracks hs) (hlen : hs.length < 2 ^ 31) : HasVacancy t.slots :=
  h.keeps.hasVacancy (by rw [length_entriesOf]; exact h.length_lt hlen)

theorem size_slots_reset (t : IndexTable) (count : UInt32) :
    (t.reset count).slots.size = (capacityFor count).toNat := by
  rw [reset, Array.size_replicate]

theorem capacity_reset (t : IndexTable) (count : UInt32) :
    ∃ k, 4 ≤ k ∧ k ≤ 31 ∧ (t.reset count).slots.size = 2 ^ k := by
  rw [size_slots_reset]
  exact toNat_capacityFor_eq_two_pow count

theorem of_rebuild {count : UInt32} (h : t.rebuild hs count = .ok t') :
    (t.reset count).placeFrom 0 hs = .ok t' ∧ .ofNat hs.length = count := by
  obtain ⟨filled, hfilled, h⟩ := Checked.bind_eq_ok_iff.1 h
  obtain ⟨_, hcount, h⟩ := Checked.bind_eq_ok_iff.1 h
  cases h
  exact ⟨hfilled, beq_iff_eq.1 (Checked.require_eq_ok_iff.1 hcount)⟩

theorem reset_keeps (t : IndexTable) (count : UInt32) : (t.reset count).Keeps (entriesOf []) :=
  (reset_holds t count).keeps

theorem slots_of_rebuild {count : UInt32} (h : t.rebuild hs count = .ok t') :
    t'.slots.size = (t.reset count).slots.size :=
  ((reset_keeps t count).of_placeFrom (slots_le_of_capacity (capacity_reset t count))
    (of_rebuild h).1).1

theorem tracks_of_rebuild {count : UInt32} (h : t.rebuild hs count = .ok t') : t'.Tracks hs := by
  obtain ⟨hfilled, hcount⟩ := of_rebuild h
  have hcapacity := capacity_reset t count
  obtain ⟨hsize, hk⟩ :=
    (reset_keeps t count).of_placeFrom (slots_le_of_capacity hcapacity) hfilled
  rw [List.nil_append] at hk
  refine ⟨hk, by rwa [hsize], fun hlen => ?_⟩
  have hn : count.toNat = hs.length := by
    rw [← hcount]
    exact UInt32.toNat_ofNat_of_lt' (hlen.trans (by decide))
  have hload := load_capacityFor (show count.toNat < maxEntries by rwa [hn])
  rw [hsize, size_slots_reset, ← hn]
  exact hload

theorem keeps_of_grow (hg : t.grow = .ok t') :
    t'.Keeps (marks t.slots) ∧ ∃ k, 4 ≤ k ∧ k ≤ 31 ∧ t'.slots.size = 2 ^ k := by
  have hcapacity := capacity_reset {} t.capacity
  refine grow_preserves
    (P := fun t₁ ms => t₁.Keeps ms ∧ ∃ k, 4 ≤ k ∧ k ≤ 31 ∧ t₁.slots.size = 2 ^ k) ?_
    ⟨(reset_holds {} t.capacity).keeps, hcapacity⟩ hg
  rintro t₁ t₂ ms s ⟨hk, hc⟩ hs hp
  obtain ⟨hsize, hk₂⟩ := hk.of_place_mark (slots_le_of_capacity hc) hs hp
  exact ⟨hk₂, by rwa [hsize]⟩

theorem Tracks.of_insert (h : t.Tracks hs) (hi : t.insert hash (.ofNat hs.length) = .ok t') :
    t'.Tracks (hs ++ [hash]) := by
  rw [insert_eq] at hi
  obtain ⟨t₁, ht₁, hp⟩ := Checked.bind_eq_ok_iff.1 hi
  have hroomy : t₁.Keeps (entriesOf hs) ∧ ∃ k, 4 ≤ k ∧ k ≤ 31 ∧ t₁.slots.size = 2 ^ k := by
    by_cases hg : t.needsGrowth = true
    · rw [if_pos hg] at ht₁
      obtain ⟨hk, hcapacity⟩ := keeps_of_grow ht₁
      exact ⟨hk.congr h.keeps.marks_perm, hcapacity⟩
    · rw [if_neg hg] at ht₁
      cases ht₁
      exact ⟨h.keeps, h.capacity⟩
  obtain ⟨hk₁, hcapacity⟩ := hroomy
  have hlen := h.length_le_two_pow
  obtain ⟨hsize, hk⟩ := hk₁.of_place (slots_le_of_capacity hcapacity)
    (ofNat_add_one_ne_zero (by omega)) hp
  refine ⟨by rwa [entriesOf_append_singleton], by rwa [hsize], fun hbound => ?_⟩
  -- below the bound growth has made room for one more entry
  rw [List.length_append, List.length_singleton] at hbound ⊢
  obtain ⟨t₂, ht₂, -, hload⟩ := Records.roomy (Or.inr (h.represents (by omega)))
    (by rwa [length_entriesOf])
  cases ht₁.symm.trans ht₂
  rw [length_entriesOf] at hload
  rwa [hsize]

theorem Tracks.of_eraseLast (h : t.Tracks (hs ++ [hash]))
    (he : t.eraseLast hash (.ofNat hs.length) = .ok t') : t'.Tracks hs := by
  have hlen := h.length_le
  have hbound := h.length_le_two_pow
  have hn : ((entriesOf (hs ++ [hash])).map Slot.tag).Nodup := nodup_tags_entriesOf (by omega)
  rw [List.length_append, List.length_singleton] at hlen hbound
  have hk := h.keeps
  rw [entriesOf_append_singleton] at hk hn
  obtain ⟨_, hlast, hrest⟩ := Checked.bind_eq_ok_iff.1 he
  rw [Checked.require_eq_ok_iff, beq_iff_eq] at hlast
  obtain ⟨hole, hhole, hrest⟩ := Checked.bind_eq_ok_iff.1 hrest
  obtain ⟨_, hclosed, -⟩ := Checked.bind_eq_ok_iff.1 hrest
  have hvacancy : HasVacancy t.slots := hasVacancy_of_closeGap (lt_of_holderFrom hhole) hclosed
  obtain ⟨t₁, ht₁, hsize, hk₁⟩ := hk.eraseLast hvacancy hn hlast
  cases ht₁.symm.trans he
  refine ⟨hk₁, by rw [hsize]; exact h.capacity, fun hlt => ?_⟩
  rw [hsize]
  by_cases hbelow : hs.length + 1 < maxEntries
  · have hload := h.load (by rwa [List.length_append, List.length_singleton])
    rw [List.length_append, List.length_singleton] at hload
    omega
  · -- so many entries only fit into the most slots there can be
    rw [maxEntries] at hlt hbelow
    have hmost := slots_eq_of_capacity h.capacity (by omega)
    omega

theorem Tracks.clear (h : t.Tracks hs) : t.clear.Tracks [] := by
  obtain ⟨k, hk, hk31, hsize⟩ := h.capacity
  have hslots : t.clear.slots.size = t.slots.size := by
    rw [IndexTable.clear, Array.size_replicate]
  have hempty : t.clear.Holds [] := holds_nil rfl rfl ⟨k, hk, hsize⟩
  exact ⟨hempty.keeps, ⟨k, hk, hk31, hslots.trans hsize⟩, fun _ => hempty.load⟩

theorem searchFrom_of_full {slots : Array Slot} (hfull : ∀ p < slots.size, Taken slots p)
    {accepts : UInt32 → Checked Bool} {good : UInt32 → Bool} {fuel a : ℕ} (ha : a < slots.size)
    (hacc : ∀ i ∈ candidates slots hash a fuel, accepts i = .ok (good i)) :
    searchFrom slots hash accepts fuel a = .ok (.among good (candidates slots hash a fuel)) ∨
      searchFrom slots hash accepts fuel a = .error .endlessProbe ∧
        (candidates slots hash a fuel).find? good = none := by
  induction fuel generalizing a with
  | zero => exact .inr ⟨rfl, rfl⟩
  | succ fuel ih =>
    have htaken : (look slots a).isEmpty = false := hfull a ha
    have hrest := ih (next_lt (Nat.zero_lt_of_lt ha) a)
    rw [candidates_succ ha] at hacc ⊢
    by_cases hh : (look slots a).hash = hash
    · rw [if_pos hh] at hacc ⊢
      have hgood := hacc _ List.mem_cons_self
      have hrest := hrest fun i hi => hacc i (List.mem_cons_of_mem _ hi)
      by_cases hg : good (look slots a).position = true
      · simp [searchFrom, slotAt_eq ha, htaken, hh, hgood, hg, Search.among]
      · rcases hrest with hrest | ⟨hrest, hnone⟩
        · simp [searchFrom, slotAt_eq ha, htaken, hh, hgood, hg, hrest, Search.among]
        · simp [searchFrom, slotAt_eq ha, htaken, hh, hgood, hg, hrest, hnone]
    · rw [if_neg hh] at hacc ⊢
      rcases hrest hacc with hrest | ⟨hrest, hnone⟩
      · simp [searchFrom, slotAt_eq ha, htaken, hh, hrest]
      · simp [searchFrom, slotAt_eq ha, htaken, hh, hrest, hnone]

theorem mem_candidates_of_full {slots : Array Slot} (hfull : ∀ p < slots.size, Taken slots p)
    {a : ℕ} (ha : a < slots.size) {i : UInt32} :
    i ∈ candidates slots hash a slots.size ↔ ∃ s ∈ marks slots, s.hash = hash ∧ s.position = i := by
  simp only [candidates, List.mem_map, List.mem_filter, List.mem_range, decide_eq_true_eq]
  constructor
  · rintro ⟨_, ⟨⟨j, -, rfl⟩, hh⟩, rfl⟩
    exact ⟨_, mem_marks.2 ⟨_, hfull _ (ahead_lt ha j), rfl⟩, hh, rfl⟩
  · rintro ⟨s, hs, rfl, rfl⟩
    obtain ⟨p, hp, rfl⟩ := mem_marks.1 hs
    obtain ⟨j, hj, rfl⟩ := exists_eq_ahead ha hp.lt_size
    exact ⟨_, ⟨⟨j, hj, rfl⟩, rfl⟩, rfl⟩

/-- A search asks about the positions of its hash; without an end it is only where it accepts none
of them. -/
theorem Tracks.search (h : t.Tracks hs) (hash : HashCode) {accepts : UInt32 → Checked Bool}
    (good : UInt32 → Bool)
    (hacc : ∀ i : UInt32, hs[i.toNat]? = some hash → accepts i = .ok (good i)) :
    ∃ is : List UInt32, (∀ i : UInt32, i ∈ is ↔ hs[i.toNat]? = some hash) ∧
      (t.search hash accepts = .ok (.among good is) ∨
        t.search hash accepts = .error .endlessProbe ∧ is.find? good = none) := by
  have hbound := h.length_le_two_pow
  by_cases hvacancy : HasVacancy t.slots
  · obtain ⟨is, his, -, hmem⟩ := h.keeps.search hvacancy (by omega) hash good hacc
    exact ⟨is, hmem, .inl his⟩
  · have hfull := taken_of_not_hasVacancy hvacancy
    have hhome := home_lt h.keeps.size_pos hash
    have hmem : ∀ i : UInt32, i ∈ candidates t.slots hash (home t.slots hash) t.slots.size ↔
        hs[i.toNat]? = some hash :=
      fun i => (mem_candidates_of_full hfull hhome).trans (h.keeps.mem_marks_iff (by omega))
    refine ⟨_, hmem, ?_⟩
    rw [search_eq_searchFrom h.keeps.size_pos]
    exact searchFrom_of_full hfull hhome fun i hi => hacc i ((hmem i).1 hi)

end StackCode.IndexTable
