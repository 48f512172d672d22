import Mathlib
import StackCode.Proofs.IndexTable.Vacancy

/-! Tables with a past of any length: new entries come last, only the last one is erased, counts are
true, and the number of entries has no bound. The table follows the hashes through every such run;
its slots only fill up at `2 ^ 31` entries, where there are no more slots to be had. -/
namespace StackCode.IndexTable

variable {t t' : IndexTable} {hs : List HashCode} {hash : HashCode}

/-- The table tracks these hashes, and its slots are all in use only where no more can be had. -/
structure Ample (t : IndexTable) (hs : List HashCode) : Prop extends Tracks t hs where
  vacancy : hs.length < 2 ^ 31 → hs.length < t.slots.size

theorem length_marks_lt {slots : Array Slot} (h : HasVacancy slots) :
    (marks slots).length < slots.size := by
  obtain ⟨p, hp, hv⟩ := h
  rw [marks, ← Array.length_toList, List.length_filter_lt_length_iff_exists]
  refine ⟨slots[p], Array.mem_toList_iff.2 (Array.getElem_mem hp), ?_⟩
  simpa [Taken, look, hp] using hv

theorem Ample.hasVacancy_iff (h : t.Ample hs) : HasVacancy t.slots ↔ hs.length < 2 ^ 31 := by
  refine ⟨fun hv => ?_, h.hasVacancy⟩
  have hlt := length_marks_lt hv
  have hle := slots_le_of_capacity h.capacity
  rw [h.keeps.marks_perm.length_eq, length_entriesOf] at hlt
  omega

def Indexes (t : IndexTable) (hs : List HashCode) : Prop :=
  t.slots = #[] ∧ t.size = 0 ∧ hs = [] ∨ t.Ample hs

theorem Tracks.ample (h : t.Tracks hs) : t.Ample hs := ⟨h, h.length_lt⟩

theorem fresh_indexes (start : Option UInt32) : (fresh start).Indexes [] := by
  cases start with
  | none => exact .inl ⟨rfl, rfl, rfl⟩
  | some count =>
    have hempty := reset_holds {} count
    have htracks : (withCapacity count).Tracks [] :=
      ⟨hempty.keeps, capacity_reset {} count, fun _ => hempty.load⟩
    exact .inr htracks.ample

theorem Indexes.size_eq (h : t.Indexes hs) : t.size.toNat = hs.length := by
  rcases h with ⟨-, hzero, rfl⟩ | h
  · rw [hzero]
    rfl
  · rw [h.keeps.size_eq, length_entriesOf]

theorem Indexes.eq_nil (h : t.Indexes hs) (hzero : t.size = 0) : hs = [] := by
  rw [← List.length_eq_zero_iff, ← h.size_eq, hzero]
  rfl

theorem Indexes.length_le (h : t.Indexes hs) : hs.length ≤ 2 ^ 31 := by
  rcases h with ⟨-, -, rfl⟩ | h
  · exact Nat.zero_le _
  · exact h.length_le_two_pow

theorem Indexes.marks_perm (h : t.Indexes hs) : (marks t.slots).Perm (entriesOf hs) := by
  rcases h with ⟨hslots, -, rfl⟩ | h
  · simp [marks, hslots, entriesOf]
  · exact h.keeps.marks_perm

theorem Indexes.chained (h : t.Indexes hs) : Chained t.slots := by
  rcases h with ⟨hslots, -, -⟩ | h
  · intro p hp
    have hlt := hp.lt_size
    simp [hslots] at hlt
  · exact h.keeps.chained

theorem Indexes.records (h : t.Indexes hs) (hlen : hs.length < maxEntries) :
    t.Records (entriesOf hs) := by
  rcases h with ⟨hslots, hzero, rfl⟩ | h
  · exact .inl ⟨hslots, hzero, rfl⟩
  · exact .inr (h.represents hlen)

theorem Tracks.needsGrowth_eq_false (h : t.Tracks hs) (hlen : maxEntries ≤ hs.length + 1) :
    t.needsGrowth = false := by
  have hsize : t.size.toNat = hs.length := by rw [h.keeps.size_eq, length_entriesOf]
  have hbound := h.length_le_two_pow
  have hone : (t.size + 1).toNat = hs.length + 1 := by
    rw [toNat_add_one (by omega), hsize]
  obtain ⟨k, hk, -, hslots⟩ := h.capacity
  have hpow : 2 ^ 4 ≤ 2 ^ k := Nat.pow_le_pow_right (by decide) hk
  rw [needsGrowth_eq h.keeps.size_pos, capacityFor_of_le (by rwa [hone]),
    decide_eq_false_iff_not, hslots]
  exact Nat.not_lt.2 hpow

theorem place_of_insert (hg : t.needsGrowth = false) {position : UInt32}
    (hi : t.insert hash position = .ok t') : t.place hash position = .ok t' := by
  rw [insert_eq, hg] at hi
  exact hi

theorem tracks_of_first (hslots : t.slots = #[]) (hi : t.insert hash 0 = .ok t') :
    t'.Tracks [hash] := by
  rw [insert_eq, if_pos (by simp [needsGrowth, hslots])] at hi
  obtain ⟨t₁, hg, hp⟩ := Checked.bind_eq_ok_iff.1 hi
  obtain ⟨hk, hcapacity⟩ := keeps_of_grow hg
  have hnone : marks t.slots = [] := by simp [marks, hslots]
  rw [hnone] at hk
  obtain ⟨hsize, hk'⟩ := hk.of_place (slots_le_of_capacity hcapacity) (by decide) hp
  refine ⟨hk', by rwa [hsize], fun _ => ?_⟩
  obtain ⟨k, hk4, -, hpow⟩ := hcapacity
  have hle : 2 ^ 4 ≤ 2 ^ k := Nat.pow_le_pow_right (by decide) hk4
  rw [hsize, hpow, List.length_singleton]
  omega

theorem Ample.of_insert (h : t.Ample hs) (hi : t.insert hash (.ofNat hs.length) = .ok t') :
    t'.Ample (hs ++ [hash]) :=
  (h.toTracks.of_insert hi).ample

theorem Indexes.of_insert (h : t.Indexes hs) (hi : t.insert hash (.ofNat hs.length) = .ok t') :
    t'.Ample (hs ++ [hash]) := by
  rcases h with ⟨hslots, -, rfl⟩ | h
  · exact (tracks_of_first hslots hi).ample
  · exact h.of_insert hi

theorem Indexes.insert (h : t.Indexes hs) (hlen : hs.length < 2 ^ 31) (hash : HashCode) :
    ∃ t', t.insert hash (.ofNat hs.length) = .ok t' := by
  have hpos : UInt32.ofNat hs.length + 1 ≠ 0 := ofNat_add_one_ne_zero (by omega)
  by_cases hbelow : hs.length + 1 < maxEntries
  · obtain ⟨t', ht', -⟩ := (h.records (by omega)).insert hash hpos (by rwa [length_entriesOf])
    exact ⟨t', ht'⟩
  · rcases h with ⟨-, -, rfl⟩ | h
    · exact absurd (by decide) hbelow
    · have hroom := h.vacancy hlen
      rw [← length_entriesOf hs] at hroom hlen
      obtain ⟨t', ht', -⟩ := h.keeps.place hash hpos hroom (by omega)
      refine ⟨t', ?_⟩
      rw [insert_eq, h.needsGrowth_eq_false (by omega)]
      exact ht'

theorem Ample.of_eraseLast (h : t.Ample (hs ++ [hash]))
    (he : t.eraseLast hash (.ofNat hs.length) = .ok t') : t'.Ample hs :=
  (h.toTracks.of_eraseLast he).ample

theorem Indexes.of_apply {e : Event} (h : t.Indexes hs) (hv : e.Valid hs)
    (he : e.apply t = .ok t') : t'.Indexes (e.hashes hs) := by
  cases e with
  | insert hash position =>
    obtain rfl : position = .ofNat hs.length := by rw [← hv, UInt32.ofNat_toNat]
    exact .inr (h.of_insert he)
  | eraseLast hash position =>
    obtain ⟨hlast, hpos⟩ := hv
    obtain ⟨hs, rfl⟩ := List.getLast?_eq_some_iff.1 hlast
    rw [List.length_append, List.length_singleton, Nat.add_right_cancel_iff] at hpos
    obtain rfl : position = .ofNat hs.length := by rw [← hpos, UInt32.ofNat_toNat]
    rcases h with ⟨-, -, hnil⟩ | h
    · simp at hnil
    · rw [Event.hashes, List.dropLast_concat]
      exact .inr (h.of_eraseLast he)
  | rebuild hashes count =>
    exact .inr (tracks_of_rebuild he).ample
  | clear =>
    cases he
    rcases h with ⟨hslots, -, -⟩ | h
    · exact .inl ⟨by simp [clear, hslots], rfl, rfl⟩
    · exact .inr h.toTracks.clear.ample

/-- Every event is as it should be for the hashes that it finds. -/
def LegalRun (hs : List HashCode) : List Event → Prop
  | [] => True
  | e :: es => e.Valid hs ∧ LegalRun (e.hashes hs) es

theorem Indexes.of_run {es : List Event} (h : t.Indexes hs) (hv : LegalRun hs es)
    (hr : run t es = .ok t') : t'.Indexes (hashesAfter hs es) := by
  induction es generalizing t hs with
  | nil =>
    cases hr
    exact h
  | cons e es ih =>
    obtain ⟨t₁, ht₁, hr⟩ := Checked.bind_eq_ok_iff.1 hr
    exact ih (h.of_apply hv.1 ht₁) hv.2 hr

end StackCode.IndexTable
