import Mathlib
import StackCode.Proofs.IndexTable.Lowest
import StackCode.Proofs.IndexTable.Sizing

/-! Tables filled one entry after the other, beside tables built anew. Growth takes its slots for
entries and asks for the capacity of so many, which is twice that of before; and since it waits
until the slots are too few for one entry more, twice as many are the least that will do. So both
ways lead to the same capacity at every length, and to the same marks, if not in the same slots. -/
namespace StackCode.IndexTable

variable {t t' : IndexTable} {hs : List HashCode} {hash : HashCode} {n : UInt32}

theorem isLeast_two_mul {c count : ℕ} (hpow : ∃ k, c = 2 ^ k) (hmin : 16 ≤ c)
    (hfull : 7 * c ≤ 8 * count) (hroom : 8 * count < 7 * (2 * c)) :
    IsLeast (roomyCapacities count) (2 * c) := by
  obtain ⟨k, rfl⟩ := hpow
  refine ⟨⟨⟨k + 1, (Nat.pow_succ').symm⟩, by omega, hroom⟩, ?_⟩
  rintro d ⟨⟨j, rfl⟩, -, hload⟩
  have hkj : k < j := (Nat.pow_lt_pow_iff_right (by decide)).1 (show 2 ^ k < 2 ^ j by omega)
  rw [← Nat.pow_succ']
  exact Nat.pow_le_pow_right (by decide) hkj

theorem capacityFor_capacityFor (hn : n.toNat + 1 < maxEntries)
    (hlt : (capacityFor n).toNat < (capacityFor (n + 1)).toNat) :
    capacityFor (capacityFor n) = capacityFor (n + 1) := by
  have hone : (n + 1).toNat = n.toNat + 1 := toNat_add_one (hn.trans (by decide))
  have hleast := isLeast_capacityFor (show n.toNat < maxEntries by omega)
  have hnext := isLeast_capacityFor (show (n + 1).toNat < maxEntries by rwa [hone])
  obtain ⟨hpow, hmin, hload⟩ := hleast.1
  rw [hone] at hnext
  -- the next capacity is twice this one, which is also the least for as many entries as slots
  have hfull : 7 * (capacityFor n).toNat ≤ 8 * (n.toNat + 1) := by
    by_contra hroom
    exact hlt.not_ge (hnext.2 ⟨hpow, hmin, by omega⟩)
  have hslots : (capacityFor n).toNat < maxEntries := slots_lt_of_lt hpow hlt
  have hdouble : IsLeast (roomyCapacities (n.toNat + 1)) (2 * (capacityFor n).toNat) :=
    isLeast_two_mul hpow hmin hfull (by omega)
  have hgrown : IsLeast (roomyCapacities (capacityFor n).toNat) (2 * (capacityFor n).toNat) :=
    isLeast_two_mul hpow hmin (by omega) (by omega)
  apply UInt32.toNat_inj.1
  rw [(isLeast_capacityFor hslots).unique hgrown, hnext.unique hdouble]

theorem slots_of_grow (hg : t.grow = .ok t') : t'.slots.size = (capacityFor t.capacity).toNat := by
  refine grow_preserves (P := fun t₁ _ => t₁.slots.size = (capacityFor t.capacity).toNat) ?_
    (size_slots_reset {} t.capacity) hg
  rintro t₁ t₂ ms s hslots - hp
  obtain ⟨p, -, -, hp⟩ := slots_of_place hp
  rw [hp, Array.size_setIfInBounds, hslots]

theorem slots_of_insert {position : UInt32} (hi : t.insert hash position = .ok t') :
    t'.slots.size =
      if t.needsGrowth then (capacityFor t.capacity).toNat else t.slots.size := by
  rw [insert_eq] at hi
  obtain ⟨t₁, ht₁, hp⟩ := Checked.bind_eq_ok_iff.1 hi
  obtain ⟨p, -, -, hp⟩ := slots_of_place hp
  rw [hp, Array.size_setIfInBounds]
  by_cases hg : t.needsGrowth = true
  · rw [if_pos hg] at ht₁ ⊢
    exact slots_of_grow ht₁
  · rw [if_neg hg] at ht₁ ⊢
    cases ht₁
    rfl

theorem slots_of_insert_of_least (hpos : 0 < t.slots.size)
    (hslots : t.slots.size = (capacityFor t.size).toNat) (hn : t.size.toNat + 1 < maxEntries)
    {position : UInt32} (hi : t.insert hash position = .ok t') :
    t'.slots.size = (capacityFor (t.size + 1)).toNat := by
  have hone : (t.size + 1).toNat = t.size.toNat + 1 := toNat_add_one (hn.trans (by decide))
  have hcapacity : t.capacity = capacityFor t.size := by
    rw [capacity, hslots, UInt32.ofNat_toNat]
  rw [slots_of_insert hi, needsGrowth_eq hpos, hcapacity, hslots]
  by_cases hlt : (capacityFor t.size).toNat < (capacityFor (t.size + 1)).toNat
  · rw [if_pos (decide_eq_true hlt), capacityFor_capacityFor hn hlt]
  · rw [if_neg (by simpa using hlt)]
    exact (toNat_capacityFor_mono (by omega) (by omega)).antisymm (Nat.le_of_not_lt hlt)

theorem slots_of_first (hslots : t.slots = #[]) {position : UInt32}
    (hi : t.insert hash position = .ok t') : t'.slots.size = (capacityFor 1).toNat := by
  have hgrows : t.needsGrowth = true := by simp [needsGrowth, hslots]
  have hzero : t.capacity = 0 := by simp [capacity, hslots]
  rw [slots_of_insert hi, if_pos hgrows, hzero]
  decide

theorem slots_of_inserts (hne : hs ≠ []) (hlen : hs.length < maxEntries)
    (h : run (fresh none) (inserts hs) = .ok t) :
    t.slots.size = (capacityFor (.ofNat hs.length)).toNat := by
  induction hs using List.reverseRecOn generalizing t with
  | nil => exact absurd rfl hne
  | append_singleton hs hash ih =>
    rw [run_inserts_append_singleton] at h
    obtain ⟨t₁, ht₁, hi⟩ := Checked.bind_eq_ok_iff.1 h
    rw [List.length_append, List.length_singleton] at hlen ⊢
    by_cases hnil : hs = []
    · subst hnil
      cases ht₁
      exact slots_of_first rfl hi
    · have hindexes := indexes_of_inserts ht₁
      have hsize : t₁.size = .ofNat hs.length := by
        rw [← hindexes.size_eq, UInt32.ofNat_toNat]
      have hslots := ih hnil (by omega) ht₁
      have hpos : 0 < t₁.slots.size := by
        obtain ⟨k, -, -, hk⟩ := toNat_capacityFor_eq_two_pow (.ofNat hs.length)
        rw [hslots, hk]
        exact Nat.two_pow_pos k
      rw [← hsize] at hslots
      rw [slots_of_insert_of_least hpos hslots (by rw [hindexes.size_eq]; exact hlen) hi, hsize,
        UInt32.ofNat_add]
      rfl

/-- The table counts these hashes, has a mark for each with its position and no other, and no more
slots than it has to have. -/
structure Fits (t : IndexTable) (hs : List HashCode) : Prop where
  size_eq : t.size.toNat = hs.length
  least : IsLeast (roomyCapacities hs.length) t.capacity.toNat
  marks_perm : (marks t.slots).Perm (entriesOf hs)
  nodup : (marks t.slots).Nodup

theorem Indexes.fits (h : t.Indexes hs) (hlen : hs.length < maxEntries)
    (hslots : t.slots.size = (capacityFor (.ofNat hs.length)).toNat) : t.Fits hs := by
  have hcount : (UInt32.ofNat hs.length).toNat = hs.length :=
    UInt32.toNat_ofNat_of_lt' (hlen.trans (by decide))
  have hleast := isLeast_capacityFor
    (show (UInt32.ofNat hs.length).toNat < maxEntries by rwa [hcount])
  rw [hcount] at hleast
  refine ⟨h.size_eq, ?_, h.marks_perm, ?_⟩
  · rwa [capacity, hslots, UInt32.ofNat_toNat]
  · have htags : ((entriesOf hs).map Slot.tag).Nodup :=
      nodup_tags_entriesOf (hlen.trans (by decide))
    exact h.marks_perm.nodup_iff.2 htags.of_map

theorem fits_of_inserts (hne : hs ≠ []) (hlen : hs.length < maxEntries) :
    ∃ t, run (fresh none) (inserts hs) = .ok t ∧ t.Fits hs := by
  obtain ⟨t, ht⟩ := (exists_run_inserts_iff none hs).2 (hlen.le.trans (by decide))
  exact ⟨t, ht, (indexes_of_inserts ht).fits hlen (slots_of_inserts hne hlen ht)⟩

theorem fits_of_rebuild (t : IndexTable) (hlen : hs.length < maxEntries) :
    ∃ t', t.rebuild hs (.ofNat hs.length) = .ok t' ∧ t'.Fits hs := by
  obtain ⟨t', ht', -⟩ := rebuild_represents t hlen
  have hindexes : t'.Indexes hs := .inr (tracks_of_rebuild ht').ample
  refine ⟨t', ht', hindexes.fits hlen ?_⟩
  rw [slots_of_rebuild ht', size_slots_reset]

/-- Entries inserted one by one in a new table, and the same entries of a table built anew, whatever
it was before: the tables have one size, one capacity, which is the least for so many entries, and
the same marks, each of them once. -/
theorem inserted_as_rebuilt (hne : hs ≠ []) (hlen : hs.length < maxEntries) (t : IndexTable) :
    ∃ filled rebuilt, run (fresh none) (inserts hs) = .ok filled ∧
      t.rebuild hs (.ofNat hs.length) = .ok rebuilt ∧
      filled.size = rebuilt.size ∧ filled.size.toNat = hs.length ∧
      filled.capacity = rebuilt.capacity ∧
      IsLeast (roomyCapacities hs.length) filled.capacity.toNat ∧
      (∀ s, s ∈ marks filled.slots ↔ ∃ i hash, hs[i]? = some hash ∧ s = .entry hash (.ofNat i)) ∧
      (∀ s, s ∈ marks rebuilt.slots ↔ s ∈ marks filled.slots) ∧
      (marks filled.slots).Nodup ∧ (marks rebuilt.slots).Nodup := by
  obtain ⟨filled, hfilled, hf⟩ := fits_of_inserts hne hlen
  obtain ⟨rebuilt, hrebuilt, hr⟩ := fits_of_rebuild t hlen
  refine ⟨filled, rebuilt, hfilled, hrebuilt, ?_, hf.size_eq, ?_, hf.least, ?_, ?_, hf.nodup,
    hr.nodup⟩
  · exact UInt32.toNat_inj.1 (hf.size_eq.trans hr.size_eq.symm)
  · exact UInt32.toNat_inj.1 (hf.least.unique hr.least)
  · exact fun s => hf.marks_perm.mem_iff.trans mem_entriesOf
  · exact fun s => (hr.marks_perm.trans hf.marks_perm.symm).mem_iff

theorem inserted_as_rebuilt_grown :
    let hs : List HashCode := List.replicate 14 ⟨8⟩
    hs ≠ [] ∧ hs.length < maxEntries ∧
      ∃ filled rebuilt, run (fresh none) (inserts hs) = .ok filled ∧
        (withCapacity 100).rebuild hs 14 = .ok rebuilt ∧ filled.capacity = rebuilt.capacity ∧
        (∀ s, s ∈ marks rebuilt.slots ↔ s ∈ marks filled.slots) ∧
        filled.slots ≠ rebuilt.slots := by
  intro hs
  have hne : hs ≠ [] := by simp [hs]
  have hlen : hs.length < maxEntries := by decide
  obtain ⟨filled, rebuilt, hfilled, hrebuilt, -, -, hcapacity, -, -, hmarks, -, -⟩ :=
    inserted_as_rebuilt hne hlen (withCapacity 100)
  refine ⟨hne, hlen, filled, rebuilt, hfilled, hrebuilt, hcapacity, hmarks, ?_⟩
  have hdiffer : (do
      let filled ← run (fresh none) (inserts hs)
      let rebuilt ← (withCapacity 100).rebuild hs 14
      return decide (filled.slots ≠ rebuilt.slots)) = (.ok true : Checked Bool) := by
    decide +kernel
  rw [hfilled, Checked.ok_bind, show (withCapacity 100).rebuild hs 14 = _ from hrebuilt] at hdiffer
  exact of_decide_eq_true (Except.ok.inj hdiffer)

end StackCode.IndexTable
