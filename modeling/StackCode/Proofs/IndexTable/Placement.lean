import Mathlib
import StackCode.IndexTable.Capacity
import StackCode.Proofs.IndexTable.Probe

/-! The marks in the slots, and what placing one more does to them. Every mark is reached from its
home over occupied slots. Growth and `rebuild` place marks one after the other, so both follow
from `Holds.place`. -/
namespace StackCode

namespace Slot

theorem entry_hash_position (s : Slot) : entry s.hash s.position = s := by
  simp [entry, Slot.position]

theorem isEmpty_entry {hash : HashCode} {position : UInt32} (h : position + 1 ≠ 0) :
    (entry hash position).isEmpty = false := by
  simpa [entry, isEmpty] using h

theorem position_add_one_ne_zero {s : Slot} (h : s.isEmpty = false) : s.position + 1 ≠ 0 := by
  simpa [Slot.position, isEmpty] using h

end Slot

namespace IndexTable

variable {slots : Array Slot} {t : IndexTable} {ms : List Slot} {a p : ℕ}

theorem toNat_add_one {n : UInt32} (h : n.toNat + 1 < 2 ^ 32) : (n + 1).toNat = n.toNat + 1 := by
  rw [UInt32.toNat_add]
  exact Nat.mod_eq_of_lt h

def marks (slots : Array Slot) : List Slot := slots.toList.filter (!·.isEmpty)

theorem mem_marks {s : Slot} : s ∈ marks slots ↔ ∃ p, Taken slots p ∧ look slots p = s := by
  rw [marks, List.mem_filter, Array.mem_toList_iff]
  constructor
  · rintro ⟨hs, hne⟩
    obtain ⟨p, hp, rfl⟩ := Array.mem_iff_getElem.1 hs
    have hl : look slots p = slots[p] := look_of_getElem? (Array.getElem?_eq_getElem hp)
    exact ⟨p, by simpa [Taken, hl] using hne, hl⟩
  · rintro ⟨p, hp, hs⟩
    cases hs
    have hlt := hp.lt_size
    have hl : look slots p = slots[p] := look_of_getElem? (Array.getElem?_eq_getElem hlt)
    refine ⟨?_, by simpa [Taken] using hp⟩
    rw [hl]
    exact Array.getElem_mem hlt

theorem marks_eq_nil_iff : marks slots = [] ↔ ∀ p, ¬Taken slots p := by
  rw [List.eq_nil_iff_forall_not_mem]
  constructor
  · intro h p hp
    exact h (look slots p) (mem_marks.2 ⟨p, hp, rfl⟩)
  · intro h s hs
    obtain ⟨p, hp, -⟩ := mem_marks.1 hs
    exact h p hp

theorem hasVacancy_of_length_lt (h : (marks slots).length < slots.size) : HasVacancy slots := by
  by_contra hno
  have hall : ∀ s ∈ slots.toList, (!s.isEmpty) = true := by
    intro s hs
    obtain ⟨p, hp, rfl⟩ := Array.mem_iff_getElem.1 (Array.mem_toList_iff.1 hs)
    by_contra he
    refine hno ⟨p, hp, ?_⟩
    simpa [Taken, look, hp] using he
  rw [marks, List.filter_eq_self.2 hall, Array.length_toList] at h
  omega

theorem set_look (hp : p < slots.size) : slots.setIfInBounds p (look slots p) = slots := by
  apply Array.ext_getElem?
  intro q
  rw [Array.getElem?_setIfInBounds]
  by_cases hq : p = q
  · subst hq
    simp [look, hp]
  · rw [if_neg hq]

theorem marks_set (hp : p < slots.size) (s : Slot) :
    (marks (slots.setIfInBounds p s)).Perm
      ([s].filter (!·.isEmpty) ++ marks (slots.setIfInBounds p .empty)) := by
  have hl : p < slots.toList.length := by simpa using hp
  have hset : ∀ s, (slots.toList.set p s).filter (!·.isEmpty) =
      (slots.toList.take p).filter (!·.isEmpty) ++
        ([s].filter (!·.isEmpty) ++ (slots.toList.drop (p + 1)).filter (!·.isEmpty)) := by
    intro s
    rw [List.set_eq_take_append_cons_drop, if_pos hl, List.filter_append, ← List.singleton_append,
      List.filter_append]
  simp only [marks, Array.toList_setIfInBounds]
  rw [hset s, hset .empty]
  simpa using List.perm_append_comm_assoc _ _ _

theorem marks_erase (hp : Taken slots p) :
    (marks slots).Perm (look slots p :: marks (slots.setIfInBounds p .empty)) := by
  have h := marks_set hp.lt_size (look slots p)
  rw [set_look hp.lt_size] at h
  simpa [show (look slots p).isEmpty = false from hp] using h

theorem marks_fill (hp : p < slots.size) (hv : ¬Taken slots p) {s : Slot}
    (hs : s.isEmpty = false) :
    (marks (slots.setIfInBounds p s)).Perm (marks slots ++ [s]) := by
  have hold := marks_set hp (look slots p)
  have hnew := marks_set hp s
  rw [set_look hp] at hold
  simp only [List.filter_cons, List.filter_nil, isEmpty_look hv, Bool.not_true, Bool.false_eq_true,
    if_false, List.nil_append] at hold
  simp only [List.filter_cons, List.filter_nil, hs, Bool.not_false, if_true] at hnew
  exact (hnew.trans (hold.symm.append_left [s])).trans List.perm_append_comm

def Reached (slots : Array Slot) (a p : ℕ) : Prop :=
  ∃ k < slots.size, p = ahead slots a k ∧ ∀ j < k, Taken slots (ahead slots a j)

/-- No vacant slot lies between the home of a mark and the slot it is in. -/
def Chained (slots : Array Slot) : Prop :=
  ∀ p, Taken slots p → Reached slots (home slots (look slots p).hash) p

theorem Chained.fill (h : Chained slots) {hash : HashCode} {s : Slot} (hh : s.hash = hash)
    (hs : s.isEmpty = false) (hp : p < slots.size) (hr : Reached slots (home slots hash) p) :
    Chained (slots.setIfInBounds p s) := by
  intro q hq
  have hkeep : Reached slots (home slots (look (slots.setIfInBounds p s) q).hash) q := by
    rw [look_set _ _ hp]
    by_cases hqp : q = p
    · rw [if_pos hqp, hh, hqp]
      exact hr
    · rw [if_neg hqp]
      exact h q (((taken_set hp hs).1 hq).resolve_left hqp)
  obtain ⟨k, hk, he, ht⟩ := hkeep
  rw [home_set]
  refine ⟨k, by simpa using hk, by rw [ahead_set]; exact he, fun j hj => ?_⟩
  rw [ahead_set]
  exact (taken_set hp hs).2 (Or.inr (ht j hj))

/-- The marks in the table are those listed, in whatever order and however few slots are left. -/
structure Keeps (t : IndexTable) (ms : List Slot) : Prop where
  marks_perm : (marks t.slots).Perm ms
  chained : Chained t.slots
  size_eq : t.size.toNat = ms.length
  size_pos : 0 < t.slots.size

theorem Keeps.hasVacancy (h : t.Keeps ms) (hroom : ms.length < t.slots.size) :
    HasVacancy t.slots :=
  hasVacancy_of_length_lt (h.marks_perm.length_eq ▸ hroom)

theorem Keeps.congr {ms' : List Slot} (h : t.Keeps ms) (hp : ms.Perm ms') : t.Keeps ms' :=
  ⟨h.marks_perm.trans hp, h.chained, h.size_eq.trans hp.length_eq, h.size_pos⟩

theorem Keeps.place (h : t.Keeps ms) (hash : HashCode) {position : UInt32}
    (hpos : position + 1 ≠ 0) (hroom : ms.length < t.slots.size) (hlen : ms.length + 1 < 2 ^ 32) :
    ∃ t', t.place hash position = .ok t' ∧ t'.slots.size = t.slots.size ∧
      t'.Keeps (ms ++ [.entry hash position]) := by
  have hhome := home_lt h.size_pos hash
  have hs : (Slot.entry hash position).isEmpty = false := Slot.isEmpty_entry hpos
  obtain ⟨k, hk, hr⟩ := exists_run (h.hasVacancy hroom) hhome
  have hp := ahead_lt hhome k
  have hlt : t.size.toNat < t.slots.size := h.size_eq ▸ hroom
  let filled := t.slots.setIfInBounds (ahead t.slots (home t.slots hash) k) (.entry hash position)
  refine ⟨{ t with slots := filled, size := t.size + 1 }, ?_, by simp [filled], ?_⟩
  · simp [IndexTable.place, hlt, vacantFrom_eq hr hk hhome,
      filled]
  · constructor
    · exact (marks_fill hp hr.vacant hs).trans (h.marks_perm.append_right _)
    · exact h.chained.fill rfl hs hp ⟨k, hk, rfl, hr.taken⟩
    · rw [toNat_add_one (by rwa [h.size_eq]), h.size_eq, List.length_append,
        List.length_singleton]
    · simpa [filled] using h.size_pos

/-- The marks in the table are those listed, and there are slots enough for them. -/
structure Holds (t : IndexTable) (ms : List Slot) : Prop where
  marks_perm : (marks t.slots).Perm ms
  chained : Chained t.slots
  size_eq : t.size.toNat = ms.length
  capacity : ∃ k, 4 ≤ k ∧ t.slots.size = 2 ^ k
  load : 8 * ms.length < 7 * t.slots.size

theorem Holds.size_pos (h : t.Holds ms) : 0 < t.slots.size := by
  obtain ⟨k, -, hk⟩ := h.capacity
  rw [hk]
  exact Nat.two_pow_pos k

theorem Holds.keeps (h : t.Holds ms) : t.Keeps ms :=
  ⟨h.marks_perm, h.chained, h.size_eq, h.size_pos⟩

theorem Keeps.holds (h : t.Keeps ms) (hc : ∃ k, 4 ≤ k ∧ t.slots.size = 2 ^ k)
    (hl : 8 * ms.length < 7 * t.slots.size) : t.Holds ms :=
  ⟨h.marks_perm, h.chained, h.size_eq, hc, hl⟩

theorem Holds.length_lt (h : t.Holds ms) : ms.length < t.slots.size := by
  have hl := h.load
  omega

theorem Holds.congr {ms' : List Slot} (h : t.Holds ms) (hp : ms.Perm ms') : t.Holds ms' :=
  (h.keeps.congr hp).holds h.capacity (hp.length_eq ▸ h.load)

theorem Holds.place (h : t.Holds ms) (hash : HashCode) {position : UInt32}
    (hpos : position + 1 ≠ 0) (hload : 8 * (ms.length + 1) < 7 * t.slots.size)
    (hlen : ms.length + 1 < 2 ^ 32) :
    ∃ t', t.place hash position = .ok t' ∧ t'.slots.size = t.slots.size ∧
      t'.Holds (ms ++ [.entry hash position]) := by
  obtain ⟨t', ht', hsize, hk⟩ := h.keeps.place hash hpos h.length_lt hlen
  refine ⟨t', ht', hsize, hk.holds ?_ ?_⟩
  · rw [hsize]
    exact h.capacity
  · rw [hsize, List.length_append]
    exact hload

theorem holds_nil {n : ℕ} (hslots : t.slots = .replicate n .empty) (hsize : t.size = 0)
    (hn : ∃ k, 4 ≤ k ∧ n = 2 ^ k) : t.Holds [] := by
  have hv : ∀ p, ¬Taken t.slots p := by
    intro p hp
    have hlt := hp.lt_size
    rw [hslots, Array.size_replicate] at hlt
    simp [Taken, look, hslots, hlt] at hp
  have hcount : t.slots.size = n := by rw [hslots, Array.size_replicate]
  constructor
  · simp [marks, hslots]
  · exact fun p hp => absurd hp (hv p)
  · rw [hsize]
    rfl
  · rw [hcount]
    exact hn
  · obtain ⟨k, -, hk⟩ := hn
    have hpos := Nat.two_pow_pos k
    rw [hcount, List.length_nil]
    omega

theorem reset_holds (t : IndexTable) (count : UInt32) : (t.reset count).Holds [] := by
  obtain ⟨k, hk, -, he⟩ := toNat_capacityFor_eq_two_pow count
  exact holds_nil rfl rfl ⟨k, hk, he⟩

theorem Holds.clear (h : t.Holds ms) : t.clear.Holds [] :=
  holds_nil rfl rfl h.capacity

theorem Holds.placeAll (h : t.Holds ms) (ss : List Slot)
    (hload : 8 * (ms.length + ss.length) < 7 * t.slots.size)
    (hlen : ms.length + ss.length < 2 ^ 32) :
    ∃ t', ss.foldlM (fun larger s =>
        if s.isEmpty then Except.ok larger else larger.place s.hash s.position) t = .ok t' ∧
      t'.slots.size = t.slots.size ∧ t'.Holds (ms ++ ss.filter (!·.isEmpty)) := by
  induction ss generalizing t ms with
  | nil => exact ⟨t, rfl, rfl, by simpa using h⟩
  | cons s ss ih =>
    rw [List.length_cons] at hload hlen
    by_cases hs : s.isEmpty = true
    · obtain ⟨t', ht', hsize, hh⟩ := ih h (by omega) (by omega)
      refine ⟨t', ?_, hsize, by simpa [hs] using hh⟩
      simpa [List.foldlM_cons, hs] using ht'
    · have hpos := Slot.position_add_one_ne_zero (Bool.eq_false_iff.2 hs)
      obtain ⟨t₁, ht₁, hsize₁, hh₁⟩ := h.place s.hash hpos (by omega) (by omega)
      rw [Slot.entry_hash_position] at hh₁
      have hl : (ms ++ [s]).length = ms.length + 1 := by simp
      obtain ⟨t', ht', hsize, hh⟩ := ih hh₁ (by rw [hsize₁, hl]; omega) (by rw [hl]; omega)
      refine ⟨t', ?_, hsize.trans hsize₁, by simpa [hs] using hh⟩
      simpa [List.foldlM_cons, hs, ht₁] using ht'

theorem grow_holds (hc : t.slots.size < maxEntries) :
    ∃ t', t.grow = .ok t' ∧ t'.Holds (marks t.slots) ∧ 8 * t.slots.size < 7 * t'.slots.size := by
  have hcap : t.capacity.toNat = t.slots.size :=
    UInt32.toNat_ofNat_of_lt' (hc.trans (by decide))
  have hload : 8 * t.capacity.toNat < 7 * (capacityFor t.capacity).toNat :=
    load_capacityFor (by rwa [hcap])
  have hsize : (withCapacity t.capacity).slots.size = (capacityFor t.capacity).toNat := by
    simp [withCapacity, reset]
  rw [hcap, ← hsize] at hload
  obtain ⟨t', ht', hsz, hh⟩ := (reset_holds {} t.capacity).placeAll t.slots.toList
    (by simpa [withCapacity] using hload) (by simpa using hc.trans (by decide))
  refine ⟨t', ?_, by simpa [marks] using hh, by rw [hsz]; exact hload⟩
  rw [grow, ← Array.foldlM_toList]
  exact ht'

theorem slots_lt_of_lt {c : ℕ} (h : ∃ k, c = 2 ^ k) {count : UInt32}
    (hg : c < (capacityFor count).toNat) : c < maxEntries := by
  obtain ⟨j, rfl⟩ := h
  obtain ⟨k, -, hk, he⟩ := toNat_capacityFor_eq_two_pow count
  rw [he] at hg
  have hjk : j < k := (Nat.pow_lt_pow_iff_right (by decide)).1 hg
  have hpow : 2 ^ j ≤ 2 ^ 30 := Nat.pow_le_pow_right (by decide) (by omega)
  rw [maxEntries]
  omega

theorem needsGrowth_eq (h : 0 < t.slots.size) :
    t.needsGrowth = decide (t.slots.size < (capacityFor (t.size + 1)).toNat) := by
  rw [needsGrowth, Array.isEmpty_eq_false_iff.2 (Array.size_pos_iff.1 h), Bool.false_or]

def Records (t : IndexTable) (ms : List Slot) : Prop :=
  t.slots = #[] ∧ t.size = 0 ∧ ms = [] ∨ t.Holds ms

theorem Records.size_eq (h : t.Records ms) : t.size.toNat = ms.length := by
  rcases h with ⟨-, hs, rfl⟩ | h
  · rw [hs]
    rfl
  · exact h.size_eq

theorem Records.roomy (h : t.Records ms) (hlen : ms.length + 1 < maxEntries) :
    ∃ t', (if t.needsGrowth then t.grow else .ok t) = .ok t' ∧ t'.Holds ms ∧
      8 * (ms.length + 1) < 7 * t'.slots.size := by
  rcases h with ⟨hs, -, rfl⟩ | h
  · obtain ⟨t', ht', hh, -⟩ := grow_holds (t := t) (by rw [hs]; decide)
    obtain ⟨k, hk, he⟩ := hh.capacity
    have hpow : 2 ^ 4 ≤ 2 ^ k := Nat.pow_le_pow_right (by decide) hk
    refine ⟨t', by simp [needsGrowth, hs, ht'], by simpa [marks, hs] using hh, ?_⟩
    rw [he, List.length_nil]
    omega
  · have hone : (t.size + 1).toNat = ms.length + 1 := by
      rw [toNat_add_one (by rw [h.size_eq]; exact hlen.trans (by decide)), h.size_eq]
    rw [needsGrowth_eq h.size_pos]
    by_cases hg : t.slots.size < (capacityFor (t.size + 1)).toNat
    · obtain ⟨k, -, hk⟩ := h.capacity
      obtain ⟨t', ht', hh, hl⟩ := grow_holds (slots_lt_of_lt ⟨k, hk⟩ hg)
      refine ⟨t', by simp [hg, ht'], hh.congr h.marks_perm, ?_⟩
      have hlt := h.length_lt
      omega
    · refine ⟨t, by simp [hg], h, ?_⟩
      have hl : 8 * (t.size + 1).toNat < 7 * (capacityFor (t.size + 1)).toNat :=
        load_capacityFor (by rwa [hone])
      omega

theorem insert_eq (t : IndexTable) (hash : HashCode) (position : UInt32) :
    t.insert hash position =
      (if t.needsGrowth then t.grow else .ok t) >>= (·.place hash position) := by
  rw [IndexTable.insert]
  split <;> rfl

theorem Records.insert (h : t.Records ms) (hash : HashCode) {position : UInt32}
    (hpos : position + 1 ≠ 0) (hlen : ms.length + 1 < maxEntries) :
    ∃ t', t.insert hash position = .ok t' ∧ t'.Holds (ms ++ [.entry hash position]) := by
  obtain ⟨t₁, ht₁, hh, hload⟩ := h.roomy hlen
  obtain ⟨t', ht', -, hh'⟩ := hh.place hash hpos hload (hlen.trans (by decide))
  refine ⟨t', ?_, hh'⟩
  rw [insert_eq, ht₁]
  exact ht'

theorem Records.clear (h : t.Records ms) : t.clear.Records [] := by
  rcases h with ⟨hs, -, -⟩ | h
  · exact Or.inl ⟨by simp [IndexTable.clear, hs], rfl, rfl⟩
  · exact Or.inr h.clear

end IndexTable

end StackCode
