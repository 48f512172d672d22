import Mathlib
import StackCode.IndexTable.Erase
import StackCode.IndexTable.Search

/-! Probing walks over the slots in a circle. From any slot it meets every slot once before it is
back, so a single vacancy ends every search. The three loops that probe are each given by the
number of steps to the slot where they stop. -/
namespace StackCode

def Search.among (good : UInt32 → Bool) : List UInt32 → Search
  | [] => {}
  | i :: rest => if good i then { found := some i, asked := [i] } else (among good rest).after i

theorem Search.among_found (good : UInt32 → Bool) (is : List UInt32) :
    (Search.among good is).found = is.find? good := by
  induction is with
  | nil => rfl
  | cons i rest ih =>
    by_cases hi : good i = true
    · simp [Search.among, hi]
    · simpa [Search.among, hi, Search.after] using ih

theorem Search.among_asked_prefix (good : UInt32 → Bool) (is : List UInt32) :
    (Search.among good is).asked <+: is := by
  induction is with
  | nil => exact List.prefix_rfl
  | cons i rest ih =>
    by_cases hi : good i = true
    · simp [Search.among, hi]
    · simpa [Search.among, hi, Search.after] using ih

namespace IndexTable

variable {slots : Array Slot} {a p : ℕ}

def ahead (slots : Array Slot) (a k : ℕ) : ℕ := (a + k) % slots.size

theorem ahead_lt (ha : a < slots.size) (k : ℕ) : ahead slots a k < slots.size :=
  Nat.mod_lt _ (Nat.zero_lt_of_lt ha)

theorem ahead_zero (ha : a < slots.size) : ahead slots a 0 = a :=
  Nat.mod_eq_of_lt ha

theorem next_ahead (a k : ℕ) : next slots (ahead slots a k) = ahead slots a (k + 1) := by
  rw [next, ahead, Nat.mod_add_mod, Nat.add_assoc, ahead]

theorem ahead_next (a k : ℕ) : ahead slots (next slots a) k = ahead slots a (k + 1) := by
  rw [ahead, next, Nat.mod_add_mod, ahead]
  congr 1
  omega

theorem ahead_eq_ite (ha : a < slots.size) {k : ℕ} (hk : k ≤ slots.size) :
    ahead slots a k = if a + k < slots.size then a + k else a + k - slots.size := by
  rw [ahead]
  split
  · next h => exact Nat.mod_eq_of_lt h
  · next h => rw [Nat.mod_eq_sub_mod (by omega), Nat.mod_eq_of_lt (by omega)]

theorem ahead_injective (ha : a < slots.size) {j k : ℕ} (hj : j < slots.size)
    (hk : k < slots.size) (h : ahead slots a j = ahead slots a k) : j = k := by
  rw [ahead_eq_ite ha hj.le, ahead_eq_ite ha hk.le] at h
  split at h <;> split at h <;> omega

theorem exists_eq_ahead (ha : a < slots.size) (hp : p < slots.size) :
    ∃ k < slots.size, p = ahead slots a k := by
  by_cases h : a ≤ p
  · refine ⟨p - a, by omega, ?_⟩
    rw [ahead_eq_ite ha (by omega), if_pos (by omega)]
    omega
  · refine ⟨p + slots.size - a, by omega, ?_⟩
    rw [ahead_eq_ite ha (by omega), if_neg (by omega)]
    omega

/-- The content of a slot; there is none outside the slots. -/
def look (slots : Array Slot) (p : ℕ) : Slot := slots[p]?.getD .empty

def Taken (slots : Array Slot) (p : ℕ) : Prop := (look slots p).isEmpty = false

instance (slots : Array Slot) (p : ℕ) : Decidable (Taken slots p) :=
  inferInstanceAs (Decidable (_ = _))

theorem isEmpty_look (h : ¬Taken slots p) : (look slots p).isEmpty = true := by
  simpa [Taken] using h

theorem look_of_getElem? {s : Slot} (h : slots[p]? = some s) : look slots p = s := by
  simp [look, h]

theorem slotAt_eq (hp : p < slots.size) : slotAt slots p = .ok (look slots p) := by
  simp [slotAt, look, hp]

theorem lt_of_slotAt {s : Slot} (h : slotAt slots p = .ok s) : p < slots.size := by
  by_contra hp
  rw [slotAt, Array.getElem?_eq_none (Nat.le_of_not_lt hp)] at h
  cases h

theorem Taken.lt_size (h : Taken slots p) : p < slots.size := by
  by_contra hp
  have he : slots[p]? = none := Array.getElem?_eq_none (Nat.le_of_not_lt hp)
  simp [Taken, look, he] at h

theorem look_set (q : ℕ) (s : Slot) (hp : p < slots.size) :
    look (slots.setIfInBounds p s) q = if q = p then s else look slots q := by
  rw [look, Array.getElem?_setIfInBounds, look]
  by_cases hq : q = p
  · simp [hq, hp]
  · simp [hq, Ne.symm hq]

theorem ahead_set (q : ℕ) (s : Slot) (a k : ℕ) :
    ahead (slots.setIfInBounds q s) a k = ahead slots a k := by
  simp [ahead]

theorem home_set (q : ℕ) (s : Slot) (hash : HashCode) :
    home (slots.setIfInBounds q s) hash = home slots hash := by
  simp [home]

theorem taken_set {q : ℕ} {s : Slot} (hp : p < slots.size) (hs : s.isEmpty = false) :
    Taken (slots.setIfInBounds p s) q ↔ q = p ∨ Taken slots q := by
  rw [Taken, Taken, look_set _ _ hp]
  by_cases hq : q = p <;> simp [hq, hs]

theorem taken_set_empty {q : ℕ} (hp : p < slots.size) :
    Taken (slots.setIfInBounds p .empty) q ↔ q ≠ p ∧ Taken slots q := by
  rw [Taken, Taken, look_set _ _ hp]
  by_cases hq : q = p <;> simp [hq]

def HasVacancy (slots : Array Slot) : Prop := ∃ p < slots.size, ¬Taken slots p

theorem HasVacancy.size_pos (h : HasVacancy slots) : 0 < slots.size := by
  obtain ⟨p, hp, -⟩ := h
  exact Nat.zero_lt_of_lt hp

theorem taken_of_not_hasVacancy (h : ¬HasVacancy slots) : ∀ p < slots.size, Taken slots p := by
  intro p hp
  by_contra hv
  exact h ⟨p, hp, hv⟩

/-- The walk from `a` meets `k` occupied slots and then a vacant one. -/
structure Run (slots : Array Slot) (a k : ℕ) : Prop where
  taken : ∀ j < k, Taken slots (ahead slots a j)
  vacant : ¬Taken slots (ahead slots a k)

theorem exists_run (h : HasVacancy slots) (ha : a < slots.size) :
    ∃ k < slots.size, Run slots a k := by
  obtain ⟨p, hp, hv⟩ := h
  obtain ⟨k, hk, rfl⟩ := exists_eq_ahead ha hp
  have hex : ∃ k, ¬Taken slots (ahead slots a k) := ⟨k, hv⟩
  refine ⟨Nat.find hex, (Nat.find_min' hex hv).trans_lt hk, ?_, Nat.find_spec hex⟩
  intro j hj
  exact not_not.1 (Nat.find_min hex hj)

theorem Run.head_vacant (h : Run slots a 0) (ha : a < slots.size) :
    (look slots a).isEmpty = true := by
  rw [← ahead_zero ha]
  exact isEmpty_look h.vacant

theorem Run.head_taken {k : ℕ} (h : Run slots a (k + 1)) (ha : a < slots.size) :
    (look slots a).isEmpty = false := by
  have ht := h.taken 0 (Nat.succ_pos k)
  rwa [ahead_zero ha] at ht

theorem Run.tail {k : ℕ} (h : Run slots a (k + 1)) : Run slots (next slots a) k := by
  refine ⟨fun j hj => ?_, ?_⟩
  · rw [ahead_next]
    exact h.taken (j + 1) (by omega)
  · rw [ahead_next]
    exact h.vacant

theorem vacantFrom_eq {k fuel : ℕ} (hr : Run slots a k) (hk : k < fuel) (ha : a < slots.size) :
    vacantFrom slots fuel a = .ok (ahead slots a k) := by
  obtain ⟨c, rfl⟩ := Nat.exists_eq_add_of_lt hk
  clear hk
  induction k generalizing a with
  | zero =>
    rw [ahead_zero ha]
    simp [vacantFrom, slotAt_eq ha, hr.head_vacant ha]
  | succ k ih =>
    have hrest := ih hr.tail (next_lt (Nat.zero_lt_of_lt ha) a)
    rw [ahead_next, Nat.add_right_comm] at hrest
    simpa [vacantFrom, slotAt_eq ha, hr.head_taken ha] using hrest

theorem holderFrom_eq {tag : UInt32} {k fuel : ℕ} (hk : k < fuel) (ha : a < slots.size)
    (ht : ∀ j < k, Taken slots (ahead slots a j) ∧ (look slots (ahead slots a j)).tag ≠ tag)
    (htag : (look slots (ahead slots a k)).tag = tag) :
    holderFrom slots tag fuel a = .ok (ahead slots a k) := by
  obtain ⟨c, rfl⟩ := Nat.exists_eq_add_of_lt hk
  clear hk
  induction k generalizing a with
  | zero =>
    rw [ahead_zero ha] at htag ⊢
    simp [holderFrom, slotAt_eq ha, htag]
  | succ k ih =>
    obtain ⟨h0, hne⟩ := ht 0 (by omega)
    rw [ahead_zero ha] at h0 hne
    have hrest := ih (next_lt (Nat.zero_lt_of_lt ha) a)
      (fun j hj => by rw [ahead_next]; exact ht (j + 1) (by omega)) (by rwa [ahead_next])
    rw [ahead_next, Nat.add_right_comm] at hrest
    simpa [holderFrom, slotAt_eq ha, show (look slots a).isEmpty = false from h0, hne] using hrest

theorem search_eq_searchFrom {t : IndexTable} (h : 0 < t.slots.size) (hash : HashCode)
    (accepts : UInt32 → Checked Bool) :
    t.search hash accepts = searchFrom t.slots hash accepts t.slots.size (home t.slots hash) := by
  rw [search, if_neg (by simpa using Array.size_pos_iff.1 h)]

theorem vacant_of_vacantFrom {fuel : ℕ} (h : vacantFrom slots fuel a = .ok p) :
    p < slots.size ∧ ¬Taken slots p := by
  induction fuel generalizing a with
  | zero => cases h
  | succ fuel ih =>
    obtain ⟨s, hs, h⟩ := Checked.bind_eq_ok_iff.1 h
    have ha := lt_of_slotAt hs
    cases (slotAt_eq ha).symm.trans hs
    by_cases he : (look slots a).isEmpty = true
    · cases (if_pos he).symm.trans h
      exact ⟨ha, by simp [Taken, he]⟩
    · exact ih ((if_neg he).symm.trans h)

def candidates (slots : Array Slot) (hash : HashCode) (a k : ℕ) : List UInt32 :=
  (((List.range k).map fun j => look slots (ahead slots a j)).filter (·.hash = hash)).map
    Slot.position

theorem candidates_succ (ha : a < slots.size) (hash : HashCode) (k : ℕ) :
    candidates slots hash a (k + 1) =
      if (look slots a).hash = hash then
        (look slots a).position :: candidates slots hash (next slots a) k
      else candidates slots hash (next slots a) k := by
  have hm : (List.range (k + 1)).map (fun j => look slots (ahead slots a j)) =
      look slots a :: (List.range k).map fun j => look slots (ahead slots (next slots a) j) := by
    rw [List.range_succ_eq_map, List.map_cons, List.map_map, ahead_zero ha]
    simp only [Function.comp_def, Nat.succ_eq_add_one, ahead_next]
  rw [candidates, hm, candidates]
  split <;> simp_all

theorem searchFrom_eq {hash : HashCode} {accepts : UInt32 → Checked Bool} {good : UInt32 → Bool}
    {k fuel : ℕ} (hr : Run slots a k) (hk : k < fuel) (ha : a < slots.size)
    (hacc : ∀ i ∈ candidates slots hash a k, accepts i = .ok (good i)) :
    searchFrom slots hash accepts fuel a = .ok (Search.among good (candidates slots hash a k)) := by
  obtain ⟨c, rfl⟩ := Nat.exists_eq_add_of_lt hk
  clear hk
  induction k generalizing a with
  | zero =>
    simp [searchFrom, slotAt_eq ha, hr.head_vacant ha,
      candidates, Search.among]
  | succ k ih =>
    rw [candidates_succ ha] at hacc ⊢
    have hrest := ih hr.tail (next_lt (Nat.zero_lt_of_lt ha) a)
    rw [Nat.add_right_comm] at hrest
    by_cases hh : (look slots a).hash = hash
    · rw [if_pos hh] at hacc ⊢
      have hgood := hacc _ List.mem_cons_self
      have hrest := hrest fun i hi => hacc i (List.mem_cons_of_mem _ hi)
      by_cases hg : good (look slots a).position = true
      · simp [searchFrom, slotAt_eq ha, hr.head_taken ha, hh, hgood, hg, Search.among]
      · simp [searchFrom, slotAt_eq ha, hr.head_taken ha, hh, hgood, hg, hrest, Search.among]
    · rw [if_neg hh] at hacc ⊢
      simp [searchFrom, slotAt_eq ha, hr.head_taken ha, hh, hrest hacc]

theorem accepted_of_searchFrom {hash : HashCode} {accepts : UInt32 → Checked Bool} {fuel : ℕ}
    {answer : Search} (h : searchFrom slots hash accepts fuel a = .ok answer) {i : UInt32}
    (hi : answer.found = some i) : accepts i = .ok true := by
  induction fuel generalizing a answer with
  | zero => cases h
  | succ fuel ih =>
    obtain ⟨s, -, h⟩ := Checked.bind_eq_ok_iff.1 h
    by_cases he : s.isEmpty = true
    · cases (if_pos he).symm.trans h
      cases hi
    · rw [if_neg he] at h
      by_cases hh : s.hash ≠ hash
      · rw [if_pos hh] at h
        exact ih h hi
      · rw [if_neg hh] at h
        obtain ⟨good, hgood, h⟩ := Checked.bind_eq_ok_iff.1 h
        cases good with
        | true =>
          cases h
          cases hi
          exact hgood
        | false =>
          obtain ⟨rest, hrest, h⟩ := Checked.bind_eq_ok_iff.1 h
          cases h
          exact ih hrest hi

theorem accepted_of_find {t : IndexTable} {hash : HashCode} {accepts : UInt32 → Checked Bool}
    {i : UInt32} (h : t.find hash accepts = .ok (some i)) : accepts i = .ok true := by
  obtain ⟨answer, hanswer, hi⟩ := Checked.map_eq_ok_iff.1 h
  rw [search] at hanswer
  by_cases he : t.slots.isEmpty = true
  · cases (if_pos he).symm.trans hanswer
    cases hi
  · exact accepted_of_searchFrom ((if_neg he).symm.trans hanswer) hi

end IndexTable

end StackCode
