import Mathlib
import StackCode.Proofs.IndexTable.Legal
import StackCode.Proofs.IndexTable.Rebuilt

/-! The order in which a probe meets the marks of one hash. A new mark takes the first vacant slot,
which is behind all marks of its hash, so it is met last. Growth places the marks anew in the order
of the slots; where those of a hash have gone round the end of the slots, the ones beyond the end
come first. -/
namespace StackCode.IndexTable

variable {slots : Array Slot} {t t' : IndexTable} {ms : List Slot} {hash : HashCode} {s : Slot}
variable {a k p : ℕ} {ps js : List ℕ} {position : UInt32}

def marksAt (slots : Array Slot) (hash : HashCode) (ps : List ℕ) : List Slot :=
  (ps.map (look slots)).filter fun s => !s.isEmpty && s.hash = hash

theorem marksAt_append (ps qs : List ℕ) :
    marksAt slots hash (ps ++ qs) = marksAt slots hash ps ++ marksAt slots hash qs := by
  rw [marksAt, List.map_append, List.filter_append, marksAt, marksAt]

theorem marksAt_eq_nil_iff :
    marksAt slots hash ps = [] ↔ ∀ p ∈ ps, Taken slots p → (look slots p).hash ≠ hash := by
  simp [marksAt, Taken]

theorem marksAt_set_of_notMem (hp : p < slots.size) (hps : p ∉ ps) (s : Slot) :
    marksAt (slots.setIfInBounds p s) hash ps = marksAt slots hash ps := by
  have hlook : ∀ q ∈ ps, look (slots.setIfInBounds p s) q = look slots q := by
    intro q hq
    rw [look_set _ _ hp, if_neg (ne_of_mem_of_not_mem hq hps)]
  rw [marksAt, List.map_congr_left hlook, marksAt]

theorem marksAt_set_self (hp : p < slots.size) (hs : s.isEmpty = false) :
    marksAt (slots.setIfInBounds p s) hash [p] = [s].filter (·.hash = hash) := by
  rw [marksAt, List.map_singleton, look_set _ _ hp, if_pos rfl]
  simp [List.filter_singleton, hs]

theorem filter_marks (slots : Array Slot) (hash : HashCode) :
    (marks slots).filter (·.hash = hash) = marksAt slots hash (List.range slots.size) := by
  have hlist : slots.toList = (List.range slots.size).map (look slots) := by
    apply List.ext_getElem (by simp)
    intro p hp _
    rw [List.getElem_map, List.getElem_range]
    exact (look_of_getElem? (Array.getElem?_eq_getElem (by simpa using hp))).symm
  rw [marks, hlist, marksAt, List.filter_filter]
  simp only [Bool.and_comm]

/-- The marks with `hash`, in the order in which a probe for it meets them. -/
def probed (slots : Array Slot) (hash : HashCode) : List Slot :=
  marksAt slots hash ((List.range slots.size).map (ahead slots (home slots hash)))

theorem range_split {n : ℕ} (hk : k ≤ n) :
    List.range n = List.range k ++ (List.range (n - k)).map (k + ·) := by
  rw [← List.range_add, Nat.add_sub_cancel' hk]

theorem ahead_notMem (ha : a < slots.size) (hk : k < slots.size)
    (hjs : ∀ j ∈ js, j < slots.size ∧ j ≠ k) : ahead slots a k ∉ js.map (ahead slots a) := by
  intro hmem
  obtain ⟨j, hj, he⟩ := List.mem_map.1 hmem
  exact (hjs j hj).2 (ahead_injective ha (hjs j hj).1 hk he)

theorem marksAt_behind (hc : Chained slots) (hv : ¬Taken slots (ahead slots (home slots hash) k))
    (hjs : ∀ j ∈ js, j < slots.size ∧ k ≤ j) :
    marksAt slots hash (js.map (ahead slots (home slots hash))) = [] := by
  rw [marksAt_eq_nil_iff]
  intro p hp ht hh
  obtain ⟨j, hj, rfl⟩ := List.mem_map.1 hp
  have hm : Meets slots hash j (look slots (ahead slots (home slots hash) j)) :=
    ⟨(hjs j hj).1, ht, rfl, hh⟩
  exact hv (hm.taken_of_le hc (hjs j hj).2)

theorem mem_map_range_add {n j : ℕ} (hj : j ∈ (List.range (n - k)).map (k + ·)) :
    j < n ∧ k ≤ j := by
  obtain ⟨c, hc, rfl⟩ := List.mem_map.1 hj
  have hlt := List.mem_range.1 hc
  omega

theorem probed_fill (hc : Chained slots) (hp : p < slots.size) (hv : ¬Taken slots p)
    (hs : s.isEmpty = false) (hash : HashCode) :
    probed (slots.setIfInBounds p s) hash = probed slots hash ++ [s].filter (·.hash = hash) := by
  have hhome := home_lt (Nat.zero_lt_of_lt hp) hash
  obtain ⟨k, hk, rfl⟩ := exists_eq_ahead hhome hp
  -- the slots before the new mark, that of the mark, and those behind it
  have hwalk : ∀ slots' : Array Slot,
      marksAt slots' hash ((List.range slots.size).map (ahead slots (home slots hash))) =
        marksAt slots' hash ((List.range k).map (ahead slots (home slots hash))) ++
          marksAt slots' hash [ahead slots (home slots hash) k] ++
            marksAt slots' hash (((List.range (slots.size - (k + 1))).map (k + 1 + ·)).map
              (ahead slots (home slots hash))) := by
    intro slots'
    rw [range_split hk, List.range_succ, List.map_append, List.map_append, List.map_singleton,
      marksAt_append, marksAt_append]
  have hset : probed (slots.setIfInBounds (ahead slots (home slots hash) k) s) hash =
      marksAt (slots.setIfInBounds (ahead slots (home slots hash) k) s) hash
        ((List.range slots.size).map (ahead slots (home slots hash))) := by
    rw [probed, home_set, Array.size_setIfInBounds]
    exact congrArg _ (List.map_congr_left fun j _ => ahead_set _ s _ j)
  have hbefore : ahead slots (home slots hash) k ∉
      (List.range k).map (ahead slots (home slots hash)) := by
    refine ahead_notMem hhome hk fun j hj => ?_
    have hlt := List.mem_range.1 hj
    exact ⟨hlt.trans hk, hlt.ne⟩
  have hbehind : ahead slots (home slots hash) k ∉
      ((List.range (slots.size - (k + 1))).map (k + 1 + ·)).map
        (ahead slots (home slots hash)) := by
    refine ahead_notMem hhome hk fun j hj => ?_
    obtain ⟨hlt, hle⟩ := mem_map_range_add hj
    exact ⟨hlt, (Nat.lt_of_succ_le hle).ne'⟩
  have hvacant : marksAt slots hash [ahead slots (home slots hash) k] = [] := by
    rw [marksAt_eq_nil_iff]
    intro q hq ht
    exact absurd (List.mem_singleton.1 hq ▸ ht) hv
  have hnone : marksAt slots hash (((List.range (slots.size - (k + 1))).map (k + 1 + ·)).map
      (ahead slots (home slots hash))) = [] := by
    refine marksAt_behind hc hv fun j hj => ?_
    obtain ⟨hlt, hle⟩ := mem_map_range_add hj
    exact ⟨hlt, Nat.le_of_succ_le hle⟩
  rw [hset, hwalk, marksAt_set_of_notMem hp hbefore, marksAt_set_self hp hs,
    marksAt_set_of_notMem hp hbehind, hnone, List.append_nil, probed, hwalk, hvacant, hnone,
    List.append_nil, List.append_nil]

theorem candidates_eq_probed (hc : Chained slots) (hr : Run slots (home slots hash) k)
    (hk : k ≤ slots.size) :
    candidates slots hash (home slots hash) k = (probed slots hash).map Slot.position := by
  have hnone : marksAt slots hash (((List.range (slots.size - k)).map (k + ·)).map
      (ahead slots (home slots hash))) = [] :=
    marksAt_behind hc hr.vacant fun j hj => mem_map_range_add hj
  rw [probed, range_split hk, List.map_append, marksAt_append, hnone, List.append_nil, candidates,
    marksAt, List.map_map]
  refine congrArg _ (List.filter_congr fun s hs => ?_)
  obtain ⟨j, hj, rfl⟩ := List.mem_map.1 hs
  have ht : (look slots (ahead slots (home slots hash) j)).isEmpty = false :=
    hr.taken j (List.mem_range.1 hj)
  rw [ht, Bool.not_false, Bool.true_and]

/-- The marks with `hash` that have gone round the end of the slots. -/
def wrapped (slots : Array Slot) (hash : HashCode) : List Slot :=
  marksAt slots hash (List.range (home slots hash))

def unwrapped (slots : Array Slot) (hash : HashCode) : List Slot :=
  marksAt slots hash ((List.range (slots.size - home slots hash)).map (home slots hash + ·))

theorem home_le (slots : Array Slot) (hash : HashCode) : home slots hash ≤ slots.size := by
  rcases Nat.eq_zero_or_pos slots.size with hzero | hpos
  · rw [home, hzero, Nat.log2_zero, Nat.shiftRight_eq_div_pow]
    exact (Nat.div_eq_of_lt hash.promote.toNat_lt).le
  · exact (home_lt hpos hash).le

theorem filter_marks_eq_append (slots : Array Slot) (hash : HashCode) :
    (marks slots).filter (·.hash = hash) = wrapped slots hash ++ unwrapped slots hash := by
  rw [filter_marks, range_split (home_le slots hash), marksAt_append, wrapped, unwrapped]

/-- A probe meets the marks that have gone round the end last. -/
theorem probed_eq_append (slots : Array Slot) (hash : HashCode) :
    probed slots hash = unwrapped slots hash ++ wrapped slots hash := by
  have hle := home_le slots hash
  have hrange : List.range slots.size = List.range (slots.size - home slots hash) ++
      (List.range (home slots hash)).map (slots.size - home slots hash + ·) := by
    rw [← List.range_add, Nat.sub_add_cancel hle]
  rw [probed, hrange, List.map_append, marksAt_append, List.map_map, unwrapped, wrapped]
  have hfirst : ∀ j ∈ List.range (slots.size - home slots hash),
      ahead slots (home slots hash) j = home slots hash + j := by
    intro j hj
    have hlt := List.mem_range.1 hj
    rw [ahead_eq_ite (by omega) (by omega), if_pos (by omega)]
  have hlast : ∀ j ∈ List.range (home slots hash),
      (ahead slots (home slots hash) ∘ (slots.size - home slots hash + ·)) j = id j := by
    intro j hj
    have hlt := List.mem_range.1 hj
    have hhome : home slots hash < slots.size := home_lt (by omega) hash
    rw [Function.comp_apply, ahead_eq_ite hhome (by omega), if_neg (by omega), id]
    omega
  rw [List.map_congr_left hfirst, List.map_congr_left hlast, List.map_id]

/-- Marks with `hash` lie on both sides of the end of the slots: some from its home on, and some
that have gone round the end, in the slots before its home. -/
def Straddles (slots : Array Slot) (hash : HashCode) : Prop :=
  (∃ p, home slots hash ≤ p ∧ Taken slots p ∧ (look slots p).hash = hash) ∧
    ∃ p < home slots hash, Taken slots p ∧ (look slots p).hash = hash

theorem wrapped_eq_nil_iff :
    wrapped slots hash = [] ↔
      ¬∃ p < home slots hash, Taken slots p ∧ (look slots p).hash = hash := by
  rw [wrapped, marksAt_eq_nil_iff]
  simp

theorem unwrapped_eq_nil_iff :
    unwrapped slots hash = [] ↔
      ¬∃ p, home slots hash ≤ p ∧ Taken slots p ∧ (look slots p).hash = hash := by
  rw [unwrapped, marksAt_eq_nil_iff]
  push Not
  constructor
  · intro h p hp ht
    refine h p (List.mem_map.2 ⟨p - home slots hash, List.mem_range.2 ?_, by omega⟩) ht
    have hlt := ht.lt_size
    omega
  · intro h p hp
    obtain ⟨c, -, rfl⟩ := List.mem_map.1 hp
    exact h _ (Nat.le_add_right _ c)

theorem not_straddles_iff :
    ¬Straddles slots hash ↔ unwrapped slots hash = [] ∨ wrapped slots hash = [] := by
  rw [Straddles, unwrapped_eq_nil_iff, wrapped_eq_nil_iff, not_and_or]

theorem probed_of_place (hc : Chained t.slots) (hpos : position + 1 ≠ 0)
    (hp : t.place hash position = .ok t') (hash' : HashCode) :
    probed t'.slots hash' =
      probed t.slots hash' ++ [Slot.entry hash position].filter (·.hash = hash') := by
  obtain ⟨p, hlt, hv, hslots⟩ := slots_of_place hp
  rw [hslots]
  exact probed_fill hc hlt hv (Slot.isEmpty_entry hpos) hash'

theorem probed_of_marks_nil (h : marks slots = []) (hash : HashCode) : probed slots hash = [] := by
  rw [probed, marksAt_eq_nil_iff]
  exact fun p _ ht => absurd ht (marks_eq_nil_iff.1 h p)

structure Placed (t : IndexTable) (ms : List Slot) : Prop where
  keeps : t.Keeps ms
  slots_le : t.slots.size ≤ 2 ^ 31
  probed_eq : ∀ hash, probed t.slots hash = ms.filter (·.hash = hash)

theorem placed_reset (t : IndexTable) (count : UInt32) : (t.reset count).Placed [] :=
  ⟨(reset_holds t count).keeps, slots_le_of_capacity (capacity_reset t count), fun hash =>
    probed_of_marks_nil (List.perm_nil.1 (reset_holds t count).marks_perm) hash⟩

theorem Placed.of_place_mark (h : t.Placed ms) (hs : s.isEmpty = false)
    (hp : t.place s.hash s.position = .ok t') : t'.Placed (ms ++ [s]) := by
  obtain ⟨hsize, hk⟩ := h.keeps.of_place_mark h.slots_le hs hp
  refine ⟨hk, hsize.le.trans h.slots_le, fun hash => ?_⟩
  have hprobed :=
    probed_of_place h.keeps.chained (Slot.position_add_one_ne_zero hs) hp hash
  rwa [Slot.entry_hash_position, h.probed_eq, ← List.filter_append] at hprobed

theorem placed_of_grow (hg : t.grow = .ok t') : t'.Placed (marks t.slots) :=
  grow_preserves (fun h hs hp => h.of_place_mark hs hp) (placed_reset {} t.capacity) hg

theorem probed_of_insert (hc : Chained t.slots) (hpos : position + 1 ≠ 0)
    (hg : t.needsGrowth = false) (hi : t.insert hash position = .ok t') (hash' : HashCode) :
    probed t'.slots hash' =
      probed t.slots hash' ++ [Slot.entry hash position].filter (·.hash = hash') :=
  probed_of_place hc hpos (place_of_insert hg hi) hash'

theorem probed_of_insert_of_grows (hpos : position + 1 ≠ 0)
    (hg : t.needsGrowth = true) (hi : t.insert hash position = .ok t') (hash' : HashCode) :
    probed t'.slots hash' = wrapped t.slots hash' ++ unwrapped t.slots hash' ++
      [Slot.entry hash position].filter (·.hash = hash') := by
  rw [insert_eq, if_pos hg] at hi
  obtain ⟨t₁, hgrow, hp⟩ := Checked.bind_eq_ok_iff.1 hi
  have h₁ := placed_of_grow hgrow
  rw [probed_of_place h₁.keeps.chained hpos hp, h₁.probed_eq, filter_marks_eq_append]

end StackCode.IndexTable
