import Mathlib
import StackCode.Proofs.IndexTable.Vacancy

/-! Tables just built anew. Their marks were placed in the order of the positions, so of the marks
with one hash a probe meets those of lower positions first, and a search finds the lowest position
that is accepted, as a scan from the front does. Growth places marks in the order of the slots and
keeps no such order. -/
namespace StackCode.IndexTable

variable {slots : Array Slot} {t t' : IndexTable} {hs : List HashCode} {hash : HashCode}
variable {i j p : ℕ} {s s' : Slot}

/-- After `i` steps the probe for `hash` is at the mark `s`, which has that hash. -/
structure Meets (slots : Array Slot) (hash : HashCode) (i : ℕ) (s : Slot) : Prop where
  lt_size : i < slots.size
  taken : Taken slots (ahead slots (home slots hash) i)
  look_eq : look slots (ahead slots (home slots hash) i) = s
  hash_eq : s.hash = hash

def InOrder (slots : Array Slot) : Prop :=
  ∀ hash i j s s', Meets slots hash i s → Meets slots hash j s' → s.position < s'.position → i < j

theorem Meets.mem_marks (h : Meets slots hash i s) : s ∈ marks slots :=
  IndexTable.mem_marks.2 ⟨_, h.taken, h.look_eq⟩

theorem Meets.taken_of_le (h : Meets slots hash i s) (hc : Chained slots) (hj : j ≤ i) :
    Taken slots (ahead slots (home slots hash) j) := by
  obtain ⟨k, hk, hik, ht⟩ := hc _ h.taken
  rw [h.look_eq, h.hash_eq] at hik ht
  obtain rfl := ahead_injective (home_lt (Nat.zero_lt_of_lt h.lt_size) hash) h.lt_size hk hik
  rcases Nat.lt_or_eq_of_le hj with hlt | rfl
  · exact ht j hlt
  · exact h.taken

theorem Meets.of_set (h : Meets (slots.setIfInBounds p s') hash i s) (hp : p < slots.size)
    (hs : s'.isEmpty = false) :
    ahead slots (home slots hash) i = p ∧ s = s' ∨ Meets slots hash i s := by
  obtain ⟨hi, ht, hl, hh⟩ := h
  rw [home_set, ahead_set] at ht hl
  rw [look_set _ _ hp] at hl
  rw [taken_set hp hs] at ht
  by_cases hip : ahead slots (home slots hash) i = p
  · rw [if_pos hip] at hl
    exact .inl ⟨hip, hl.symm⟩
  · rw [if_neg hip] at hl
    exact .inr ⟨by simpa using hi, ht.resolve_left hip, hl, hh⟩

theorem InOrder.fill (h : InOrder slots) (hc : Chained slots) (hp : p < slots.size)
    (hv : ¬Taken slots p) (hs : s.isEmpty = false)
    (hlast : ∀ s' ∈ marks slots, s'.position < s.position) :
    InOrder (slots.setIfInBounds p s) := by
  intro hash i j a b hi hj hab
  rcases hi.of_set hp hs with ⟨-, rfl⟩ | hi
  · rcases hj.of_set hp hs with ⟨-, rfl⟩ | hj
    · exact absurd hab (UInt32.lt_irrefl _)
    · exact absurd hab (UInt32.lt_asymm (hlast b hj.mem_marks))
  · rcases hj.of_set hp hs with ⟨hjp, -⟩ | hj
    · -- the new mark is in a slot that was vacant, hence behind those of its hash
      by_contra hji
      exact hv (hjp ▸ hi.taken_of_le hc (Nat.le_of_not_lt hji))
    · exact h hash i j a b hi hj hab

theorem eq_of_place {position : UInt32} (h : t.place hash position = .ok t') :
    ∃ p, p < t.slots.size ∧ ¬Taken t.slots p ∧
      t' = { t with slots := t.slots.setIfInBounds p (.entry hash position),
                    size := t.size + 1 } := by
  obtain ⟨_, -, h⟩ := Checked.bind_eq_ok_iff.1 h
  obtain ⟨p, hp, h⟩ := Checked.bind_eq_ok_iff.1 h
  cases h
  obtain ⟨hlt, hv⟩ := vacant_of_vacantFrom hp
  exact ⟨p, hlt, hv, rfl⟩

theorem slots_of_place {position : UInt32} (h : t.place hash position = .ok t') :
    ∃ p, p < t.slots.size ∧ ¬Taken t.slots p ∧
      t'.slots = t.slots.setIfInBounds p (.entry hash position) := by
  obtain ⟨p, hlt, hv, rfl⟩ := eq_of_place h
  exact ⟨p, hlt, hv, rfl⟩

theorem Keeps.position_lt (h : t.Keeps (entriesOf hs)) (hlen : hs.length < 2 ^ 32)
    (hmem : s ∈ marks t.slots) : s.position < .ofNat hs.length := by
  have hat := (h.mem_marks_iff hlen).1 ⟨s, hmem, rfl, rfl⟩
  rw [UInt32.lt_iff_toNat_lt, UInt32.toNat_ofNat_of_lt' hlen]
  exact (List.getElem?_eq_some_iff.1 hat).1

theorem InOrder.of_place_next (h : InOrder t.slots) (hk : t.Keeps (entriesOf hs))
    (hlen : hs.length + 1 < 2 ^ 32) (hp : t.place hash (.ofNat hs.length) = .ok t') :
    InOrder t'.slots := by
  obtain ⟨p, hlt, hv, hslots⟩ := slots_of_place hp
  rw [hslots]
  refine h.fill hk.chained hlt hv ?_ fun s' hs' => ?_
  · exact Slot.isEmpty_entry (ofNat_add_one_ne_zero hlen)
  · rw [Slot.position_entry]
    exact hk.position_lt (by omega) hs'

theorem InOrder.of_placeFrom (h : InOrder t.slots) (hk : t.Keeps (entriesOf hs))
    (hc : t.slots.size ≤ 2 ^ 31) {rest : List HashCode}
    (hf : t.placeFrom (.ofNat hs.length) rest = .ok t') : InOrder t'.slots := by
  have hall := placeFrom_preserves (P := fun t₁ hs => t₁.slots.size = t.slots.size ∧
    t₁.Keeps (entriesOf hs) ∧ InOrder t₁.slots) ?_ ⟨rfl, hk, h⟩ hf
  · exact hall.2.2
  · rintro t₁ t₂ hs hash ⟨hsize, hk, ho⟩ hp
    have hlen := hk.length_le
    rw [length_entriesOf, hsize] at hlen
    obtain ⟨hsize₂, hk₂⟩ := hk.of_place_next (hsize.le.trans hc) hp
    exact ⟨hsize₂.trans hsize, hk₂, ho.of_place_next hk (by omega) hp⟩

theorem inOrder_of_marks_nil (h : marks slots = []) : InOrder slots := by
  intro hash i j s s' hi
  have hmem := hi.mem_marks
  rw [h] at hmem
  cases hmem

theorem inOrder_reset (t : IndexTable) (count : UInt32) : InOrder (t.reset count).slots :=
  inOrder_of_marks_nil (List.perm_nil.1 (reset_holds t count).marks_perm)

theorem inOrder_of_rebuild {count : UInt32} (h : t.rebuild hs count = .ok t') :
    InOrder t'.slots :=
  (inOrder_reset t count).of_placeFrom (reset_keeps t count)
    (slots_le_of_capacity (capacity_reset t count)) (of_rebuild h).1

theorem allocated_of_rebuild {count : UInt32} (h : t.rebuild hs count = .ok t') :
    t'.allocated = (t.reset count).allocated := by
  have hf : (t.reset count).placeFrom (.ofNat ([] : List HashCode).length) hs = .ok t' :=
    (of_rebuild h).1
  refine placeFrom_preserves (P := fun t₁ _ => t₁.allocated = (t.reset count).allocated) ?_ rfl hf
  rintro t₁ t₂ _ hash h₁ hp
  obtain ⟨p, -, -, rfl⟩ := eq_of_place hp
  exact h₁

theorem rebuild_of_rebuild {count : UInt32} (h : t.rebuild hs count = .ok t') :
    t'.rebuild hs count = .ok t' := by
  have hreset : t'.reset count = t.reset count := by
    have hallocated := allocated_of_rebuild h
    simp only [reset] at hallocated ⊢
    rw [hallocated, Nat.max_assoc, Nat.max_self]
  rw [rebuild, hreset]
  exact h

theorem InOrder.position_le (h : InOrder slots) {s s' : Slot} (hi : Meets slots hash i s)
    (hj : Meets slots hash j s') (hij : i < j) : s.position ≤ s'.position := by
  by_contra hlt
  exact Nat.lt_asymm hij (h hash j i s' s hj hi (UInt32.not_le.1 hlt))

theorem InOrder.pairwise_le (h : InOrder slots) {f : ℕ → Slot} {k : ℕ}
    (hf : ∀ j < k, (f j).hash = hash → Meets slots hash j (f j)) :
    ((((List.range k).map f).filter (·.hash = hash)).map Slot.position).Pairwise (· ≤ ·) := by
  rw [List.pairwise_map, List.pairwise_filter, List.pairwise_map]
  refine List.pairwise_lt_range.imp_of_mem fun {i j} hi hj hij hhi hhj => ?_
  exact h.position_le (hf i (List.mem_range.1 hi) (of_decide_eq_true hhi))
    (hf j (List.mem_range.1 hj) (of_decide_eq_true hhj)) hij

theorem InOrder.candidates {k : ℕ} (h : InOrder slots) (hk : k < slots.size)
    (hr : Run slots (home slots hash) k) :
    (candidates slots hash (home slots hash) k).Pairwise (· ≤ ·) := by
  -- the marks met get a name of their own, lest their slots are computed
  obtain ⟨f, hf⟩ : ∃ f : ℕ → Slot, ∀ j, look slots (ahead slots (home slots hash) j) = f j :=
    ⟨_, fun _ => rfl⟩
  simp only [IndexTable.candidates, hf]
  exact h.pairwise_le fun j hj hh => ⟨hj.trans hk, hr.taken j hj, hf j, hh⟩

theorem le_of_find?_of_pairwise {is : List UInt32} (h : is.Pairwise (· ≤ ·))
    {good : UInt32 → Bool} {lowest other : UInt32} (hf : is.find? good = some lowest)
    (hmem : other ∈ is) (hgood : good other = true) : lowest ≤ other := by
  obtain ⟨-, before, behind, rfl, hbefore⟩ := List.find?_eq_some_iff_append.1 hf
  rcases List.mem_append.1 hmem with hmem | hmem
  · simpa [hgood] using hbefore other hmem
  · rcases List.mem_cons.1 hmem with rfl | hmem
    · exact UInt32.le_refl _
    · exact List.rel_of_pairwise_cons (List.pairwise_append.1 h).2.1 hmem

/-- In a table built anew a search asks about the positions of its hash from the lowest on. -/
theorem search_of_rebuild {count : UInt32} (h : t.rebuild hs count = .ok t') (hash : HashCode)
    {accepts : UInt32 → Checked Bool} (good : UInt32 → Bool)
    (hacc : ∀ i : UInt32, hs[i.toNat]? = some hash → accepts i = .ok (good i)) :
    ∃ is : List UInt32, t'.search hash accepts = .ok (.among good is) ∧ is.Pairwise (· ≤ ·) ∧
      ∀ i : UInt32, i ∈ is ↔ hs[i.toNat]? = some hash := by
  have hlen := length_lt_of_rebuild h
  have hholds : t'.Holds (entriesOf hs) := (tracks_of_rebuild h).represents hlen
  have hhome := home_lt hholds.size_pos hash
  obtain ⟨k, hk, hr⟩ := exists_run (hholds.keeps.hasVacancy hholds.length_lt) hhome
  have hmem : ∀ i : UInt32, i ∈ candidates t'.slots hash (home t'.slots hash) k ↔
      hs[i.toNat]? = some hash := fun i =>
    (mem_candidates hholds.chained hr).trans
      (hholds.keeps.mem_marks_iff (hlen.trans (by decide)))
  refine ⟨_, ?_, (inOrder_of_rebuild h).candidates hk hr, hmem⟩
  rw [search_eq_searchFrom hholds.size_pos]
  exact searchFrom_eq hr hk hhome fun i hi => hacc i ((hmem i).1 hi)

end StackCode.IndexTable
