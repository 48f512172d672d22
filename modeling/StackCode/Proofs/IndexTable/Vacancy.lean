import Mathlib
import StackCode.Proofs.IndexTable.History
import StackCode.Proofs.IndexTable.Unbounded

/-! Tables put to any use: entries of any hash at any position, also at the last one, whose mark is
that of an empty slot; lists whose count is wrong; erasures of entries that are not there. What
remains of the invariant is that the slots are chained and that no more of them are occupied than
the table counts. Below `maxEntries` this leaves a vacancy, and every probe ends there at the
latest. -/
namespace StackCode

/-- The outcome is a value with this property or one of these faults. -/
def Checked.Yields {α : Type} (faults : Set Fault) (P : α → Prop) (x : Checked α) : Prop :=
  (∃ a, x = .ok a ∧ P a) ∨ ∃ fault ∈ faults, x = .error fault

theorem Checked.Yields.bind {α β : Type} {faults : Set Fault} {P : α → Prop} {Q : β → Prop}
    {x : Checked α} {f : α → Checked β} (hx : Yields faults P x)
    (hf : ∀ a, x = .ok a → P a → Yields faults Q (f a)) : Yields faults Q (x >>= f) := by
  rcases hx with ⟨a, rfl, ha⟩ | ⟨fault, hfault, rfl⟩
  · exact hf a rfl ha
  · exact .inr ⟨fault, hfault, rfl⟩

theorem Checked.Yields.mono {α : Type} {faults faults' : Set Fault} {P Q : α → Prop}
    {x : Checked α} (hx : Yields faults P x) (hfaults : faults ⊆ faults') (hP : ∀ a, P a → Q a) :
    Yields faults' Q x := by
  rcases hx with ⟨a, rfl, ha⟩ | ⟨fault, hfault, rfl⟩
  · exact .inl ⟨a, rfl, hP a ha⟩
  · exact .inr ⟨fault, hfaults hfault, rfl⟩

theorem Checked.yields_require {faults : Set Fault} {fault : Fault} (h : fault ∈ faults)
    (condition : Bool) : Yields faults (fun _ => condition = true) (.require fault condition) := by
  cases condition with
  | false => exact .inr ⟨fault, h, rfl⟩
  | true => exact .inl ⟨(), rfl, rfl⟩

namespace IndexTable

open Checked (Yields yields_require)

variable {slots : Array Slot} {t : IndexTable} {ms : List Slot} {a p : ℕ}

theorem holderFrom_yields {tag : UInt32} {k fuel : ℕ} (hr : Run slots a k) (hk : k < fuel)
    (ha : a < slots.size) :
    Yields {.entryNotIndexed} (fun p => p < slots.size ∧ (look slots p).tag = tag)
      (holderFrom slots tag fuel a) := by
  obtain ⟨c, rfl⟩ := Nat.exists_eq_add_of_lt hk
  clear hk
  induction k generalizing a with
  | zero =>
    by_cases htag : (look slots a).tag = tag
    · exact .inl ⟨a, by simp [holderFrom, slotAt_eq ha, htag], ha, htag⟩
    · exact .inr ⟨_, rfl, by simp [holderFrom, slotAt_eq ha, htag, hr.head_vacant ha]⟩
  | succ k ih =>
    have hrest := ih hr.tail (next_lt (Nat.zero_lt_of_lt ha) a)
    rw [Nat.add_right_comm] at hrest
    by_cases htag : (look slots a).tag = tag
    · exact .inl ⟨a, by simp [holderFrom, slotAt_eq ha, htag], ha, htag⟩
    · simpa [holderFrom, slotAt_eq ha, htag, hr.head_taken ha] using hrest

theorem searchFrom_of_ne_hash {hash : HashCode} {accepts : UInt32 → Checked Bool}
    (ht : Taken slots a) (hh : (look slots a).hash ≠ hash) (fuel : ℕ) :
    searchFrom slots hash accepts (fuel + 1) a =
      searchFrom slots hash accepts fuel (next slots a) := by
  simp [searchFrom, slotAt_eq ht.lt_size, show (look slots a).isEmpty = false from ht, hh]

theorem searchFrom_of_hash {accepts : UInt32 → Checked Bool} (ht : Taken slots a) (fuel : ℕ) :
    searchFrom slots (look slots a).hash accepts (fuel + 1) a =
      accepts (look slots a).position >>= fun good =>
        if good then .ok { found := some (look slots a).position,
                           asked := [(look slots a).position] }
        else searchFrom slots (look slots a).hash accepts fuel (next slots a) >>= fun answer =>
          .ok (answer.after (look slots a).position) := by
  simp [searchFrom, slotAt_eq ht.lt_size, show (look slots a).isEmpty = false from ht]

def faultsOf (accepts : UInt32 → Checked Bool) : Set Fault :=
  {fault | ∃ i, accepts i = .error fault}

theorem yields_accepts (accepts : UInt32 → Checked Bool) (i : UInt32) :
    Yields (faultsOf accepts) (fun _ => True) (accepts i) := by
  cases hacc : accepts i with
  | ok good => exact .inl ⟨good, rfl, trivial⟩
  | error fault => exact .inr ⟨fault, ⟨i, hacc⟩, rfl⟩

theorem searchFrom_yields {hash : HashCode} {accepts : UInt32 → Checked Bool} {k fuel : ℕ}
    (hr : Run slots a k) (hk : k < fuel) (ha : a < slots.size) :
    Yields (faultsOf accepts) (fun answer => answer.asked.length ≤ k)
      (searchFrom slots hash accepts fuel a) := by
  obtain ⟨c, rfl⟩ := Nat.exists_eq_add_of_lt hk
  clear hk
  induction k generalizing a with
  | zero => exact .inl ⟨{}, by simp [searchFrom, slotAt_eq ha, hr.head_vacant ha], le_rfl⟩
  | succ k ih =>
    have hrest := ih hr.tail (next_lt (Nat.zero_lt_of_lt ha) a)
    rw [Nat.add_right_comm k 1 c]
    by_cases hh : (look slots a).hash = hash
    · subst hh
      rw [searchFrom_of_hash (hr.head_taken ha)]
      refine (yields_accepts accepts _).bind fun good _ _ => ?_
      cases good with
      | true => exact .inl ⟨_, rfl, Nat.succ_pos k⟩
      | false =>
        refine hrest.bind fun answer _ hle => .inl ⟨_, rfl, ?_⟩
        simpa [Search.after] using hle
    · rw [searchFrom_of_ne_hash (hr.head_taken ha) hh]
      exact hrest.mono Set.Subset.rfl fun _ => Nat.le_succ_of_le

theorem length_marks_set_le (hp : p < slots.size) (s : Slot) :
    (marks (slots.setIfInBounds p s)).length ≤ (marks slots).length + 1 := by
  have hold := (marks_set hp (look slots p)).length_eq
  have hnew := (marks_set hp s).length_eq
  have hone := List.length_filter_le (!·.isEmpty) [s]
  rw [set_look hp, List.length_append] at hold
  rw [List.length_append] at hnew
  rw [List.length_singleton] at hone
  omega

theorem taken_set_vacant (hp : p < slots.size) (hv : ¬Taken slots p) {s : Slot}
    (hs : s.isEmpty = true) (q : ℕ) : Taken (slots.setIfInBounds p s) q ↔ Taken slots q := by
  rw [Taken, Taken, look_set _ _ hp]
  by_cases hq : q = p
  · simp [hq, hs, isEmpty_look hv]
  · rw [if_neg hq]

theorem Chained.set_vacant (h : Chained slots) (hp : p < slots.size) (hv : ¬Taken slots p)
    {s : Slot} (hs : s.isEmpty = true) : Chained (slots.setIfInBounds p s) := by
  have hsame := taken_set_vacant hp hv hs
  intro q hq
  have hne : q ≠ p := fun hqp => hv (hqp ▸ (hsame q).1 hq)
  obtain ⟨k, hk, hqk, ht⟩ := h q ((hsame q).1 hq)
  rw [home_set, look_set _ _ hp, if_neg hne]
  refine ⟨k, by simpa using hk, by rw [ahead_set]; exact hqk, fun j hj => ?_⟩
  rw [ahead_set]
  exact (hsame _).2 (ht j hj)

/-- The slots are chained, and at most as many of them are occupied as the table counts. -/
structure Counts (t : IndexTable) : Prop where
  chained : Chained t.slots
  marks_le : (marks t.slots).length ≤ t.size.toNat
  capacity : ∃ k, 4 ≤ k ∧ k ≤ 31 ∧ t.slots.size = 2 ^ k

theorem Counts.size_pos (h : t.Counts) : 0 < t.slots.size := by
  obtain ⟨k, -, -, hk⟩ := h.capacity
  rw [hk]
  exact Nat.two_pow_pos k

theorem Counts.hasVacancy (h : t.Counts) (hroom : t.size.toNat < t.slots.size) :
    HasVacancy t.slots :=
  hasVacancy_of_length_lt (h.marks_le.trans_lt hroom)

theorem Keeps.counts (h : t.Keeps ms) (hc : ∃ k, 4 ≤ k ∧ k ≤ 31 ∧ t.slots.size = 2 ^ k) :
    t.Counts :=
  ⟨h.chained, (h.marks_perm.length_eq.trans h.size_eq.symm).le, hc⟩

theorem Counts.place (h : t.Counts) (hash : HashCode) (position : UInt32)
    (hroom : t.size.toNat < t.slots.size) :
    ∃ t', t.place hash position = .ok t' ∧ t'.Counts ∧ t'.slots.size = t.slots.size ∧
      t'.size.toNat = t.size.toNat + 1 := by
  have hhome := home_lt h.size_pos hash
  obtain ⟨k, hk, hr⟩ := exists_run (h.hasVacancy hroom) hhome
  have hp := ahead_lt hhome k
  have hmax := slots_le_of_capacity h.capacity
  have hsize : (t.size + 1).toNat = t.size.toNat + 1 := toNat_add_one (by omega)
  let filled := t.slots.setIfInBounds (ahead t.slots (home t.slots hash) k) (.entry hash position)
  have hchained : Chained filled := by
    by_cases hs : (Slot.entry hash position).isEmpty = true
    · exact h.chained.set_vacant hp hr.vacant hs
    · exact h.chained.fill rfl (Bool.eq_false_iff.2 hs) hp ⟨k, hk, rfl, hr.taken⟩
  have hmarks : (marks filled).length ≤ (t.size + 1).toNat := by
    have hle := h.marks_le
    have hset := length_marks_set_le hp (.entry hash position)
    rw [hsize]
    exact hset.trans (by omega)
  refine ⟨{ t with slots := filled, size := t.size + 1 }, ?_, ⟨hchained, hmarks, ?_⟩, ?_, hsize⟩
  · simp [IndexTable.place, hroom, vacantFrom_eq hr hk hhome, filled]
  · simpa [filled] using h.capacity
  · simp [filled]

theorem Counts.placeFrom (h : t.Counts) (position : UInt32) (hashes : List HashCode) :
    Yields {.tableFull} Counts (t.placeFrom position hashes) := by
  induction hashes generalizing t position with
  | nil => exact .inl ⟨t, rfl, h⟩
  | cons hash rest ih =>
    by_cases hroom : t.size.toNat < t.slots.size
    · obtain ⟨t', ht', hc, -⟩ := h.place hash position hroom
      rw [IndexTable.placeFrom, ht']
      exact ih hc (position + 1)
    · exact .inr ⟨_, rfl, by simp [IndexTable.placeFrom, IndexTable.place, hroom]⟩

structure Sparse (t : IndexTable) : Prop extends Counts t where
  load : 8 * t.size.toNat < 7 * t.slots.size

theorem Sparse.size_lt (h : t.Sparse) : t.size.toNat < t.slots.size := by
  have hl := h.load
  omega

theorem Holds.sparse (h : t.Holds ms) (hc : ∃ k, 4 ≤ k ∧ k ≤ 31 ∧ t.slots.size = 2 ^ k) :
    t.Sparse :=
  ⟨h.keeps.counts hc, h.size_eq ▸ h.load⟩

def Open (t : IndexTable) : Prop := t.slots = #[] ∧ t.size = 0 ∨ t.Sparse

theorem fresh_open (start : Option UInt32) : (fresh start).Open := by
  cases start with
  | none => exact .inl ⟨rfl, rfl⟩
  | some count => exact .inr ((reset_holds {} count).sparse (capacity_reset {} count))

theorem Open.clear (h : t.Open) : t.clear.Open := by
  rcases h with ⟨hs, -⟩ | h
  · exact .inl ⟨by simp [IndexTable.clear, hs], rfl⟩
  · obtain ⟨k, hk, hk31, hsize⟩ := h.capacity
    have hempty : t.clear.Holds [] := holds_nil rfl rfl ⟨k, hk, hsize⟩
    exact .inr (hempty.sparse ⟨k, hk, hk31, by simpa [IndexTable.clear] using hsize⟩)

theorem sparse_of_grow (hc : t.slots.size < maxEntries) :
    ∃ t', t.grow = .ok t' ∧ t'.Sparse ∧ t'.size.toNat = (marks t.slots).length ∧
      8 * t.slots.size < 7 * t'.slots.size := by
  obtain ⟨t', ht', hh, hload⟩ := grow_holds hc
  exact ⟨t', ht', hh.sparse (keeps_of_grow ht').2, hh.size_eq, hload⟩

theorem Open.roomy (h : t.Open) (hn : t.size.toNat + 1 < maxEntries) :
    ∃ t', (if t.needsGrowth then t.grow else .ok t) = .ok t' ∧ t'.Sparse ∧
      t'.size.toNat ≤ t.size.toNat ∧ 8 * (t'.size.toNat + 1) < 7 * t'.slots.size := by
  rcases h with ⟨hs, hzero⟩ | h
  · obtain ⟨t', ht', hsp, hsize, -⟩ := sparse_of_grow (t := t) (by rw [hs]; decide)
    obtain ⟨k, hk, -, he⟩ := hsp.capacity
    have hpow : 2 ^ 4 ≤ 2 ^ k := Nat.pow_le_pow_right (by decide) hk
    have hnone : t'.size.toNat = 0 := by simpa [marks, hs] using hsize
    exact ⟨t', by simp [needsGrowth, hs, ht'], hsp, by omega, by omega⟩
  · rw [needsGrowth_eq h.size_pos]
    by_cases hg : t.slots.size < (capacityFor (t.size + 1)).toNat
    · obtain ⟨k, -, -, hk⟩ := h.capacity
      obtain ⟨t', ht', hsp, hsize, hl⟩ := sparse_of_grow (slots_lt_of_lt ⟨k, hk⟩ hg)
      have hle := h.marks_le
      have hlt := h.size_lt
      exact ⟨t', by simp [hg, ht'], hsp, by omega, by omega⟩
    · have hone : (t.size + 1).toNat = t.size.toNat + 1 := toNat_add_one (hn.trans (by decide))
      have hl : 8 * (t.size + 1).toNat < 7 * (capacityFor (t.size + 1)).toNat :=
        load_capacityFor (by rwa [hone])
      exact ⟨t, by simp [hg], h, le_rfl, by omega⟩

theorem Open.insert (h : t.Open) (hn : t.size.toNat + 1 < maxEntries) (hash : HashCode)
    (position : UInt32) :
    ∃ t', t.insert hash position = .ok t' ∧ t'.Sparse ∧ t'.size.toNat ≤ t.size.toNat + 1 := by
  obtain ⟨t₁, ht₁, hsp, hle, hload⟩ := h.roomy hn
  obtain ⟨t', ht', hc, hslots, hsize⟩ := hsp.place hash position hsp.size_lt
  refine ⟨t', ?_, ⟨hc, by rw [hsize, hslots]; exact hload⟩, by omega⟩
  rw [insert_eq, ht₁]
  exact ht'

theorem length_lt_of_rebuild {t' : IndexTable} {hashes : List HashCode} {count : UInt32}
    (h : t.rebuild hashes count = .ok t') : hashes.length < maxEntries := by
  have htracks := tracks_of_rebuild h
  obtain ⟨-, hcount⟩ := of_rebuild h
  have hle := htracks.length_le
  have hmax := htracks.length_le_two_pow
  by_contra hlt
  -- so long a list gets the fewest slots
  have hfew : capacityFor count = minCapacity := by
    apply capacityFor_of_le
    rw [← hcount, UInt32.toNat_ofNat_of_lt' (hmax.trans_lt (by decide))]
    omega
  rw [slots_of_rebuild h, size_slots_reset, hfew] at hle
  exact hlt (hle.trans_lt (by decide))

theorem rebuild_yields (t : IndexTable) (hashes : List HashCode) (count : UInt32) :
    Yields {.tableFull, .countMismatch} (fun t' => t'.Sparse ∧ t'.size.toNat = hashes.length)
      (t.rebuild hashes count) := by
  have hempty := (reset_keeps t count).counts (capacity_reset t count)
  have hfilled : Yields {.tableFull, .countMismatch} Counts ((t.reset count).placeFrom 0 hashes) :=
    (hempty.placeFrom 0 hashes).mono (by simp) fun _ => id
  have hout : Yields {.tableFull, .countMismatch} (fun _ => True) (t.rebuild hashes count) :=
    hfilled.bind fun _ _ _ => (yields_require (by simp) _).bind fun _ _ _ => .inl ⟨_, rfl, trivial⟩
  rcases hout with ⟨t', ht', -⟩ | hfault
  · have htracks := tracks_of_rebuild ht'
    have hholds : t'.Holds (entriesOf hashes) := htracks.represents (length_lt_of_rebuild ht')
    exact .inl ⟨t', ht', hholds.sparse htracks.capacity, by
      rw [hholds.size_eq, length_entriesOf]⟩
  · exact .inr hfault

theorem eraseLast_yields (hc : Chained t.slots) (hv : HasVacancy t.slots) (hn : t.size ≠ 0)
    (hash : HashCode) (position : UInt32) :
    Yields {.notLastEntry, .entryNotIndexed}
      (fun t' => Chained t'.slots ∧ t'.slots.size = t.slots.size ∧
        t'.size.toNat + 1 = t.size.toNat ∧
        ∃ s, s.position = position ∧ (marks t.slots).Perm (s :: marks t'.slots))
      (t.eraseLast hash position) := by
  have hhome := home_lt hv.size_pos hash
  obtain ⟨k, hk, hr⟩ := exists_run hv hhome
  refine (yields_require (by simp) _).bind fun _ _ hlast => ?_
  rw [beq_iff_eq] at hlast
  refine ((holderFrom_yields hr hk hhome).mono (by simp) (fun _ => id)).bind
    fun hole _ ⟨_, htag⟩ => ?_
  have htaken : Taken t.slots hole := by
    rw [Taken, Slot.isEmpty, htag, hlast]
    simpa using hn
  obtain ⟨out, hout, hsize, hmarks, hchained⟩ := closeGap_taken hc hv htaken
  have hcount : (t.size - 1).toNat + 1 = t.size.toNat := by
    have hsome : 0 < t.size.toNat := Nat.pos_of_ne_zero fun hzero => hn (UInt32.toNat_inj.1 hzero)
    have hone : (1 : UInt32) ≤ t.size := UInt32.le_iff_toNat_le.2 hsome
    rw [UInt32.toNat_sub_of_le _ _ hone]
    exact Nat.sub_add_cancel hsome
  have hposition : (look t.slots hole).position = position := by
    rw [Slot.position, htag, UInt32.add_sub_cancel]
  exact .inl ⟨{ t with slots := out, size := t.size - 1 }, by rw [hout]; rfl, hchained, hsize,
    hcount, _, hposition, hmarks⟩

theorem Open.eraseLast (h : t.Open) (hn : t.size ≠ 0) (hash : HashCode) (position : UInt32) :
    Yields {.notLastEntry, .entryNotIndexed}
      (fun t' => t'.Sparse ∧ t'.size.toNat + 1 = t.size.toNat) (t.eraseLast hash position) := by
  obtain h : t.Sparse := h.resolve_left fun hblank => hn hblank.2
  refine (eraseLast_yields h.chained (h.hasVacancy h.size_lt) hn hash position).mono subset_rfl ?_
  rintro t' ⟨hchained, hsize, hcount, s, -, hmarks⟩
  have hfewer := hmarks.length_eq
  rw [List.length_cons] at hfewer
  have hle := h.marks_le
  have hload := h.load
  exact ⟨⟨⟨hchained, by omega, by rw [hsize]; exact h.capacity⟩, by rw [hsize]; omega⟩, hcount⟩

/-- Every probe in the table meets a vacant slot within as many steps as there are slots. -/
structure ProbesEnd (t : IndexTable) : Prop where
  capacity : t.slots = #[] ∨ ∃ k, 4 ≤ k ∧ k ≤ 31 ∧ t.slots.size = 2 ^ k
  toNat_capacity : t.capacity.toNat = t.slots.size
  home_lt : t.slots ≠ #[] → ∀ hash, home t.slots hash < t.capacity.toNat
  run : ∀ a < t.slots.size, ∃ k < t.slots.size, Run t.slots a k
  search : ∀ hash accepts, Yields (faultsOf accepts)
    (fun answer => answer.asked.length ≤ t.slots.size) (t.search hash accepts)

theorem Open.search (h : t.Open) (hash : HashCode) (accepts : UInt32 → Checked Bool) :
    Yields (faultsOf accepts) (fun answer => answer.asked.length ≤ t.slots.size)
      (t.search hash accepts) := by
  rcases h with ⟨hs, -⟩ | h
  · exact .inl ⟨{}, by simp [IndexTable.search, hs], Nat.zero_le _⟩
  · have hhome := IndexTable.home_lt h.size_pos hash
    obtain ⟨k, hk, hr⟩ := exists_run (h.hasVacancy h.size_lt) hhome
    rw [search_eq_searchFrom h.size_pos]
    exact (searchFrom_yields hr hk hhome).mono Set.Subset.rfl fun _ hle => hle.trans hk.le

theorem Open.probesEnd (h : t.Open) : t.ProbesEnd := by
  have hcapacity : t.slots = #[] ∨ ∃ k, 4 ≤ k ∧ k ≤ 31 ∧ t.slots.size = 2 ^ k :=
    h.imp And.left fun hsp => hsp.capacity
  have hle : t.slots.size ≤ 2 ^ 31 := by
    rcases hcapacity with hs | hc
    · simp [hs]
    · exact slots_le_of_capacity hc
  have hnat : t.capacity.toNat = t.slots.size :=
    UInt32.toNat_ofNat_of_lt' (hle.trans_lt (by decide))
  refine ⟨hcapacity, hnat, fun hne hash => ?_, fun a ha => ?_, h.search⟩
  · rw [hnat]
    exact IndexTable.home_lt (Array.size_pos_iff.2 hne) hash
  · rcases h with ⟨hs, -⟩ | h
    · simp [hs] at ha
    · exact exists_run (h.hasVacancy h.size_lt) ha

def Throughout (P : IndexTable → Event → Prop) (t : IndexTable) : List Event → Prop
  | [] => True
  | e :: es => P t e ∧ ∀ t', e.apply t = .ok t' → Throughout P t' es

instance decidableThroughout (P : IndexTable → Event → Prop) [∀ t e, Decidable (P t e)] :
    ∀ t es, Decidable (Throughout P t es)
  | _, [] => .isTrue trivial
  | t, e :: es =>
    match h : e.apply t with
    | .ok t' =>
      have := decidableThroughout P t' es
      decidable_of_iff (P t e ∧ Throughout P t' es)
        (by simp [Throughout, h])
    | .error _ => decidable_of_iff (P t e) (by simp [Throughout, h])

def Event.Erasable (t : IndexTable) : Event → Prop
  | .eraseLast _ _ => t.size ≠ 0
  | _ => True

instance (t : IndexTable) : ∀ e : Event, Decidable (e.Erasable t)
  | .eraseLast _ _ => inferInstanceAs (Decidable (t.size ≠ 0))
  | .insert _ _ | .rebuild _ _ | .clear => .isTrue trivial

/-- An erasure finds an entry, and an insertion fewer than the bound, its own entry counted. -/
def Event.Tame (t : IndexTable) : Event → Prop
  | .insert _ _ => t.size.toNat + 1 < maxEntries
  | e => e.Erasable t

def insertions : List Event → ℕ
  | [] => 0
  | .insert _ _ :: es => insertions es + 1
  | .rebuild hashes _ :: es => insertions es + hashes.length
  | _ :: es => insertions es

/-- The faults of the assertions about what the caller passes. -/
def callerFaults : Set Fault := {.tableFull, .countMismatch, .notLastEntry, .entryNotIndexed}

theorem Event.apply_yields (h : t.Open) {e : Event} (he : e.Tame t) :
    Yields callerFaults (fun t' => t'.Open ∧ t'.size.toNat ≤ t.size.toNat + insertions [e])
      (e.apply t) := by
  cases e with
  | insert hash position =>
    obtain ⟨t', ht', hsp, hle⟩ := h.insert he hash position
    exact .inl ⟨t', ht', .inr hsp, hle⟩
  | eraseLast hash position =>
    exact (h.eraseLast he hash position).mono (by simp [callerFaults, Set.insert_subset_iff])
      fun _ ⟨hsp, hsize⟩ => ⟨.inr hsp, by simp only [insertions]; omega⟩
  | rebuild hashes count =>
    exact (rebuild_yields t hashes count).mono (by simp [callerFaults, Set.insert_subset_iff])
      fun _ ⟨hsp, hsize⟩ => ⟨.inr hsp, by simp only [insertions]; omega⟩
  | clear => exact .inl ⟨t.clear, rfl, h.clear, Nat.zero_le _⟩

theorem run_yields {es : List Event} (h : t.Open) (ht : Throughout Event.Tame t es) :
    Yields callerFaults Open (run t es) := by
  induction es generalizing t with
  | nil => exact .inl ⟨t, rfl, h⟩
  | cons e es ih =>
    exact (Event.apply_yields h ht.1).bind fun t' ht' hopen => ih hopen.1 (ht.2 t' ht')

theorem insertions_cons (e : Event) (es : List Event) :
    insertions (e :: es) = insertions [e] + insertions es := by
  cases e <;> simp [insertions, Nat.add_comm]

theorem tame_of_insertions_lt {es : List Event} (h : t.Open)
    (hn : t.size.toNat + insertions es < maxEntries) (he : Throughout Event.Erasable t es) :
    Throughout Event.Tame t es := by
  induction es generalizing t with
  | nil => trivial
  | cons e es ih =>
    rw [insertions_cons] at hn
    have htame : e.Tame t := by
      cases e with
      | insert hash position =>
        simp only [insertions] at hn
        exact Nat.lt_of_le_of_lt (by omega) hn
      | eraseLast | rebuild | clear => exact he.1
    refine ⟨htame, fun t' ht' => ?_⟩
    rcases Event.apply_yields h htame with ⟨t₁, ht₁, hopen, hle⟩ | ⟨fault, -, hfault⟩
    · cases ht₁.symm.trans ht'
      exact ih hopen (by omega) (he.2 t' ht')
    · cases hfault.symm.trans ht'

/-- No probe is without an end: each meets its goal, a vacant slot, or the assertion that fails. -/
theorem probes_end_in_run (start : Option UInt32) {es : List Event}
    (h : Throughout Event.Tame (fresh start) es) :
    Yields callerFaults ProbesEnd (run (fresh start) es) :=
  (run_yields (fresh_open start) h).mono Set.Subset.rfl fun _ => Open.probesEnd

theorem probes_end_in_run_without_mark :
    Throughout Event.Tame (fresh none)
      [.insert ⟨8⟩ 4294967295, .insert ⟨8⟩ 0, .insert ⟨8⟩ 0, .insert ⟨21⟩ 3, .eraseLast ⟨21⟩ 3] ∧
    ∃ t, run (fresh none)
        [.insert ⟨8⟩ 4294967295, .insert ⟨8⟩ 0, .insert ⟨8⟩ 0, .insert ⟨21⟩ 3,
          .eraseLast ⟨21⟩ 3] = .ok t ∧
      ∃ answer, t.search ⟨8⟩ (fun _ => .ok false) = .ok answer ∧
        answer.asked.length ≤ t.slots.size := by
  -- the first entry leaves no mark, and the third has the position of the second
  have ht : Throughout Event.Tame (fresh none)
      [.insert ⟨8⟩ 4294967295, .insert ⟨8⟩ 0, .insert ⟨8⟩ 0, .insert ⟨21⟩ 3, .eraseLast ⟨21⟩ 3] :=
    tame_of_insertions_lt (fresh_open none) (by decide) (by decide +kernel)
  refine ⟨ht, ?_⟩
  rcases probes_end_in_run none ht with ⟨t, hrun, hends⟩ | ⟨fault, -, hfault⟩
  · refine ⟨t, hrun, ?_⟩
    rcases hends.search ⟨8⟩ fun _ => .ok false with hanswer | ⟨fault, ⟨i, hi⟩, -⟩
    · exact hanswer
    · cases hi
  · have hok : (run (fresh none) [.insert ⟨8⟩ 4294967295, .insert ⟨8⟩ 0, .insert ⟨8⟩ 0,
        .insert ⟨21⟩ 3, .eraseLast ⟨21⟩ 3]).isOk = true := by decide +kernel
    rw [hfault] at hok
    cases hok

end IndexTable

end StackCode
