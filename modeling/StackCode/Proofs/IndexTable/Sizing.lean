import Mathlib
import StackCode.Proofs.IndexTable.Vacancy

/-! Tables made for a number of entries. They get the least power of two that is at least sixteen
and keeps them below seven eighths, so that as many insertions find room without growth. This holds
below `maxEntries`; for more entries the power of two is lost in 32 bits, and a table has sixteen
slots, as if it were made for none. -/
namespace StackCode.IndexTable

variable {t : IndexTable} {m n : UInt32}

theorem powerAbove_mono {i j : ℕ} (h : i ≤ j) : powerAbove i ≤ powerAbove j := by
  obtain ⟨k, hk⟩ := powerAbove_eq_two_pow j
  rw [hk]
  exact powerAbove_le (h.trans (hk ▸ le_powerAbove j))

/-- The capacities at which `count` entries stay below seven eighths. -/
def roomyCapacities (count : ℕ) : Set ℕ := {c | (∃ k, c = 2 ^ k) ∧ 16 ≤ c ∧ 8 * count < 7 * c}

theorem isLeast_capacityFor (h : n.toNat < maxEntries) :
    IsLeast (roomyCapacities n.toNat) (capacityFor n).toNat := by
  obtain ⟨k, -, -, hk⟩ := toNat_capacityFor_eq_two_pow n
  refine ⟨⟨⟨k, hk⟩, ?_, load_capacityFor h⟩, ?_⟩
  · rw [toNat_capacityFor h]
    exact Nat.le_max_left _ _
  · rintro c ⟨⟨j, rfl⟩, hmin, hload⟩
    rw [toNat_capacityFor h]
    exact Nat.max_le.2 ⟨hmin, powerAbove_le (by omega)⟩

theorem toNat_capacityFor_mono (hmn : m.toNat ≤ n.toNat) (h : n.toNat < maxEntries) :
    (capacityFor m).toNat ≤ (capacityFor n).toNat := by
  rw [toNat_capacityFor h, toNat_capacityFor (hmn.trans_lt h)]
  exact max_le_max le_rfl (powerAbove_mono (by omega))

def insertAll (entries : List (HashCode × UInt32)) : List Event :=
  entries.map fun e => .insert e.1 e.2

theorem Counts.run_insertAll (h : t.Counts) (hn : n.toNat < maxEntries)
    (hslots : t.slots.size = (capacityFor n).toNat) {entries : List (HashCode × UInt32)}
    (hle : t.size.toNat + entries.length ≤ n.toNat) :
    Throughout (fun t _ => t.needsGrowth = false) t (insertAll entries) ∧
      ∃ t', run t (insertAll entries) = .ok t' ∧ t'.slots.size = t.slots.size ∧
        t'.size.toNat = t.size.toNat + entries.length := by
  induction entries generalizing t with
  | nil => exact ⟨trivial, t, rfl, rfl, rfl⟩
  | cons e entries ih =>
    rw [List.length_cons] at hle
    have hload := load_capacityFor hn
    have hone : (t.size + 1).toNat = t.size.toNat + 1 :=
      toNat_add_one (by rw [maxEntries] at hn; omega)
    have hsteady : t.needsGrowth = false := by
      rw [needsGrowth_eq h.size_pos, decide_eq_false_iff_not, Nat.not_lt, hslots]
      exact toNat_capacityFor_mono (by omega) hn
    obtain ⟨t₁, ht₁, hc₁, hslots₁, hsize₁⟩ := h.place e.1 e.2 (by omega)
    have hinsert : t.insert e.1 e.2 = .ok t₁ := by
      rw [insert_eq, hsteady]
      exact ht₁
    obtain ⟨hthrough, t', ht', hslots', hsize'⟩ := ih hc₁ (hslots₁.trans hslots) (by omega)
    refine ⟨⟨hsteady, fun t₂ ht₂ => ?_⟩, t', ?_, hslots'.trans hslots₁, ?_⟩
    · cases hinsert.symm.trans ht₂
      exact hthrough
    · change (t.insert e.1 e.2 >>= fun t => run t (insertAll entries)) = _
      rw [hinsert]
      exact ht'
    · rw [hsize', hsize₁, List.length_cons, Nat.add_assoc, Nat.add_comm 1]

/-- The table has the least capacity for `n` entries, and as many or fewer are inserted without
growth, whatever their hashes and positions. -/
structure SizedFor (t : IndexTable) (n : UInt32) : Prop where
  least : IsLeast (roomyCapacities n.toNat) t.slots.size
  steady : ∀ entries : List (HashCode × UInt32), entries.length ≤ n.toNat →
    Throughout (fun t _ => t.needsGrowth = false) t (insertAll entries) ∧
      ∃ t', run t (insertAll entries) = .ok t' ∧ t'.slots.size = t.slots.size

theorem sizedFor_reset (t : IndexTable) (h : n.toNat < maxEntries) : (t.reset n).SizedFor n := by
  refine ⟨size_slots_reset t n ▸ isLeast_capacityFor h, fun entries hlen => ?_⟩
  have hcounts := (reset_keeps t n).counts (capacity_reset t n)
  obtain ⟨hthrough, t', ht', hslots, -⟩ := hcounts.run_insertAll h (size_slots_reset t n)
    (show 0 + entries.length ≤ n.toNat by rwa [Nat.zero_add])
  exact ⟨hthrough, t', ht', hslots⟩

theorem slots_reset_of_le (t : IndexTable) (h : maxEntries ≤ n.toNat) :
    (t.reset n).slots.size = 16 := by
  rw [size_slots_reset, capacityFor_of_le h]
  rfl

theorem not_sizedFor_of_le (h : maxEntries ≤ n.toNat) (hslots : t.slots.size = 16) :
    ¬t.SizedFor n := by
  rintro ⟨⟨⟨-, -, hload⟩, -⟩, -⟩
  rw [hslots] at hload
  rw [maxEntries] at h
  omega

/-- A table emptied for `n` entries, as a new one is and one to be rebuilt, is large enough for them
and no larger than it has to be, just if they are fewer than `maxEntries`; then fewer entries get no
more slots. For as many or more it has sixteen slots. -/
theorem sizedFor_reset_iff (t : IndexTable) (n : UInt32) :
    ((t.reset n).SizedFor n ↔ n.toNat < maxEntries) ∧
      (maxEntries ≤ n.toNat → (t.reset n).slots.size = 16) ∧
      (∀ m ≤ n, n.toNat < maxEntries → (t.reset m).slots.size ≤ (t.reset n).slots.size) ∧
      ∀ hashes t', t.rebuild hashes n = .ok t' → t'.slots.size = (t.reset n).slots.size := by
  refine ⟨⟨fun hsized => ?_, sizedFor_reset t⟩, slots_reset_of_le t, fun m hmn hn => ?_,
    fun hashes t' => slots_of_rebuild⟩
  · by_contra hlt
    have hle := Nat.le_of_not_lt hlt
    exact not_sizedFor_of_le hle (slots_reset_of_le t hle) hsized
  · rw [size_slots_reset, size_slots_reset]
    exact toNat_capacityFor_mono (UInt32.le_iff_toNat_le.1 hmn) hn

/-- Made for `7 * 2 ^ 28` entries, a table has fewer slots than one made for one entry less, and
fourteen insertions make it grow. -/
theorem withCapacity_maxEntries :
    (withCapacity 1879048192).slots.size = 16 ∧
      ¬(withCapacity 1879048192).SizedFor 1879048192 ∧
      (withCapacity 1879048192).slots.size < (withCapacity 1879048191).slots.size ∧
      ¬Throughout (fun t _ => t.needsGrowth = false) (withCapacity 1879048192)
        (insertAll ((List.range 14).map fun i => (⟨.ofNat i⟩, .ofNat i))) := by
  have hle : maxEntries ≤ (1879048192 : UInt32).toNat := by decide
  have hslots := slots_reset_of_le {} hle
  refine ⟨hslots, not_sizedFor_of_le hle hslots, ?_, by decide +kernel⟩
  rw [withCapacity, hslots, withCapacity, size_slots_reset]
  decide

end StackCode.IndexTable
