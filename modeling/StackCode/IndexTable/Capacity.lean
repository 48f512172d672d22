import Mathlib
import StackCode.IndexTable.Basic

/-!
The number of slots is chosen as a power of two: the least one that is large enough. Below
`maxEntries` entries it fits into 32 bits.
-/
namespace StackCode.IndexTable

theorem powerAbove_eq_two_pow (n : ℕ) : ∃ k, powerAbove n = 2 ^ k := by
  unfold powerAbove
  split
  · exact ⟨0, rfl⟩
  · exact ⟨_, Nat.one_shiftLeft _⟩

theorem le_powerAbove (n : ℕ) : n ≤ powerAbove n := by
  unfold powerAbove
  split
  · assumption
  · have h := Nat.lt_log2_self (n := n - 1)
    rw [Nat.one_shiftLeft]
    omega

theorem powerAbove_le {n k : ℕ} (h : n ≤ 2 ^ k) : powerAbove n ≤ 2 ^ k := by
  unfold powerAbove
  split
  · exact Nat.one_le_two_pow
  · have hn : n - 1 ≠ 0 := by omega
    rw [Nat.one_shiftLeft]
    exact Nat.pow_le_pow_right (by decide) ((Nat.log2_lt hn).2 (by omega))

/-- Seven eighths of `2 ^ 31` slots. -/
def maxEntries : ℕ := 7 * 2 ^ 28

variable {count : UInt32}

theorem toNat_capacityFor (h : count.toNat < maxEntries) :
    (capacityFor count).toNat = max 16 (powerAbove (count.toNat * 8 / 7 + 1)) := by
  have hle : powerAbove (count.toNat * 8 / 7 + 1) ≤ 2 ^ 31 := by
    apply powerAbove_le
    unfold maxEntries at h
    omega
  have hlt : powerAbove (count.toNat * 8 / 7 + 1) < UInt32.size :=
    hle.trans_lt (by decide)
  rw [capacityFor, UInt32.toNat_max, UInt32.toNat_ofNat_of_lt' hlt]
  rfl

theorem load_capacityFor (h : count.toNat < maxEntries) :
    8 * count.toNat < 7 * (capacityFor count).toNat := by
  have hle := le_powerAbove (count.toNat * 8 / 7 + 1)
  rw [toNat_capacityFor h]
  omega

theorem toNat_capacityFor_eq_two_pow (count : UInt32) :
    ∃ k, 4 ≤ k ∧ k ≤ 31 ∧ (capacityFor count).toNat = 2 ^ k := by
  obtain ⟨j, hj⟩ := powerAbove_eq_two_pow (count.toNat * 8 / 7 + 1)
  rw [capacityFor, UInt32.toNat_max, UInt32.toNat_ofNat', hj,
    show minCapacity.toNat = 2 ^ 4 from rfl]
  by_cases h32 : 32 ≤ j
  · refine ⟨4, le_rfl, by decide, ?_⟩
    rw [Nat.mod_eq_zero_of_dvd (Nat.pow_dvd_pow 2 h32)]
    rfl
  · rw [Nat.mod_eq_of_lt (Nat.pow_lt_pow_right (by decide) (by omega))]
    by_cases h4 : 4 ≤ j
    · exact ⟨j, h4, by omega, max_eq_right (Nat.pow_le_pow_right (by decide) h4)⟩
    · exact ⟨4, le_rfl, by decide, max_eq_left (Nat.pow_le_pow_right (by decide) (by omega))⟩

theorem capacityFor_of_le (h : maxEntries ≤ count.toNat) : capacityFor count = minCapacity := by
  obtain ⟨k, hk⟩ := powerAbove_eq_two_pow (count.toNat * 8 / 7 + 1)
  have hle := le_powerAbove (count.toNat * 8 / 7 + 1)
  have hk32 : 32 ≤ k := by
    by_contra hlt
    have hpow : 2 ^ k ≤ 2 ^ 31 := Nat.pow_le_pow_right (by decide) (by omega)
    rw [hk] at hle
    unfold maxEntries at h
    omega
  apply UInt32.toNat_inj.1
  rw [capacityFor, UInt32.toNat_max, UInt32.toNat_ofNat', hk,
    Nat.mod_eq_zero_of_dvd (Nat.pow_dvd_pow 2 hk32)]
  rfl

end StackCode.IndexTable
