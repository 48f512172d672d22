import Mathlib
import StackCode.Bytes

/-! Numbers written in digits. To a base of at most sixteen they are read back, and what follows
the digits shows where they end, so that neither is lost if two such texts are equal. -/
namespace StackCode

/-- Digits from ten up are lower case letters. -/
def isDigit (b : UInt8) : Bool := 0x30 ≤ b && b ≤ 0x39 || 0x61 ≤ b && b ≤ 0x66

def digitValue (b : UInt8) : ℕ := if b ≤ 0x39 then b.toNat - 0x30 else b.toNat - 0x57

def readDigits (base n : ℕ) (ds : ByteString) : ℕ :=
  ds.foldl (fun n b => base * n + digitValue b) n

theorem isDigit_digitChar : ∀ d < 16, isDigit (Nat.digitChar d).toNat.toUInt8 = true := by
  decide

theorem digitValue_digitChar : ∀ d < 16, digitValue (Nat.digitChar d).toNat.toUInt8 = d := by
  decide

variable (base : ℕ) (hbase : 1 < base) (hle : base ≤ 16)
include hbase hle

theorem isDigit_of_mem_toDigits (n : ℕ) :
    ∀ b ∈ bytesOf (Nat.toDigits base n), isDigit b = true := by
  induction n using Nat.strong_induction_on with
  | _ n ih =>
    rw [Nat.toDigits_eq_if hbase]
    split
    · next hlt =>
      intro b hb
      obtain rfl := List.mem_singleton.1 hb
      exact isDigit_digitChar n (hlt.trans_le hle)
    · next hlt =>
      have hsmaller : n / base < n := Nat.div_lt_self (by omega) hbase
      have hlast := isDigit_digitChar (n % base) ((Nat.mod_lt n (by omega)).trans_le hle)
      rw [bytesOf, List.map_append, List.forall_mem_append]
      exact ⟨ih _ hsmaller, List.forall_mem_singleton.2 hlast⟩

theorem readDigits_toDigits (n : ℕ) :
    readDigits base 0 (bytesOf (Nat.toDigits base n)) = n := by
  induction n using Nat.strong_induction_on with
  | _ n ih =>
    rw [Nat.toDigits_eq_if hbase]
    split
    · next hlt =>
      have hdigit := digitValue_digitChar n (hlt.trans_le hle)
      simp only [bytesOf, readDigits, List.map_cons, List.map_nil, List.foldl_cons, List.foldl_nil,
        hdigit, Nat.mul_zero, Nat.zero_add]
    · next hlt =>
      have hrest := ih (n / base) (Nat.div_lt_self (by omega) hbase)
      have hdigit := digitValue_digitChar (n % base) ((Nat.mod_lt n (by omega)).trans_le hle)
      rw [bytesOf, readDigits] at hrest
      rw [bytesOf, readDigits, List.map_append, List.foldl_append, hrest]
      simp only [List.map_cons, List.map_nil, List.foldl_cons, List.foldl_nil, hdigit]
      exact Nat.div_add_mod n base

omit hbase hle

theorem append_inj_of_takeWhile {p : UInt8 → Bool} {a a' r r' : ByteString}
    (ha : ∀ b ∈ a, p b = true) (ha' : ∀ b ∈ a', p b = true) (hr : ∀ b ∈ r.head?, p b = false)
    (hr' : ∀ b ∈ r'.head?, p b = false) (h : a ++ r = a' ++ r') : a = a' ∧ r = r' := by
  have hcut : ∀ {x y : ByteString}, (∀ b ∈ x, p b = true) → (∀ b ∈ y.head?, p b = false) →
      (x ++ y).takeWhile p = x := by
    intro x y hx hy
    rw [List.takeWhile_append_of_pos hx]
    cases y with
    | nil => exact List.append_nil x
    | cons b y =>
      rw [List.takeWhile_cons_of_neg (by simp [hy b rfl]), List.append_nil]
  have heq : a = a' := by rw [← hcut ha hr, h, hcut ha' hr']
  subst heq
  exact ⟨rfl, List.append_cancel_left h⟩

theorem decimal_append_inj {n m : ℕ} {r r' : ByteString} (hr : ∀ b ∈ r.head?, isDigit b = false)
    (hr' : ∀ b ∈ r'.head?, isDigit b = false) (h : decimal n ++ r = decimal m ++ r') :
    n = m ∧ r = r' := by
  have hdigits := isDigit_of_mem_toDigits 10 (by decide) (by decide)
  obtain ⟨hnm, hrest⟩ := append_inj_of_takeWhile (hdigits n) (hdigits m) hr hr' h
  have hread := readDigits_toDigits 10 (by decide) (by decide)
  refine ⟨?_, hrest⟩
  rw [← hread n, ← hread m]
  exact congrArg _ hnm

end StackCode
