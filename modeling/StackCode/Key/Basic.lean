import StackCode.Fault
import StackCode.HashCode

/-!
Keys of the hashed containers. A key type has one hash function; a query type has one too, and
a relation that says which keys a query matches. `Hashed` pairs a key with its own hash, so
that it is computed once for several lookups.
-/
namespace StackCode

class HashKey (K : Type) where
  hashOf : K → HashCode

export HashKey (hashOf)

class Equivalent (Q K : Type) where
  equivalent : Q → K → Bool

export Equivalent (equivalent)

/-- Within one type, a query matches the keys equal to it. -/
instance {K : Type} [BEq K] : Equivalent K K := ⟨fun q k => q == k⟩

theorem equivalent_self {K : Type} [BEq K] (q k : K) : equivalent q k = (q == k) := rfl

structure Hashed (K : Type) [HashKey K] where
  key : K
  hash : HashCode := hashOf key
  hash_eq : hash = hashOf key := by rfl

namespace Hashed

variable {K Q : Type} [HashKey K] [HashKey Q]

def of (key : K) : Hashed K := { key }

@[simp] theorem key_of (key : K) : (of key).key = key := rfl

@[simp] theorem hash_of (key : K) : (of key).hash = hashOf key := rfl

/-- Pairs a key with a hash that was stored beside it. -/
def trust (hash : HashCode) (key : K) : Checked (Hashed K) :=
  if h : hash = hashOf key then .ok { key, hash, hash_eq := h } else .error .hashMismatch

theorem trust_hashOf (key : K) : trust (hashOf key) key = .ok (of key) := by
  simp [trust, of]

theorem trust_eq_error_iff {hash : HashCode} {key : K} :
    trust hash key = .error .hashMismatch ↔ hash ≠ hashOf key := by
  unfold trust
  split <;> simp_all

def agrees [Equivalent Q K] (key : Hashed K) (query : Hashed Q) : Bool :=
  key.hash == query.hash && equivalent query.key key.key

end Hashed

end StackCode
