import Mathlib
import StackCode.Key.Symbol
import StackCode.Proofs.Key.Lawful

/-! Byte strings, symbols, and the forms in which they are kept and asked for: all of them are
spelled by bytes. Each has a hash and a comparison of its own, but both come down to the spelling.
So no query matches a key with another hash, and a query does for any other that is spelled as it
is. -/
namespace StackCode

class Spelled (α : Type) where
  spelling : α → ByteString

export Spelled (spelling)

instance : Spelled ByteString := ⟨id⟩

instance : Spelled TextQuery := ⟨TextQuery.bytes⟩

instance : Spelled Symbol := ⟨Symbol.name⟩

instance : Spelled SymbolQuery where
  spelling
    | .name text => text
    | .symbol s => s.name

theorem Symbol.name_inj {s s' : Symbol} : s.name = s'.name ↔ s = s' := by
  cases s
  cases s'
  rw [Symbol.mk.injEq]

section HashedSymbol

variable [ByteHash]

instance : Spelled HashedSymbol := ⟨Hashed.key⟩

theorem HashedSymbol.beq_iff {s s' : HashedSymbol} : (s == s') = true ↔ s.key = s'.key := by
  have hbeq : (s == s') = (s.hash == s'.hash && s.key == s'.key) := rfl
  rw [hbeq, Bool.and_eq_true, beq_iff_eq, beq_iff_eq, s.hash_eq, s'.hash_eq]
  exact and_iff_right_of_imp (congrArg hashOf)

theorem Symbol.beq_hashed (s s' : Symbol) :
    ((.of s.name : HashedSymbol) == .of s'.name) = (s == s') := by
  rw [Bool.eq_iff_iff, HashedSymbol.beq_iff, beq_iff_eq, Hashed.key_of, Hashed.key_of, name_inj]

end HashedSymbol

/-- Queries and keys hash as they are spelled, and a query matches the keys spelled as it is. -/
class SpelledQuery (Q K : Type) [ByteHash] [HashKey Q] [HashKey K] [Equivalent Q K] [Spelled Q]
    [Spelled K] : Prop where
  hashOf_query (q : Q) : hashOf q = hashBytes (spelling q)
  hashOf_key (k : K) : hashOf k = hashBytes (spelling k)
  equivalent_iff (q : Q) (k : K) : equivalent q k = true ↔ spelling q = spelling k

namespace SpelledQuery

variable [ByteHash]

instance : SpelledQuery ByteString ByteString where
  hashOf_query _ := rfl
  hashOf_key _ := rfl
  equivalent_iff _ _ := beq_iff_eq

instance : SpelledQuery TextQuery ByteString where
  hashOf_query _ := rfl
  hashOf_key _ := rfl
  equivalent_iff _ _ := TextQuery.equivalent_iff

instance : SpelledQuery ByteString Symbol where
  hashOf_query _ := rfl
  hashOf_key _ := rfl
  equivalent_iff _ _ := Symbol.equivalent_name_iff

instance : SpelledQuery Symbol Symbol where
  hashOf_query _ := rfl
  hashOf_key _ := rfl
  equivalent_iff _ _ := beq_iff_eq.trans Symbol.name_inj.symm

instance : SpelledQuery ByteString HashedSymbol where
  hashOf_query _ := rfl
  hashOf_key := Hashed.hash_eq
  equivalent_iff _ _ := beq_iff_eq

instance : SpelledQuery HashedSymbol HashedSymbol where
  hashOf_query := Hashed.hash_eq
  hashOf_key := Hashed.hash_eq
  equivalent_iff _ _ := HashedSymbol.beq_iff

instance : SpelledQuery SymbolQuery Symbol where
  hashOf_query q := by cases q <;> rfl
  hashOf_key _ := rfl
  equivalent_iff q k := by
    cases q with
    | name text => exact equivalent_iff text k
    | symbol s => exact equivalent_iff s k

variable {Q Q' K : Type} [HashKey Q] [HashKey Q'] [HashKey K] [Equivalent Q K] [Equivalent Q' K]
variable [Spelled Q] [Spelled Q'] [Spelled K] [SpelledQuery Q K]

theorem matches_iff {q : Q} {k : K} : Matches q k ↔ spelling q = spelling k := by
  rw [Matches, equivalent_iff, hashOf_query K, hashOf_key Q]
  exact and_iff_right_of_imp (congrArg hashBytes)

theorem hashOf_eq_of_equivalent {q : Q} {k : K} (h : equivalent q k = true) :
    hashOf q = hashOf k :=
  (matches_iff.2 ((equivalent_iff q k).1 h)).1

theorem lawful [BEq K] [SpelledQuery K K] : LawfulQuery Q K where
  same h h' := matches_iff.2 ((matches_iff.1 h).symm.trans (matches_iff.1 h'))

theorem lawfulKey [BEq K] [SpelledQuery K K] : LawfulKey K where
  equivalence := by
    constructor
    · exact fun k => matches_iff.2 rfl
    · exact fun h => matches_iff.2 (matches_iff.1 h).symm
    · exact fun h h' => matches_iff.2 ((matches_iff.1 h).trans (matches_iff.1 h'))

variable [SpelledQuery Q' K]

theorem interchangeable {q : Hashed Q} {q' : Hashed Q'} (h : spelling q.key = spelling q'.key) :
    q.hash = q'.hash ∧ ∀ k : K, equivalent q.key k = equivalent q'.key k := by
  constructor
  · rw [q.hash_eq, q'.hash_eq, hashOf_query K, hashOf_query K, h]
  · intro k
    rw [Bool.eq_iff_iff, equivalent_iff, equivalent_iff, h]

end SpelledQuery

end StackCode
