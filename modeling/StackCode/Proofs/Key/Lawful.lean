import Mathlib
import StackCode.BucketList.Basic
import StackCode.Key.Number

/-! What the containers ask of keys and queries. Two keys are the same when they have one hash and
are equal; this has to be an equivalence, and all the keys that one query matches have to be the
same. -/
namespace StackCode

variable {Q K : Type} [HashKey Q] [HashKey K]

def Matches [Equivalent Q K] (q : Q) (k : K) : Prop := hashOf q = hashOf k ∧ equivalent q k = true

instance [Equivalent Q K] (q : Q) (k : K) : Decidable (Matches q k) :=
  inferInstanceAs (Decidable (_ ∧ _))

class LawfulKey (K : Type) [HashKey K] [BEq K] : Prop where
  equivalence : Equivalence (Matches : K → K → Prop)

class LawfulQuery (Q K : Type) [HashKey Q] [HashKey K] [BEq K] [Equivalent Q K] : Prop where
  same {q : Q} {k k' : K} : Matches q k → Matches q k' → Matches k k'

section Keys

variable [BEq K]

theorem Matches.symm [LawfulKey K] {k k' : K} (h : Matches k k') : Matches k' k :=
  LawfulKey.equivalence.symm h

instance [LawfulKey K] : LawfulQuery K K where
  same h h' := LawfulKey.equivalence.trans h.symm h'

instance [EquivBEq K] : LawfulKey K where
  equivalence := by
    constructor
    · exact fun k => ⟨rfl, BEq.rfl⟩
    · exact fun h => ⟨h.1.symm, BEq.symm h.2⟩
    · exact fun h h' => ⟨h.1.trans h'.1, BEq.trans h.2 h'.2⟩

end Keys

instance : EquivBEq TaggedKey where
  rfl {k} := beq_self_eq_true k.number
  symm {k k'} h := show (k'.number == k.number) = true from BEq.symm h
  trans {k k' k''} h h' :=
    have hsame : (k.number == k'.number) = true := h
    show (k.number == k''.number) = true from BEq.trans hsame h'

/-- Of two keys that are not equal, one comes before the other. -/
class OrderedKey (K : Type) [BEq K] [LT K] : Prop extends EquivBEq K where
  trans_lt {k k' k'' : K} : k < k' → k' < k'' → k < k''
  beq_eq_false_of_lt {k k' : K} : k < k' → (k == k') = false
  trichotomy (k k' : K) : k < k' ∨ (k == k') = true ∨ k' < k

class LawfulHash (K : Type) [HashKey K] [BEq K] : Prop where
  hashOf_eq {k k' : K} : (k == k') = true → hashOf k = hashOf k'

instance [BEq K] [LawfulBEq K] : LawfulHash K where
  hashOf_eq h := congrArg hashOf (beq_iff_eq.1 h)

namespace OrderedKey

variable {K : Type} [BEq K] [LT K] [OrderedKey K] {k k' k'' : K}

theorem not_lt_of_beq (heq : (k == k') = true) : ¬k < k' := by
  intro h
  rw [beq_eq_false_of_lt h] at heq
  cases heq

theorem lt_asymm (h : k < k') : ¬k' < k :=
  fun h' => not_lt_of_beq BEq.rfl (trans_lt h h')

theorem lt_of_not_lt (hne : (k == k') = false) (h : ¬k' < k) : k < k' := by
  rcases trichotomy k k' with hlt | heq | hlt
  · exact hlt
  · rw [hne] at heq
    cases heq
  · exact absurd hlt h

theorem lt_of_lt_of_beq (h : k < k') (heq : (k' == k'') = true) : k < k'' := by
  rcases trichotomy k k'' with hlt | heq' | hlt
  · exact hlt
  · exact absurd h (not_lt_of_beq (BEq.trans heq' (BEq.symm heq)))
  · exact absurd (trans_lt hlt h) (not_lt_of_beq (BEq.symm heq))

theorem not_lt_trans (h : ¬k' < k) (h' : ¬k'' < k') : ¬k'' < k := by
  intro hlt
  rcases trichotomy k k' with hkk' | heq | hkk'
  · exact h' (trans_lt hlt hkk')
  · exact h' (lt_of_lt_of_beq hlt heq)
  · exact h hkk'

end OrderedKey

instance : OrderedKey Int32 where
  trans_lt := Int32.lt_trans
  beq_eq_false_of_lt h := beq_eq_false_iff_ne.2 (Int32.ne_of_lt h)
  trichotomy k k' := by
    rw [Int32.lt_iff_toInt_lt, Int32.lt_iff_toInt_lt, beq_iff_eq, ← Int32.toInt_inj]
    exact lt_trichotomy k.toInt k'.toInt

instance : OrderedKey TaggedKey where
  trans_lt := Int32.lt_trans
  beq_eq_false_of_lt {k k'} h :=
    show (k.number == k'.number) = false from OrderedKey.beq_eq_false_of_lt h
  trichotomy k k' := OrderedKey.trichotomy k.number k'.number

theorem Bucket.holds_iff {V : Type} [Equivalent Q K] {b : Bucket K V} (hb : b.hash = hashOf b.key)
    (q : Hashed Q) : b.holds q = true ↔ Matches q.key b.key := by
  rw [Bucket.holds, Bool.and_eq_true, beq_iff_eq, hb, q.hash_eq, Matches, eq_comm]

end StackCode
