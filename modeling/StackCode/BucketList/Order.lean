import StackCode.Bytes
import StackCode.BucketList.Basic

/-!
Order and comparison of buckets, one with another and in sequence. A bucket's hash sums up its key:
it takes no part in equality or order, and it is what is hashed in the key's place. A sort brings
the buckets into the order of their keys; where two of them are not in order it is open which comes
first, so that all that is known of any sort is that no bucket gets lost and none is made up.
-/
namespace StackCode

class PartialCompare (α : Type) where
  compare? : α → α → Option Ordering

export PartialCompare (compare?)

instance : PartialCompare ByteString := ⟨fun a b => some (compare a b)⟩

instance : PartialCompare Int32 := ⟨fun a b => some (compare a b)⟩

instance : PartialCompare Float where
  compare? a b :=
    if a < b then some .lt else if b < a then some .gt else if a == b then some .eq else none

namespace Bucket

variable {K V : Type}

instance [BEq K] [BEq V] : BEq (Bucket K V) :=
  ⟨fun a b => a.key == b.key && a.value == b.value⟩

/-- The values decide between equal keys only. -/
instance [PartialCompare K] [PartialCompare V] : PartialCompare (Bucket K V) where
  compare? a b :=
    match compare? a.key b.key with
    | some .eq => compare? a.value b.value
    | decided => decided

def digest (b : Bucket K V) : HashCode × V := (b.hash, b.value)

def hashWith (mix : UInt64 → UInt64 → UInt64) (hashValue : V → UInt64) (b : Bucket K V) :
    UInt64 :=
  mix (mix 0 b.hash.value.toUInt64) (hashValue b.value)

end Bucket

namespace BucketList

variable {K V : Type}

structure Arrangement (K V : Type) where
  arrange : List (Bucket K V) → List (Bucket K V)
  perm : ∀ bs, (arrange bs).Perm bs

def Arrangement.byKeys [LT K] [DecidableLT K] : Arrangement K V where
  arrange bs := bs.mergeSort fun a b => !decide (b.key < a.key)
  perm bs := List.mergeSort_perm bs _

def arranged (l : BucketList K V) (s : Arrangement K V) : BucketList K V :=
  { l with buckets := (s.arrange l.buckets.toList).toArray }

def sortKeys [LT K] [DecidableLT K] (l : BucketList K V) : BucketList K V := l.arranged .byKeys

def equalInOrder [BEq K] [BEq V] (l other : BucketList K V) : Bool := l.buckets == other.buckets

def digest (l : BucketList K V) : List (HashCode × V) := l.buckets.toList.map Bucket.digest

def hashInOrder (mix : UInt64 → UInt64 → UInt64) (hashValue : V → UInt64)
    (l : BucketList K V) : UInt64 :=
  l.buckets.toList.foldl (fun seed b => mix seed (b.hashWith mix hashValue)) 0

/-- Do both lists hash alike in order, whatever the mixing function? -/
def sameDigest [BEq V] (l other : BucketList K V) : Bool := l.digest == other.digest

end BucketList

end StackCode
