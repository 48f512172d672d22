import StackCode.Key.Basic
import StackCode.Layout

/-!
Entries in insertion order, searched one after the other. Each bucket keeps the hash of its key,
and a search compares hashes before keys. Nothing here looks for duplicates: of several equal
keys, the first is the one that is found.

The room for buckets doubles when it is used up; removing a bucket keeps it.

Callers count buckets and their positions in 32 bits; here they are natural numbers, which is the
same in lists of fewer than `2 ^ 32` buckets.
-/
namespace StackCode

structure Bucket (K V : Type) where
  hash : HashCode
  key : K
  value : V

namespace Bucket

variable {K V Q : Type} [HashKey K] [HashKey Q] [Equivalent Q K]

def entry (b : Bucket K V) : K × V := (b.key, b.value)

def holds (b : Bucket K V) (q : Hashed Q) : Bool := b.hash == q.hash && equivalent q.key b.key

def hashed (b : Bucket K V) : Checked (Hashed K) := Hashed.trust b.hash b.key

def bytes (K V : Type) [Stored K] [Stored V] : Nat :=
  (Layout.record [.word32, Stored.layout K, Stored.layout V]).bytes

end Bucket

/-- The buckets, and the number of buckets that there is room for. -/
structure BucketList (K V : Type) where
  buckets : Array (Bucket K V) := #[]
  allocated : Nat := 0

namespace BucketList

variable {K V Q : Type} [HashKey K] [HashKey Q] [Equivalent Q K] (l : BucketList K V)

def size : Nat := l.buckets.size

def isEmpty : Bool := l.buckets.isEmpty

def capacity : UInt32 := .ofNat l.allocated

def extraMemory [Stored K] [Stored V] : Nat := l.allocated * Bucket.bytes K V

def entries : List (K × V) := l.buckets.toList.map Bucket.entry

def keys : List K := l.buckets.toList.map Bucket.key

def values : List V := l.buckets.toList.map Bucket.value

def hashes : List HashCode := l.buckets.toList.map Bucket.hash

def reserve (additional : UInt32) : BucketList K V :=
  { l with allocated := max l.allocated (l.size + additional.toNat) }

def withCapacity (count : UInt32) : BucketList K V := reserve {} count

def roomForOneMore : Nat :=
  if l.size < l.allocated then l.allocated else max 1 (2 * l.allocated)

def push (key : Hashed K) (value : V) : BucketList K V :=
  { buckets := l.buckets.push ⟨key.hash, key.key, value⟩, allocated := l.roomForOneMore }

/-- The first position whose bucket has the query's hash and a key that it matches. -/
def indexOf? (q : Hashed Q) : Option Nat := l.buckets.findIdx? (·.holds q)

def getFull? (q : Hashed Q) : Option (Nat × K × V) := do
  let i ← l.indexOf? q
  return (i, (← l.buckets[i]?).entry)

def getIndex? (i : Nat) : Option (K × V) := l.buckets[i]?.map Bucket.entry

def entryAt (i : Nat) : Except OutOfRange (K × V) :=
  match l.getIndex? i with
  | some entry => .ok entry
  | none => .error .position

def bucketAt (i : Nat) : Checked (Bucket K V) :=
  match l.buckets[i]? with
  | some b => .ok b
  | none => .error .positionOutOfRange

def getUnchecked (i : Nat) : Checked (Hashed K × V) := do
  let b ← l.bucketAt i
  return (← b.hashed, b.value)

def setValue (i : Nat) (value : V) : BucketList K V :=
  { l with buckets := l.buckets.modify i ({ · with value }) }

def mapValues (f : V → V) : BucketList K V :=
  { l with buckets := l.buckets.map fun b => { b with value := f b.value } }

def removeAt (i : Nat) : Checked ((Hashed K × V) × BucketList K V) := do
  let b ← l.bucketAt i
  let rest := { l with buckets := l.buckets.eraseIdxIfInBounds i }
  return ((← b.hashed, b.value), rest)

def removeEntry (q : Hashed Q) : Checked (Option (K × V) × BucketList K V) :=
  match l.indexOf? q with
  | none => .ok (none, l)
  | some i => do
    let ((key, value), rest) ← l.removeAt i
    return (some (key.key, value), rest)

def pop : Checked (Option (Hashed K × V) × BucketList K V) :=
  match l.buckets.back? with
  | none => .ok (none, l)
  | some b => do return (some (← b.hashed, b.value), { l with buckets := l.buckets.pop })

def clear : BucketList K V := { l with buckets := #[] }

end BucketList

end StackCode
