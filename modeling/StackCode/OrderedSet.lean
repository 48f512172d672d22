import StackCode.OrderedMap.Cursor

/-!
Sets in insertion order: the keys of a map whose values say nothing.
-/
namespace StackCode

structure OrderedSet (threshold : UInt32) (K : Type) where
  map : OrderedMap threshold K Unit := {}

namespace OrderedSet

variable {threshold : UInt32} {K Q : Type} [HashKey K] [HashKey Q] [Equivalent Q K]
variable (s : OrderedSet threshold K)

def size : Nat := s.map.size

def isEmpty : Bool := s.map.isEmpty

def isIndexed : Bool := s.map.isIndexed

def capacity : UInt32 := s.map.capacity

def extraMemory [Stored K] : Nat := s.map.extraMemory

def keys : List K := s.map.keys

def reserve (additional : UInt32) : Checked (OrderedSet threshold K) :=
  mk <$> s.map.reserve additional

def withCapacity (count : UInt32) : Checked (OrderedSet threshold K) :=
  mk <$> OrderedMap.withCapacity count

def contains (q : Q) : Checked Bool := s.map.contains q

def containsHashed (q : Hashed Q) : Checked Bool := s.map.containsHashed q

def indexOf? (q : Q) : Checked (Option Nat) := s.map.indexOf? q

def getIndex? (i : Nat) : Option K := (s.map.getIndex? i).map Prod.fst

def keyUnder? (c : Cursor) : Option K := (s.map.bucketUnder? c).map Bucket.key

/-- A present key stays as it is, and the answer is `false`. -/
def insert [BEq K] (key : K) : Checked (Bool × OrderedSet threshold K) := do
  let ((_, _, inserted), map) ← s.map.tryInsert key ()
  return (inserted, ⟨map⟩)

def insertHashed [BEq K] (key : Hashed K) : Checked (Bool × OrderedSet threshold K) := do
  if ← s.map.containsHashed key then return (false, s)
  return (true, ⟨← s.map.insertUnchecked key ()⟩)

def insertUnchecked [BEq K] (key : Hashed K) : Checked (OrderedSet threshold K) :=
  mk <$> s.map.insertUnchecked key ()

def insertAll [BEq K] (s : OrderedSet threshold K) : List K → Checked (OrderedSet threshold K)
  | [] => .ok s
  | key :: rest => do (← s.insert key).2.insertAll rest

def ofSizedList [BEq K] (keys : List K) : Checked (OrderedSet threshold K) := do
  (← withCapacity (.ofNat keys.length)).insertAll keys

def remove (q : Q) : Checked (Bool × OrderedSet threshold K) := do
  let (entry, map) ← s.map.removeEntry q
  return (entry.isSome, ⟨map⟩)

def pop : Checked (Option K × OrderedSet threshold K) := do
  let (entry, map) ← s.map.pop
  return (entry.map Prod.fst, ⟨map⟩)

def clear : OrderedSet threshold K := ⟨s.map.clear⟩

def arranged (order : BucketList.Arrangement K Unit) : Checked (OrderedSet threshold K) :=
  mk <$> s.map.arranged order

def sort [LT K] [DecidableLT K] : Checked (OrderedSet threshold K) := s.arranged .byKeys

def equalInOrder [BEq K] (other : OrderedSet threshold K) : Bool := s.map.equalInOrder other.map

/-- The values take part as zeros. -/
def hashInOrder (mix : UInt64 → UInt64 → UInt64) : UInt64 := s.map.hashInOrder mix fun _ => 0

def sameDigest (other : OrderedSet threshold K) : Bool := s.map.sameDigest other.map

def sameKeys [BEq K] (other : OrderedSet threshold K) : Checked Bool :=
  s.map.sameEntries other.map

end OrderedSet

end StackCode
