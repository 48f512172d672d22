import StackCode.BucketList.Order
import StackCode.IndexTable.Erase
import StackCode.IndexTable.Search

/-!
Maps in insertion order. Entries are kept in a bucket list. While there are few of them, the
list is searched itself; once it holds more than `threshold` entries, or room for more is asked
for, an index from hashes to positions is built and kept from then on, even if entries go.
-/
namespace StackCode

structure OrderedMap (threshold : UInt32) (K V : Type) where
  list : BucketList K V := {}
  index : Option IndexTable := none

namespace OrderedMap

variable {threshold : UInt32} {K V Q : Type} [HashKey K] [HashKey Q] [Equivalent Q K]
variable (m : OrderedMap threshold K V)

def size : Nat := m.list.size

def isEmpty : Bool := m.list.isEmpty

def isIndexed : Bool := m.index.isSome

def capacity : UInt32 := m.list.capacity

def extraMemory [Stored K] [Stored V] : Nat :=
  m.list.extraMemory + (m.index.map (·.extraMemory)).getD 0

def entries : List (K × V) := m.list.entries

def keys : List K := m.list.keys

def values : List V := m.list.values

def reindexed (table : IndexTable) : Checked (OrderedMap threshold K V) := do
  let table ← table.rebuild m.list.hashes (.ofNat m.size)
  return { m with index := some table }

def createIndex : Checked (OrderedMap threshold K V) := m.reindexed {}

/-- The sum of size and demand is taken in 32 bits. -/
def reserve (additional : UInt32) : Checked (OrderedMap threshold K V) :=
  let m := { m with list := m.list.reserve additional }
  if !m.isIndexed && threshold < UInt32.ofNat m.size + additional then m.createIndex else .ok m

def withCapacity (count : UInt32) : Checked (OrderedMap threshold K V) := reserve {} count

def indexOfHashed? (q : Hashed Q) : Checked (Option Nat) :=
  match m.index with
  | none => .ok (m.list.indexOf? q)
  | some table => do
    let found ← table.find q.hash fun i => do
      return equivalent q.key (← m.list.bucketAt i.toNat).key
    return found.map UInt32.toNat

def getHashed? (q : Hashed Q) : Checked (Option V) := do
  match ← m.indexOfHashed? q with
  | none => return none
  | some i => return some (← m.list.bucketAt i).value

def containsHashed (q : Hashed Q) : Checked Bool := Option.isSome <$> m.indexOfHashed? q

def indexOf? (q : Q) : Checked (Option Nat) := m.indexOfHashed? (.of q)

def get? (q : Q) : Checked (Option V) := m.getHashed? (.of q)

def contains (q : Q) : Checked Bool := m.containsHashed (.of q)

def getFull? (q : Q) : Checked (Option (Nat × K × V)) := do
  match ← m.indexOf? q with
  | none => return none
  | some i => return some (i, (← m.list.bucketAt i).entry)

def valueAt (q : Q) : Checked (Except OutOfRange V) := do
  match ← m.get? q with
  | none => return .error .key
  | some value => return .ok value

def getIndex? (i : Nat) : Option (K × V) := m.list.getIndex? i

def first? : Option (K × V) := m.getIndex? 0

def last? : Option (K × V) := if m.isEmpty then none else m.getIndex? (m.size - 1)

def append (key : Hashed K) (value : V) : Checked (OrderedMap threshold K V) :=
  let m := { m with list := m.list.push key value }
  match m.index with
  | some table => do return { m with index := some (← table.insert key.hash (.ofNat (m.size - 1))) }
  | none => if threshold.toNat < m.size then m.createIndex else .ok m

def insertUnchecked [BEq K] (key : Hashed K) (value : V) : Checked (OrderedMap threshold K V) := do
  .require .duplicateKey !(← m.containsHashed key)
  m.append key value

/-- A present key keeps its place and its own form, and its old value is returned. -/
def insertHashed [BEq K] (key : Hashed K) (value : V) :
    Checked (Option V × OrderedMap threshold K V) := do
  match ← m.indexOfHashed? key with
  | some i =>
    let old ← m.list.bucketAt i
    return (some old.value, { m with list := m.list.setValue i value })
  | none => return (none, ← m.insertUnchecked key value)

def insert [BEq K] (key : K) (value : V) : Checked (Option V × OrderedMap threshold K V) :=
  m.insertHashed (.of key) value

/-- Inserts an absent key only. Returned are the position of the key's entry, its value, and
whether it was inserted. -/
def tryInsert [BEq K] (key : K) (value : V) :
    Checked ((Nat × V × Bool) × OrderedMap threshold K V) := do
  match ← m.indexOfHashed? (Hashed.of key) with
  | some i => return ((i, (← m.list.bucketAt i).value, false), m)
  | none =>
    let m ← m.insertUnchecked (.of key) value
    let i := m.size - 1
    return ((i, (← m.list.bucketAt i).value, true), m)

def insertAll [BEq K] (m : OrderedMap threshold K V) :
    List (K × V) → Checked (OrderedMap threshold K V)
  | [] => .ok m
  | (key, value) :: rest => do (← m.insert key value).2.insertAll rest

def ofList [BEq K] (entries : List (K × V)) : Checked (OrderedMap threshold K V) :=
  insertAll {} entries

def ofSizedList [BEq K] (entries : List (K × V)) : Checked (OrderedMap threshold K V) := do
  (← withCapacity (.ofNat entries.length)).insertAll entries

def setValue (i : Nat) (value : V) : OrderedMap threshold K V :=
  { m with list := m.list.setValue i value }

def mapValues (f : V → V) : OrderedMap threshold K V := { m with list := m.list.mapValues f }

def replaceHashed (q : Hashed Q) (value : V) :
    Checked (Option V × OrderedMap threshold K V) := do
  match ← m.indexOfHashed? q with
  | none => return (none, m)
  | some i => return (some (← m.list.bucketAt i).value, m.setValue i value)

def replace (q : Q) (value : V) : Checked (Option V × OrderedMap threshold K V) :=
  m.replaceHashed (.of q) value

def removeAt (i : Nat) : Checked ((Hashed K × V) × OrderedMap threshold K V) := do
  let (removed, list) ← m.list.removeAt i
  let m := { m with list }
  match m.index with
  | none => return (removed, m)
  | some table => return (removed, ← m.reindexed table)

def removeHashed (q : Hashed Q) : Checked (Option (K × V) × OrderedMap threshold K V) := do
  match ← m.indexOfHashed? q with
  | none => return (none, m)
  | some i =>
    let ((key, value), m) ← m.removeAt i
    return (some (key.key, value), m)

def removeEntry (q : Q) : Checked (Option (K × V) × OrderedMap threshold K V) :=
  m.removeHashed (.of q)

def remove (q : Q) : Checked (Option V × OrderedMap threshold K V) := do
  let (entry, m) ← m.removeEntry q
  return (entry.map Prod.snd, m)

def pop : Checked (Option (K × V) × OrderedMap threshold K V) := do
  if m.isEmpty then return (none, m)
  let last := m.size - 1
  let index ← match m.index with
    | none => .ok none
    | some table => some <$> table.eraseLast (← m.list.bucketAt last).hash (.ofNat last)
  let (popped, list) ← m.list.pop
  return (popped.map fun (key, value) => (key.key, value), { list, index })

def clear : OrderedMap threshold K V :=
  { list := m.list.clear, index := m.index.map (·.clear) }

/-- The buckets brought into an order, and the index, if there is one, built anew. -/
def arranged (s : BucketList.Arrangement K V) : Checked (OrderedMap threshold K V) :=
  let m := { m with list := m.list.arranged s }
  match m.index with
  | none => .ok m
  | some table => m.reindexed table

def sortKeys [LT K] [DecidableLT K] : Checked (OrderedMap threshold K V) := m.arranged .byKeys

def equalInOrder [BEq K] [BEq V] (other : OrderedMap threshold K V) : Bool :=
  m.list.equalInOrder other.list

def hashInOrder (mix : UInt64 → UInt64 → UInt64) (hashValue : V → UInt64) : UInt64 :=
  m.list.hashInOrder mix hashValue

def sameDigest [BEq V] (other : OrderedMap threshold K V) : Bool :=
  m.list.sameDigest other.list

def hasEqual [BEq K] [BEq V] (b : Bucket K V) : Checked Bool := do
  return match ← m.getHashed? (← b.hashed) with
    | none => false
    | some value => value == b.value

def sameEntries [BEq K] [BEq V] (other : OrderedMap threshold K V) : Checked Bool :=
  if m.size ≠ other.size then .ok false else m.list.buckets.toList.allM other.hasEqual

end OrderedMap

end StackCode
