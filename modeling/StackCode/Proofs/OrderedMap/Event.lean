import StackCode.OrderedMap.Cursor

/-! What can happen to a map: every operation with its arguments, its answer, and the map after it.
A plain map is the list of buckets alone, searched from the front; `Event.plain` says what each
operation means there. -/
namespace StackCode

variable {threshold : UInt32} {Q K V : Type} [HashKey Q] [HashKey K]

inductive Answer (K V : Type)
  | done
  | value (found : Option V)
  | entry (found : Option (K × V))
  | full (found : Option (Nat × K × V))
  | position (found : Option Nat)
  | present (found : Bool)
  | cursor (c : Cursor)
  | located (value : Except OutOfRange V)
  | offered (position : Nat) (value : V) (inserted : Bool)
  | removed (hash : HashCode) (key : K) (value : V)

abbrev PlainMap (K V : Type) := List (Bucket K V)

abbrev OrderedMap.buckets (m : OrderedMap threshold K V) : PlainMap K V := m.list.buckets.toList

namespace PlainMap

variable [Equivalent Q K] (l : PlainMap K V)

def find (q : Hashed Q) : Option Nat := l.findIdx? (·.holds q)

def append (key : Hashed K) (value : V) : PlainMap K V := l ++ [⟨key.hash, key.key, value⟩]

def put [BEq K] (key : Hashed K) (value : V) : Option V × PlainMap K V :=
  match l.find key with
  | some i => (l[i]?.map (·.value), l.modify i ({ · with value }))
  | none => (none, l.append key value)

def offer [BEq K] (key : Hashed K) (value : V) : Answer K V × PlainMap K V :=
  match l.find key with
  | some i => (.offered i ((l[i]?.map (·.value)).getD value) false, l)
  | none => (.offered l.length value true, l.append key value)

def take (q : Hashed Q) : Option (K × V) × PlainMap K V :=
  match l.find q with
  | some i => (l[i]?.map Bucket.entry, l.eraseIdx i)
  | none => (none, l)

def get (q : Hashed Q) : Option V := do
  let i ← l.find q
  return (← l[i]?).value

def getFull (q : Hashed Q) : Option (Nat × K × V) := do
  let i ← l.find q
  return (i, (← l[i]?).entry)

end PlainMap

inductive Event (Q K V : Type) [HashKey Q] [HashKey K]
  | insert (key : K) (value : V)
  | insertHashed (key : Hashed K) (value : V)
  | tryInsert (key : K) (value : V)
  | insertUnchecked (key : Hashed K) (value : V)
  | remove (q : Q)
  | removeEntry (q : Q)
  | removeHashed (q : Hashed Q)
  | removeAt (i : Nat)
  | pop
  | clear
  | reserve (additional : UInt32)
  | sortKeys (s : BucketList.Arrangement K V)
  | get (q : Q)
  | getHashed (q : Hashed Q)
  | getFull (q : Q)
  | indexOf (q : Q)
  | indexOfHashed (q : Hashed Q)
  | contains (q : Q)
  | containsHashed (q : Hashed Q)
  | find (q : Q)
  | valueAt (q : Q)
  | getIndex (i : Nat)
  | first
  | last

namespace Event

/-- The number of further entries that an event asks room for. -/
def room? : Event Q K V → Option UInt32
  | reserve additional => some additional
  | _ => none

variable [BEq K] [Equivalent Q K]

def apply (m : OrderedMap threshold K V) :
    Event Q K V → Checked (Answer K V × OrderedMap threshold K V)
  | insert key value => do
    let (old, m) ← m.insert key value
    return (.value old, m)
  | insertHashed key value => do
    let (old, m) ← m.insertHashed key value
    return (.value old, m)
  | tryInsert key value => do
    let ((i, value, inserted), m) ← m.tryInsert key value
    return (.offered i value inserted, m)
  | insertUnchecked key value => do return (.done, ← m.insertUnchecked key value)
  | remove q => do
    let (value, m) ← m.remove q
    return (.value value, m)
  | removeEntry q => do
    let (entry, m) ← m.removeEntry q
    return (.entry entry, m)
  | removeHashed q => do
    let (entry, m) ← m.removeHashed q
    return (.entry entry, m)
  | removeAt i => do
    let ((key, value), m) ← m.removeAt i
    return (.removed key.hash key.key value, m)
  | pop => do
    let (entry, m) ← m.pop
    return (.entry entry, m)
  | clear => .ok (.done, m.clear)
  | reserve additional => do return (.done, ← m.reserve additional)
  | sortKeys s => do return (.done, ← m.arranged s)
  | get q => do return (.value (← m.get? q), m)
  | getHashed q => do return (.value (← m.getHashed? q), m)
  | getFull q => do return (.full (← m.getFull? q), m)
  | indexOf q => do return (.position (← m.indexOf? q), m)
  | indexOfHashed q => do return (.position (← m.indexOfHashed? q), m)
  | contains q => do return (.present (← m.contains q), m)
  | containsHashed q => do return (.present (← m.containsHashed q), m)
  | find q => do return (.cursor (← m.find q), m)
  | valueAt q => do return (.located (← m.valueAt q), m)
  | getIndex i => .ok (.entry (m.getIndex? i), m)
  | first => .ok (.entry m.first?, m)
  | last => .ok (.entry m.last?, m)

def plain (l : PlainMap K V) : Event Q K V → Answer K V × PlainMap K V
  | insert key value =>
    let (old, l) := l.put (.of key) value
    (.value old, l)
  | insertHashed key value =>
    let (old, l) := l.put key value
    (.value old, l)
  | tryInsert key value => l.offer (.of key) value
  | insertUnchecked key value => (.done, l.append key value)
  | remove q =>
    let (entry, l) := l.take (.of q)
    (.value (entry.map Prod.snd), l)
  | removeEntry q =>
    let (entry, l) := l.take (.of q)
    (.entry entry, l)
  | removeHashed q =>
    let (entry, l) := l.take q
    (.entry entry, l)
  | removeAt i =>
    (match l[i]? with
      | some b => .removed b.hash b.key b.value
      | none => .done, l.eraseIdx i)
  | pop => (.entry (l.getLast?.map Bucket.entry), l.dropLast)
  | clear => (.done, [])
  | reserve _ => (.done, l)
  | sortKeys s => (.done, s.arrange l)
  | get q => (.value (l.get (.of q)), l)
  | getHashed q => (.value (l.get q), l)
  | getFull q => (.full (l.getFull (.of q)), l)
  | indexOf q => (.position (l.find (.of q)), l)
  | indexOfHashed q => (.position (l.find q), l)
  | contains q => (.present (l.find (.of q)).isSome, l)
  | containsHashed q => (.present (l.find q).isSome, l)
  | find q => (.cursor ⟨((l.find (.of q)).getD l.length : Nat)⟩, l)
  | valueAt q => (.located ((l.get (.of q)).elim (.error .key) .ok), l)
  | getIndex i => (.entry (l[i]?.map Bucket.entry), l)
  | first => (.entry (l.head?.map Bucket.entry), l)
  | last => (.entry (l.getLast?.map Bucket.entry), l)

end Event

end StackCode
