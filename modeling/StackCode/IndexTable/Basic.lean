import StackCode.Fault
import StackCode.HashCode

/-!
A hash index over a sequence of entries: open addressing with linear probing, at most seven
eighths full. A slot holds the hash of an entry and its position plus one; a zero marks an
empty slot. Entries are only ever added with `insert` or placed anew with `rebuild`.

Every probe is counted: one that leaves the slots, or that does not end within as many steps
as there are slots, is the fault `endlessProbe`.
-/
namespace StackCode

structure Slot where
  hash : HashCode := {}
  tag : UInt32 := 0
deriving DecidableEq

namespace Slot

def empty : Slot := {}

def entry (hash : HashCode) (position : UInt32) : Slot := ⟨hash, position + 1⟩

def isEmpty (s : Slot) : Bool := s.tag == 0

def position (s : Slot) : UInt32 := s.tag - 1

@[simp] theorem isEmpty_empty : Slot.empty.isEmpty = true := rfl

@[simp] theorem hash_entry (hash : HashCode) (position : UInt32) :
    (entry hash position).hash = hash := rfl

@[simp] theorem position_entry (hash : HashCode) (position : UInt32) :
    (entry hash position).position = position := by
  simp [entry, Slot.position]

end Slot

/-- The slots, the number of entries, and the most slots this sequence of slots has had. -/
structure IndexTable where
  slots : Array Slot := #[]
  size : UInt32 := 0
  allocated : Nat := 0
deriving DecidableEq

namespace IndexTable

def minCapacity : UInt32 := 16

def powerAbove (n : Nat) : Nat := if n ≤ 1 then 1 else 1 <<< ((n - 1).log2 + 1)

/-- Slots for `count` entries: the least power of two above eight sevenths of them, in 32 bits
and never fewer than sixteen. -/
def capacityFor (count : UInt32) : UInt32 :=
  max minCapacity (UInt32.ofNat (powerAbove (count.toNat * 8 / 7 + 1)))

def capacity (t : IndexTable) : UInt32 := UInt32.ofNat t.slots.size

def slotBytes : Nat := 8

def extraMemory (t : IndexTable) : Nat := t.allocated * slotBytes

def home (slots : Array Slot) (hash : HashCode) : Nat :=
  hash.promote.toNat >>> (64 - slots.size.log2)

theorem home_lt {slots : Array Slot} (h : 0 < slots.size) (hash : HashCode) :
    home slots hash < slots.size := by
  have hp : hash.promote.toNat < 2 ^ 64 := hash.promote.toNat_lt
  have hl : 2 ^ slots.size.log2 ≤ slots.size := Nat.log2_self_le (by omega)
  refine Nat.lt_of_lt_of_le ?_ hl
  rw [home, Nat.shiftRight_eq_div_pow, Nat.div_lt_iff_lt_mul (Nat.two_pow_pos _), ← Nat.pow_add]
  exact Nat.lt_of_lt_of_le hp (Nat.pow_le_pow_right (by decide) (by omega))

def next (slots : Array Slot) (pos : Nat) : Nat := (pos + 1) % slots.size

theorem next_lt {slots : Array Slot} (h : 0 < slots.size) (pos : Nat) :
    next slots pos < slots.size :=
  Nat.mod_lt _ h

def slotAt (slots : Array Slot) (pos : Nat) : Checked Slot :=
  match slots[pos]? with
  | some s => .ok s
  | none => .error .endlessProbe

def reset (t : IndexTable) (count : UInt32) : IndexTable :=
  let capacity := (capacityFor count).toNat
  { slots := .replicate capacity .empty, size := 0, allocated := max t.allocated capacity }

def withCapacity (count : UInt32) : IndexTable := reset {} count

def clear (t : IndexTable) : IndexTable :=
  { t with slots := .replicate t.slots.size .empty, size := 0 }

def vacantFrom (slots : Array Slot) : (fuel pos : Nat) → Checked Nat
  | 0, _ => .error .endlessProbe
  | fuel + 1, pos => do
    let s ← slotAt slots pos
    if s.isEmpty then return pos
    vacantFrom slots fuel (next slots pos)

def place (t : IndexTable) (hash : HashCode) (position : UInt32) : Checked IndexTable := do
  .require .tableFull (t.size.toNat < t.slots.size)
  let pos ← vacantFrom t.slots t.slots.size (home t.slots hash)
  return { t with slots := t.slots.setIfInBounds pos (.entry hash position), size := t.size + 1 }

/-- Places each occupied slot anew in a table made for as many entries as there were slots. -/
def grow (t : IndexTable) : Checked IndexTable :=
  t.slots.foldlM (fun larger s =>
    if s.isEmpty then .ok larger else larger.place s.hash s.position)
    (withCapacity t.capacity)

def needsGrowth (t : IndexTable) : Bool :=
  t.slots.isEmpty || t.slots.size < (capacityFor (t.size + 1)).toNat

def insert (t : IndexTable) (hash : HashCode) (position : UInt32) : Checked IndexTable := do
  let t ← if t.needsGrowth then t.grow else .ok t
  t.place hash position

def placeFrom (t : IndexTable) (position : UInt32) : List HashCode → Checked IndexTable
  | [] => .ok t
  | hash :: rest => do (← t.place hash position).placeFrom (position + 1) rest

def rebuild (t : IndexTable) (hashes : List HashCode) (count : UInt32) : Checked IndexTable := do
  let filled ← (t.reset count).placeFrom 0 hashes
  .require .countMismatch (UInt32.ofNat hashes.length == count)
  return filled

end IndexTable

end StackCode
