import StackCode.IndexTable.Basic

/-!
Erasing the entry of the last position. The slots after the hole move back into it, as far as
their homes allow, so that no mark of the erased entry stays behind.
-/
namespace StackCode.IndexTable

def holderFrom (slots : Array Slot) (tag : UInt32) : (fuel pos : Nat) → Checked Nat
  | 0, _ => .error .endlessProbe
  | fuel + 1, pos => do
    let s ← slotAt slots pos
    if s.tag = tag then return pos
    .require .entryNotIndexed !s.isEmpty
    holderFrom slots tag fuel (next slots pos)

/-- Does `ideal` lie in the circular range after `hole` and up to `pos`? Then an entry at `pos`
with that home may not move into the hole. -/
def stays (hole ideal pos : Nat) : Bool :=
  if hole ≤ pos then hole < ideal && ideal ≤ pos else hole < ideal || ideal ≤ pos

/-- Moves the entries of the run at `pos` back into the hole and empties the last hole left. -/
def closeGap : (fuel : Nat) → (slots : Array Slot) → (hole pos : Nat) → Checked (Array Slot)
  | 0, _, _, _ => .error .endlessProbe
  | fuel + 1, slots, hole, pos => do
    let s ← slotAt slots pos
    if s.isEmpty then return slots.setIfInBounds hole .empty
    if stays hole (home slots s.hash) pos then closeGap fuel slots hole (next slots pos)
    else closeGap fuel (slots.setIfInBounds hole s) pos (next slots pos)

def eraseLast (t : IndexTable) (hash : HashCode) (position : UInt32) : Checked IndexTable := do
  .require .notLastEntry (position + 1 == t.size)
  let hole ← holderFrom t.slots (position + 1) t.slots.size (home t.slots hash)
  let slots ← closeGap t.slots.size t.slots hole (next t.slots hole)
  return { t with slots, size := t.size - 1 }

end StackCode.IndexTable
