import StackCode.IndexTable.Basic

/-!
Search in a hash index. The positions whose stored hash agrees are put to the caller one by
one, in probing order, until one is accepted; the answer records them all.
-/
namespace StackCode

/-- The position accepted, if any, and every position asked about. -/
structure Search where
  found : Option UInt32 := none
  asked : List UInt32 := []
deriving DecidableEq

def Search.after (position : UInt32) (rest : Search) : Search :=
  { rest with asked := position :: rest.asked }

namespace IndexTable

variable (slots : Array Slot) (hash : HashCode) (accepts : UInt32 → Checked Bool)

def searchFrom : (fuel pos : Nat) → Checked Search
  | 0, _ => .error .endlessProbe
  | fuel + 1, pos => do
    let s ← slotAt slots pos
    if s.isEmpty then return {}
    if s.hash ≠ hash then return ← searchFrom fuel (next slots pos)
    if ← accepts s.position then return { found := some s.position, asked := [s.position] }
    return (← searchFrom fuel (next slots pos)).after s.position

def search (t : IndexTable) (hash : HashCode) (accepts : UInt32 → Checked Bool) :
    Checked Search :=
  if t.slots.isEmpty then .ok {}
  else searchFrom t.slots hash accepts t.slots.size (home t.slots hash)

def find (t : IndexTable) (hash : HashCode) (accepts : UInt32 → Checked Bool) :
    Checked (Option UInt32) :=
  Search.found <$> t.search hash accepts

end IndexTable

end StackCode
