import StackCode.OrderedMap.Basic

/-!
Cursors that walk over the entries of a map, by any number of steps and in both directions. A
cursor counts from the first entry; the one past the last entry is the end.
-/
namespace StackCode

structure Cursor where
  position : Int
deriving DecidableEq

namespace Cursor

instance : Ord Cursor := ⟨fun a b => compare a.position b.position⟩

def start : Cursor := ⟨0⟩

def move (c : Cursor) (steps : Int) : Cursor := ⟨c.position + steps⟩

def stepsFrom (c other : Cursor) : Int := c.position - other.position

@[simp] theorem stepsFrom_move (c : Cursor) (steps : Int) :
    (c.move steps).stepsFrom c = steps := by
  change c.position + steps - c.position = steps
  omega

end Cursor

namespace OrderedMap

variable {threshold : UInt32} {K V Q : Type} [HashKey K] [HashKey Q] [Equivalent Q K]
variable (m : OrderedMap threshold K V)

def endCursor : Cursor := ⟨m.size⟩

def bucketUnder? (c : Cursor) : Option (Bucket K V) :=
  if c.position < 0 then none else m.list.buckets[c.position.toNat]?

def find (q : Q) : Checked Cursor := do
  match ← m.indexOf? q with
  | none => return m.endCursor
  | some i => return Cursor.start.move i

def reversed : List (K × V) := m.entries.reverse

end OrderedMap

end StackCode
