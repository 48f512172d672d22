/-!
How many bytes a record of several fields takes. Each field starts at a multiple of its
alignment, and the record's size is a multiple of the largest alignment.
-/
namespace StackCode

structure Layout where
  bytes : Nat
  align : Nat

namespace Layout

/-- The least multiple of `unit` that is at least `n`. -/
def roundUp (unit n : Nat) : Nat := (n + unit - 1) / unit * unit

def empty : Layout := ⟨0, 1⟩

def place (fields field : Layout) : Layout :=
  ⟨roundUp field.align fields.bytes + field.bytes, max fields.align field.align⟩

def record (fields : List Layout) : Layout :=
  let placed := fields.foldl place empty
  ⟨roundUp placed.align placed.bytes, placed.align⟩

def word32 : Layout := ⟨4, 4⟩

def word64 : Layout := ⟨8, 8⟩

end Layout

/-- Types whose values have a place in a record. -/
class Stored (α : Type) where
  layout : Layout

instance : Stored Unit := ⟨.empty⟩

instance : Stored Int32 := ⟨.word32⟩

end StackCode
