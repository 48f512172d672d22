/-!
Hashes of 32 bits. A full hash is folded to its two halves' exclusive or; for choosing a slot
the bits are spread again by a multiplication with the golden ratio of 64 bits.
-/
namespace StackCode

structure HashCode where
  value : UInt32 := 0
deriving DecidableEq

namespace HashCode

instance : Inhabited HashCode := ⟨{}⟩

instance : Ord HashCode := ⟨fun a b => compare a.value b.value⟩

def fold (full : UInt64) : HashCode := ⟨(full >>> 32).toUInt32 ^^^ full.toUInt32⟩

def promote (h : HashCode) : UInt64 := h.value.toUInt64 * 0x9E3779B97F4A7C15

end HashCode

end StackCode
