import StackCode.Fault

/-!
Addresses of instructions, counted in bytes from the start of the code; forward distances
between them; the slots that instructions name; spans of the source text.
-/
namespace StackCode

structure Offset where
  value : UInt32 := 0
deriving DecidableEq

structure Addr where
  value : UInt32 := 0
deriving DecidableEq

namespace Addr

instance : Ord Addr := ⟨fun a b => compare a.value b.value⟩

instance : LT Addr := ⟨fun a b => a.value < b.value⟩

instance : DecidableLT Addr := fun a b => inferInstanceAs (Decidable (a.value < b.value))

/-- The sum is taken in 32 bits. -/
instance : HAdd Addr Offset Addr := ⟨fun a o => ⟨a.value + o.value⟩⟩

def offsetFrom (a base : Addr) : Checked Offset :=
  if base.value ≤ a.value then .ok ⟨a.value - base.value⟩ else .error .backwardBranch

theorem add_offsetFrom {a base : Addr} {o : Offset} (h : a.offsetFrom base = .ok o) :
    base + o = a := by
  unfold offsetFrom at h
  split at h
  · cases h
    change Addr.mk (base.value + (a.value - base.value)) = a
    rw [UInt32.add_comm, UInt32.sub_add_cancel]
  · cases h

end Addr

structure LocalSlot where
  value : UInt32
deriving DecidableEq

structure ModuleSlot where
  value : UInt32
deriving DecidableEq

structure CodeSpan where
  start : UInt32 := 0
  stop : UInt32 := 0
  start_le_stop : start ≤ stop := by decide
deriving DecidableEq

def CodeSpan.of (start stop : UInt32) : Checked CodeSpan :=
  if h : start ≤ stop then .ok ⟨start, stop, h⟩ else .error .reversedSpan

end StackCode
