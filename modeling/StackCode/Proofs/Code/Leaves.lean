import Mathlib
import StackCode.Code.Instr

/-! The leaves of an argument, from left to right. Whatever the nesting, what an argument pops and
pushes is the sum over its leaves, taken in 32 bits. -/
namespace StackCode

variable {O : Type} [ValueObject O]

theorem toNat_sum (ns : List UInt32) : ns.sum.toNat = (ns.map UInt32.toNat).sum % 2 ^ 32 := by
  induction ns with
  | nil => rfl
  | cons n ns ih =>
    rw [List.sum_cons, UInt32.toNat_add, ih, List.map_cons, List.sum_cons, Nat.add_mod_mod]

namespace Arg

mutual

def leaves : Arg O → List (Leaf O)
  | leaf l => [l]
  | pair a b => a.leaves ++ b.leaves
  | tuple members => leavesAll members
  | array elements => leavesAll elements

def leavesAll : List (Arg O) → List (Leaf O)
  | [] => []
  | a :: rest => a.leaves ++ leavesAll rest

end

mutual

theorem popCount_eq_sum : (a : Arg O) → a.popCount = (a.leaves.map Leaf.popCount).sum
  | leaf l => by simp [popCount, leaves]
  | pair a b => by
    rw [popCount, leaves, popCount_eq_sum a, popCount_eq_sum b, List.map_append, List.sum_append]
  | tuple members => by rw [popCount, leaves, popCountAll_eq_sum members]
  | array elements => by rw [popCount, leaves, popCountAll_eq_sum elements]

theorem popCountAll_eq_sum :
    (as : List (Arg O)) → popCountAll as = ((leavesAll as).map Leaf.popCount).sum
  | [] => rfl
  | a :: rest => by
    rw [popCountAll, leavesAll, popCount_eq_sum a, popCountAll_eq_sum rest, List.map_append,
      List.sum_append]

end

mutual

theorem pushCount_eq_sum : (a : Arg O) → a.pushCount = (a.leaves.map Leaf.pushCount).sum
  | leaf l => by simp [pushCount, leaves]
  | pair a b => by
    rw [pushCount, leaves, pushCount_eq_sum a, pushCount_eq_sum b, List.map_append,
      List.sum_append]
  | tuple members => by rw [pushCount, leaves, pushCountAll_eq_sum members]
  | array elements => by rw [pushCount, leaves, pushCountAll_eq_sum elements]

theorem pushCountAll_eq_sum :
    (as : List (Arg O)) → pushCountAll as = ((leavesAll as).map Leaf.pushCount).sum
  | [] => rfl
  | a :: rest => by
    rw [pushCountAll, leavesAll, pushCount_eq_sum a, pushCountAll_eq_sum rest, List.map_append,
      List.sum_append]

end

end Arg

end StackCode
