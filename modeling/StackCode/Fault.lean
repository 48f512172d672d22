/-!
Broken contracts. Every obligation that an operation checks has one constructor of `Fault`;
`Checked` is the outcome of an operation that checks some. The last three are no contracts but
accidents: `endlessProbe` is a search in an index that leaves the slots or meets all of them
without an end, `insideInstruction` an address at which no instruction starts, and `outsideBlock`
an instruction set down behind the end of its memory. An entry that is merely absent is
`OutOfRange`, which leaves the container usable.
-/
namespace StackCode

inductive Fault where
  | addressOutOfRange
  | reversedSpan
  | notLastEntry
  | positionOutOfRange
  | countMismatch
  | tableFull
  | backwardBranch
  | wrongKind
  | bufferTooLarge
  | wrongKindInBuffer
  | stackUnderflow
  | notABranch
  | tooManyNames
  | invalidOpcode
  | unnamedOpcode
  | opcodeMismatch
  | hashMismatch
  | entryNotIndexed
  | duplicateKey
  | endlessProbe
  | insideInstruction
  | outsideBlock
deriving DecidableEq

def Fault.message : Fault → String
  | .addressOutOfRange => "addr.value < size_bytes_"
  | .reversedSpan => "begin <= end"
  | .notLastEntry => "index + 1 == size_"
  | .positionOutOfRange => "index < size()"
  | .countMismatch => "index == count"
  | .tableFull => "size_ < slots_.size()"
  | .backwardBranch => "bc_addr: backward offset"
  | .wrongKind => "bc_ptr: instruction kind mismatch"
  | .bufferTooLarge => "bc_storage: bytecode buffer too large"
  | .wrongKindInBuffer => "bc_storage: instruction kind mismatch"
  | .stackUnderflow => "bc_writer: operand stack underflow"
  | .notABranch => "bc_writer::patch_br: not a branch instruction"
  | .tooManyNames => "call_args: more names than named values"
  | .invalidOpcode => "dispatch: invalid opcode"
  | .unnamedOpcode => "opcode_name: invalid opcode"
  | .opcodeMismatch => "fmt_append_arg: opcode does not match the instruction"
  | .hashMismatch => "hashed: trusted hash does not match the key"
  | .entryNotIndexed => "index_table: erased entry not indexed"
  | .duplicateKey => "small_map: duplicate key inserted through the unchecked path"
  | .endlessProbe => "probe without an end"
  | .insideInstruction => "address inside an instruction"
  | .outsideBlock => "instruction outside its block"

abbrev Checked (α : Type) := Except Fault α

def Checked.require (fault : Fault) (condition : Bool) : Checked Unit :=
  if condition then .ok () else .error fault

@[simp] theorem Checked.require_true (fault : Fault) : Checked.require fault true = .ok () := rfl

@[simp] theorem Checked.require_false (fault : Fault) :
    Checked.require fault false = .error fault := rfl

namespace Checked

variable {α β : Type}

@[simp] theorem pure_eq_ok (a : α) : (pure a : Checked α) = .ok a := rfl

@[simp] theorem ok_bind (a : α) (f : α → Checked β) : ((.ok a : Checked α) >>= f) = f a := rfl

@[simp] theorem error_bind (fault : Fault) (f : α → Checked β) :
    ((.error fault : Checked α) >>= f) = .error fault := rfl

@[simp] theorem map_ok (f : α → β) (a : α) : f <$> (.ok a : Checked α) = .ok (f a) := rfl

theorem bind_eq_ok_iff {x : Checked α} {f : α → Checked β} {b : β} :
    x >>= f = .ok b ↔ ∃ a, x = .ok a ∧ f a = .ok b := by
  cases x <;> simp

theorem bind_eq_error_iff {x : Checked α} {f : α → Checked β} {fault : Fault} :
    x >>= f = .error fault ↔ x = .error fault ∨ ∃ a, x = .ok a ∧ f a = .error fault := by
  cases x <;> simp

theorem map_eq_ok_iff {f : α → β} {x : Checked α} {b : β} :
    f <$> x = .ok b ↔ ∃ a, x = .ok a ∧ f a = b := by
  cases x <;> simp [Functor.map, Except.map]

theorem require_eq_ok_iff {fault : Fault} {condition : Bool} {u : Unit} :
    Checked.require fault condition = .ok u ↔ condition = true := by
  cases condition <;> simp

theorem allM_eq_ok {f : α → Checked Bool} {g : α → Bool} {l : List α}
    (h : ∀ a ∈ l, f a = .ok (g a)) : l.allM f = .ok (l.all g) := by
  induction l with
  | nil => rfl
  | cons a l ih =>
    have hrest := ih fun b hb => h b (List.mem_cons_of_mem a hb)
    rw [List.allM, h a List.mem_cons_self, List.all_cons, ok_bind]
    cases g a with
    | false => rfl
    | true => rw [Bool.true_and]; exact hrest

theorem allM_eq_ok_true_iff {f : α → Checked Bool} {l : List α} :
    l.allM f = .ok true ↔ ∀ a ∈ l, f a = .ok true := by
  induction l with
  | nil => simp [List.allM]
  | cons a l ih =>
    rw [List.allM, bind_eq_ok_iff, List.forall_mem_cons, ← ih]
    constructor
    · rintro ⟨b, ha, hrest⟩
      cases b with
      | false => cases hrest
      | true => exact ⟨ha, hrest⟩
    · rintro ⟨ha, hrest⟩
      exact ⟨true, ha, hrest⟩

end Checked

/-- An access that reports an absent entry. -/
inductive OutOfRange where
  | position
  | key
deriving DecidableEq

def OutOfRange.message : OutOfRange → String
  | .position => "lark::vm::vec_map::at"
  | .key => "lark::vm::small_map::at"

end StackCode
