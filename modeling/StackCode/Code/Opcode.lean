import StackCode.Fault

/-!
The kinds of instructions: their numbers, names, sizes, and what they pop and push besides what
their arguments do.
-/
namespace StackCode

inductive Opcode where
  | loadConst
  | loadLocal
  | storeLocal
  | storeLocalConst
  | loadModule
  | storeModule
  | storeModuleAndExport
  | dup
  | pop
  | add
  | sub
  | eq
  | less
  | not
  | neg
  | formatOne
  | branch
  | branchIf
  | branchIfNot
  | buildTuple
  | buildList
  | buildDict
  | listOfConsts
  | dictOfConsts
  | dictConstKeys
  | unpack
  | objectField
  | setObjectField
  | storeIndex
  | slice
  | call
  | ret
  | returnConst
  | endOfCode
deriving DecidableEq

namespace Opcode

def all : List Opcode :=
  [loadConst, loadLocal, storeLocal, storeLocalConst, loadModule, storeModule,
    storeModuleAndExport, dup, pop, add, sub, eq, less, not, neg, formatOne, branch, branchIf,
    branchIfNot, buildTuple, buildList, buildDict, listOfConsts, dictOfConsts, dictConstKeys,
    unpack, objectField, setObjectField, storeIndex, slice, call, ret, returnConst, endOfCode]

theorem mem_all (o : Opcode) : o ∈ all := by
  cases o <;> decide

def number (o : Opcode) : UInt32 := .ofNat (all.idxOf o)

def ofNumber? (n : UInt32) : Option Opcode := all[n.toNat]?

theorem ofNumber?_number (o : Opcode) : ofNumber? o.number = some o := by
  cases o <;> rfl

def name : Opcode → String
  | loadConst => "load_const"
  | loadLocal => "load_local"
  | storeLocal => "store_local"
  | storeLocalConst => "store_local_const"
  | loadModule => "load_module"
  | storeModule => "store_module"
  | storeModuleAndExport => "store_module_and_export"
  | dup => "dup"
  | pop => "pop"
  | add => "add"
  | sub => "sub"
  | eq => "eq"
  | less => "less"
  | not => "not_"
  | neg => "neg"
  | formatOne => "percent_s_one"
  | branch => "br"
  | branchIf => "if_br"
  | branchIfNot => "if_not_br"
  | buildTuple => "tuple_n_pop"
  | buildList => "list_n_pop"
  | buildDict => "dict_n_pop"
  | listOfConsts => "list_of_consts"
  | dictOfConsts => "dict_of_consts"
  | dictConstKeys => "dict_const_keys"
  | unpack => "unpack"
  | objectField => "object_field"
  | setObjectField => "set_object_field"
  | storeIndex => "store_index"
  | slice => "slice"
  | call => "call"
  | ret => "return_"
  | returnConst => "return_const"
  | endOfCode => "end"

def ofName? (name : String) : Option Opcode := all.find? (·.name == name)

/-- The words of eight bytes that an instruction takes: its opcode and its argument. -/
def words : Opcode → Nat
  | loadConst | returnConst => 2
  | storeLocalConst | formatOne => 3
  | listOfConsts | endOfCode => 4
  | dictConstKeys => 5
  | storeModuleAndExport | objectField | setObjectField => 6
  | call => 7
  | dictOfConsts => 9
  | _ => 1

theorem words_pos (o : Opcode) : 0 < o.words := by
  cases o <;> decide

def wordBytes : Nat := 8

def size (o : Opcode) : UInt32 := .ofNat (wordBytes * o.words)

theorem toNat_size (o : Opcode) : o.size.toNat = wordBytes * o.words := by
  cases o <;> rfl

def pops : Opcode → UInt32
  | add | sub | eq | less | setObjectField | storeIndex => 2
  | storeLocal | storeModule | storeModuleAndExport | dup | pop | not | neg | formatOne
  | branchIf | branchIfNot | unpack | objectField | slice | call | ret => 1
  | _ => 0

def pushes : Opcode → UInt32
  | dup => 2
  | loadConst | loadLocal | loadModule | add | sub | eq | less | not | neg | formatOne
  | buildTuple | buildList | buildDict | listOfConsts | dictOfConsts | dictConstKeys
  | objectField | slice | call => 1
  | _ => 0

def isBranch : Opcode → Bool
  | branch | branchIf | branchIfNot => true
  | _ => false

def ofNumber (n : UInt32) : Checked Opcode :=
  match ofNumber? n with
  | some o => .ok o
  | none => .error .invalidOpcode

def nameOf (n : UInt32) : Checked String :=
  match ofNumber? n with
  | some o => .ok o.name
  | none => .error .unnamedOpcode

end Opcode

end StackCode
