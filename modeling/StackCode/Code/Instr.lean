import StackCode.Code.Arg

/-!
Instructions with their arguments. What an instruction pops and pushes is the count of its kind
plus that of its argument, in 32 bits.
-/
namespace StackCode

variable {O : Type} [ValueObject O]

inductive Instr (O : Type) [ValueObject O] where
  | loadConst (value : Value O)
  | loadLocal (slot : LocalSlot)
  | storeLocal (slot : LocalSlot)
  | storeLocalConst (slot : LocalSlot) (value : Value O)
  | loadModule (slot : ModuleSlot)
  | storeModule (slot : ModuleSlot)
  | storeModuleAndExport (slot : ModuleSlot) (name : ByteString)
  | dup
  | pop
  | add
  | sub
  | eq
  | less
  | not
  | neg
  | formatOne (before after : Value O)
  | branch (offset : Offset)
  | branchIf (offset : Offset)
  | branchIfNot (offset : Offset)
  | buildTuple (count : UInt32)
  | buildList (count : UInt32)
  | buildDict (count : UInt32)
  | listOfConsts (values : List (Value O))
  | dictOfConsts (dict : ConstDict O)
  | dictConstKeys (keys : List (Hashed (Value O))) (count : UInt32)
  | unpack (count : UInt32)
  | objectField (field : Symbol)
  | setObjectField (field : Symbol)
  | storeIndex
  | slice (start stop step : Bool)
  | call (args : CallArgs) (span : CodeSpan)
  | ret
  | returnConst (value : Value O)
  | endOfCode (spans : SpanTable)

namespace Instr

def opcode : Instr O → Opcode
  | loadConst _ => .loadConst
  | loadLocal _ => .loadLocal
  | storeLocal _ => .storeLocal
  | storeLocalConst _ _ => .storeLocalConst
  | loadModule _ => .loadModule
  | storeModule _ => .storeModule
  | storeModuleAndExport _ _ => .storeModuleAndExport
  | dup => .dup
  | pop => .pop
  | add => .add
  | sub => .sub
  | eq => .eq
  | less => .less
  | not => .not
  | neg => .neg
  | formatOne _ _ => .formatOne
  | branch _ => .branch
  | branchIf _ => .branchIf
  | branchIfNot _ => .branchIfNot
  | buildTuple _ => .buildTuple
  | buildList _ => .buildList
  | buildDict _ => .buildDict
  | listOfConsts _ => .listOfConsts
  | dictOfConsts _ => .dictOfConsts
  | dictConstKeys _ _ => .dictConstKeys
  | unpack _ => .unpack
  | objectField _ => .objectField
  | setObjectField _ => .setObjectField
  | storeIndex => .storeIndex
  | slice _ _ _ => .slice
  | call _ _ => .call
  | ret => .ret
  | returnConst _ => .returnConst
  | endOfCode _ => .endOfCode

def arg : Instr O → Arg O
  | loadConst v | returnConst v => .leaf (.value v)
  | loadLocal s | storeLocal s => .leaf (.localSlot s)
  | storeLocalConst s v => .pair (.leaf (.localSlot s)) (.leaf (.value v))
  | loadModule s | storeModule s => .leaf (.moduleSlot s)
  | storeModuleAndExport s name => .pair (.leaf (.moduleSlot s)) (.leaf (.text name))
  | dup | pop | add | sub | eq | less | not | neg | ret => .leaf .unit
  | formatOne before after => .tuple [.leaf (.value before), .leaf (.value after)]
  | branch o | branchIf o | branchIfNot o => .leaf (.offset o)
  | buildTuple count | buildList count | buildDict count => .leaf (.pops count)
  | listOfConsts values => .leaf (.values values)
  | dictOfConsts d => .leaf (.dict d)
  | dictConstKeys keys count => .pair (.leaf (.hashedValues keys)) (.leaf (.pops count))
  | unpack count => .leaf (.pushes count)
  | objectField field | setObjectField field => .leaf (.symbol field)
  | storeIndex => .leaf .popsOne
  | slice start stop step =>
    .array [.leaf (.popsIf start), .leaf (.popsIf stop), .leaf (.popsIf step)]
  | call args span => .pair (.leaf (.call args)) (.leaf (.span span))
  | endOfCode spans => .leaf (.spans spans)

def words (i : Instr O) : Nat := i.opcode.words

def size (i : Instr O) : UInt32 := i.opcode.size

def pops (i : Instr O) : UInt32 := i.opcode.pops + i.arg.popCount

def pushes (i : Instr O) : UInt32 := i.opcode.pushes + i.arg.pushCount

theorem words_pos (i : Instr O) : 0 < i.words := i.opcode.words_pos

def branchOffset? : Instr O → Option Offset
  | branch o | branchIf o | branchIfNot o => some o
  | _ => none

theorem isBranch_opcode (i : Instr O) : i.opcode.isBranch = i.branchOffset?.isSome := by
  cases i <;> rfl

def withOffset? (o : Offset) : Instr O → Option (Instr O)
  | branch _ => some (branch o)
  | branchIf _ => some (branchIf o)
  | branchIfNot _ => some (branchIfNot o)
  | _ => none

/-- The argument, asked for under an opcode. -/
def renderArgAs (o : Opcode) (i : Instr O) (out : Output) : Checked Output := do
  .require .opcodeMismatch (i.opcode == o)
  i.arg.render out

def line (i : Instr O) : Checked Output :=
  i.renderArgAs i.opcode (ascii i.opcode.name).toArray

end Instr

end StackCode
