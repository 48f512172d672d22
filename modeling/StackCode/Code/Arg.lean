import StackCode.Code.Address
import StackCode.Code.CallArgs
import StackCode.Code.Opcode
import StackCode.Code.Quoted
import StackCode.OrderedMap.Basic
import StackCode.Value.Basic

/-!
Arguments of instructions. A leaf has a text and an effect on the operand stack; pairs, tuples
and arrays of arguments have the texts of their parts one behind the other and the sums of their
effects, in 32 bits.
-/
namespace StackCode

variable {O : Type} [ValueObject O]

/-- A constant dictionary is searched linearly up to twelve entries. -/
abbrev ConstDict (O : Type) := OrderedMap 12 (Value O) (Value O)

abbrev SpanTable := Array (Addr × CodeSpan)

inductive Leaf (O : Type) [ValueObject O] where
  | unit
  | number (n : UInt32)
  | addr (a : Addr)
  | offset (o : Offset)
  | localSlot (s : LocalSlot)
  | moduleSlot (s : ModuleSlot)
  | span (s : CodeSpan)
  | opcode (number : UInt32)
  | symbol (s : Symbol)
  | text (s : ByteString)
  | value (v : Value O)
  | optValue (v : Option (Value O))
  | values (vs : List (Value O))
  | hashedValues (vs : List (Hashed (Value O)))
  | dict (d : ConstDict O)
  | spans (t : SpanTable)
  | call (c : CallArgs)
  | pops (count : UInt32)
  | pushes (count : UInt32)
  | popsOne
  | popsIf (given : Bool)

def appendSeparated {α : Type} (append : α → Output → Output) : List α → Output → Output
  | [], out => out
  | [a], out => append a out
  | a :: rest, out => appendSeparated append rest (append a out ++ ascii ", ")

def appendValues (vs : List (Value O)) (out : Output) : Output :=
  appendSeparated Value.appendRepr vs (out ++ ascii " [") ++ ascii "]"

def appendEntry (e : Value O × Value O) (out : Output) : Output :=
  e.2.appendRepr (e.1.appendRepr out ++ ascii ": ")

namespace Leaf

def render : Leaf O → Output → Checked Output
  | unit, out => .ok out
  | number n, out => .ok (out ++ ascii " " ++ decimal n.toNat)
  | addr a, out => .ok (out ++ ascii " " ++ decimal a.value.toNat)
  | offset o, out => .ok (out ++ ascii " +" ++ decimal o.value.toNat)
  | localSlot s, out => .ok (out ++ ascii " l" ++ decimal s.value.toNat)
  | moduleSlot s, out => .ok (out ++ ascii " m" ++ decimal s.value.toNat)
  | span s, out =>
    .ok (out ++ ascii " " ++ decimal s.start.toNat ++ ascii ":" ++ decimal s.stop.toNat)
  | opcode n, out => do return out ++ ascii " " ++ ascii (← Opcode.nameOf n)
  | symbol s, out => .ok (out ++ ascii " " ++ s.name)
  | text s, out => .ok (out ++ ascii " " ++ Quoted.encode s)
  | value v, out => .ok (v.appendRepr (out ++ ascii " "))
  | optValue (some v), out => .ok (v.appendRepr (out ++ ascii " "))
  | optValue none, out => .ok (out ++ ascii " ()")
  | values vs, out => .ok (appendValues vs out)
  | hashedValues vs, out => .ok (appendValues (vs.map Hashed.key) out)
  | dict d, out =>
    .ok (appendSeparated appendEntry d.entries (out ++ ascii " \x7b") ++ ascii "\x7d")
  | spans _, out => .ok (out ++ ascii " spans")
  | call c, out => c.render out
  | pops count, out => .ok (out ++ ascii " " ++ decimal count.toNat)
  | pushes count, out => .ok (out ++ ascii " " ++ decimal count.toNat)
  | popsOne, out => .ok out
  | popsIf given, out => .ok (out ++ ascii (if given then " 1" else " 0"))

def popCount : Leaf O → UInt32
  | call c => c.stackCells
  | pops count => count
  | popsOne => 1
  | popsIf given => given.toUInt32
  | _ => 0

def pushCount : Leaf O → UInt32
  | pushes count => count
  | _ => 0

end Leaf

inductive Arg (O : Type) [ValueObject O] where
  | leaf (l : Leaf O)
  | pair (first second : Arg O)
  | tuple (members : List (Arg O))
  | array (elements : List (Arg O))

namespace Arg

mutual

def render : Arg O → Output → Checked Output
  | leaf l, out => l.render out
  | pair a b, out => do b.render (← a.render out)
  | tuple members, out => renderAll members out
  | array elements, out => renderAll elements out

def renderAll : List (Arg O) → Output → Checked Output
  | [], out => .ok out
  | a :: rest, out => do renderAll rest (← a.render out)

end

mutual

def popCount : Arg O → UInt32
  | leaf l => l.popCount
  | pair a b => a.popCount + b.popCount
  | tuple members => popCountAll members
  | array elements => popCountAll elements

def popCountAll : List (Arg O) → UInt32
  | [] => 0
  | a :: rest => a.popCount + popCountAll rest

end

mutual

def pushCount : Arg O → UInt32
  | leaf l => l.pushCount
  | pair a b => a.pushCount + b.pushCount
  | tuple members => pushCountAll members
  | array elements => pushCountAll elements

def pushCountAll : List (Arg O) → UInt32
  | [] => 0
  | a :: rest => a.pushCount + pushCountAll rest

end

end Arg

end StackCode
