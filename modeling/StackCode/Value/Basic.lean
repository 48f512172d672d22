import StackCode.Bytes
import StackCode.Key.Basic
import StackCode.Layout

/-!
Handles to the immutable values of a running program. What the objects are is left open: a type
of objects need only say how they are named, written, hashed and compared. Two handles are equal
if they lead to the same object or to objects that compare equal.
-/
namespace StackCode

class ValueObject (O : Type) where
  typeName : O → ByteString
  repr : O → ByteString
  hash : O → HashCode
  equals : O → O → Bool

structure Value (O : Type) where
  identity : Nat
  object : O

namespace Value

variable {O : Type} [ValueObject O]

def typeName (v : Value O) : ByteString := ValueObject.typeName v.object

def repr (v : Value O) : ByteString := ValueObject.repr v.object

instance : HashKey (Value O) := ⟨fun v => ValueObject.hash v.object⟩

instance : BEq (Value O) :=
  ⟨fun a b => a.identity == b.identity || ValueObject.equals a.object b.object⟩

instance : Stored (Value O) := ⟨.word64⟩

/-- A longer text is replaced by the name of the type. -/
def longestRepr : Nat := 100

def appendRepr (v : Value O) (out : Output) : Output :=
  let written := out ++ v.repr
  if written.size - out.size > longestRepr then
    written.take out.size ++ ascii "<" ++ v.typeName ++ ascii ">"
  else written

end Value

end StackCode
