import StackCode.Key.Text
import StackCode.Value.Basic

/-!
Constants of a compiled program: integers, byte strings, objects equal to themselves only, and
objects that compare by their text.
-/
namespace StackCode

inductive Object where
  | integer (value : Int64)
  | text (bytes : ByteString)
  | unique (typeName repr : ByteString) (hash : HashCode)
  | token (typeName repr : ByteString) (hash : HashCode)

namespace Object

def quotationMark : ByteString := ascii "\""

instance : ValueObject Object where
  typeName
    | .integer _ => ascii "int"
    | .text _ => ascii "string"
    | .unique typeName _ _ => typeName
    | .token typeName _ _ => typeName
  repr
    | .integer n => signedDecimal n.toInt
    | .text bytes => quotationMark ++ bytes ++ quotationMark
    | .unique _ repr _ => repr
    | .token _ repr _ => repr
  hash
    | .integer n => .fold n.toUInt64
    | .text bytes => hashBytes bytes
    | .unique _ _ hash => hash
    | .token _ _ hash => hash
  equals
    | .integer a, .integer b => a == b
    | .text a, .text b => a == b
    | .token _ a _, .token _ b _ => a == b
    | _, _ => false

end Object

end StackCode
