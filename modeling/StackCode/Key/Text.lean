import StackCode.Bytes
import StackCode.Key.Basic
import StackCode.Layout

/-!
Byte strings as keys. They may be looked for by a string that is owned, by a view into one, or
by one that ends at its first zero; all hash their bytes by the same function.
-/
namespace StackCode

class ByteHash where
  hashBytes : ByteString → HashCode

export ByteHash (hashBytes)

def mixBytes (s : ByteString) : HashCode :=
  .fold (s.foldl (fun h b => (h ^^^ b.toUInt64) * 0x100000001B3) 0xCBF29CE484222325)

instance (priority := low) : ByteHash := ⟨mixBytes⟩

instance [ByteHash] : HashKey ByteString := ⟨hashBytes⟩

instance : Stored ByteString := ⟨⟨32, 8⟩⟩

inductive TextQuery where
  | owned (text : ByteString)
  | view (text : ByteString)
  | terminated (text : ByteString)

namespace TextQuery

def bytes : TextQuery → ByteString
  | .owned text => text
  | .view text => text
  | .terminated text => untilZero text

instance [ByteHash] : HashKey TextQuery := ⟨fun q => hashBytes q.bytes⟩

instance : Equivalent TextQuery ByteString := ⟨fun q key => q.bytes == key⟩

theorem equivalent_iff {q : TextQuery} {key : ByteString} :
    equivalent q key = true ↔ q.bytes = key :=
  beq_iff_eq

end TextQuery

end StackCode
