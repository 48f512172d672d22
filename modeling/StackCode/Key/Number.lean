import StackCode.Bytes
import StackCode.Key.Basic
import StackCode.Layout

/-!
Numbers as keys, and keys that are a number with a hash and a tag of their own. Of the latter
only the number is compared: two of them may be equal and still hash differently.
-/
namespace StackCode

instance : HashKey Int32 := ⟨fun n => .fold n.toInt64.toUInt64⟩

structure TaggedKey where
  number : Int32
  hash : HashCode
  tag : ByteString

namespace TaggedKey

instance : HashKey TaggedKey := ⟨hash⟩

instance : BEq TaggedKey := ⟨fun a b => a.number == b.number⟩

instance : LT TaggedKey := ⟨fun a b => a.number < b.number⟩

instance : DecidableLT TaggedKey := fun a b => inferInstanceAs (Decidable (a.number < b.number))

instance : Stored TaggedKey := ⟨.record [.word32, .word32, ⟨32, 8⟩]⟩

end TaggedKey

end StackCode
