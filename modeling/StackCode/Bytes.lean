/-!
Byte strings, and the texts that are written into them. Output under construction is an array
of bytes, to which byte strings are appended.
-/
namespace StackCode

abbrev ByteString := List UInt8

abbrev Output := Array UInt8

def bytesOf (cs : List Char) : ByteString := cs.map fun c => c.toNat.toUInt8

def ascii (text : String) : ByteString := bytesOf text.toList

def decimal (n : Nat) : ByteString := bytesOf (Nat.toDigits 10 n)

def hexadecimal (n : Nat) : ByteString := bytesOf (Nat.toDigits 16 n)

def signedDecimal (n : Int) : ByteString :=
  if n < 0 then ascii "-" ++ decimal n.natAbs else decimal n.natAbs

def untilZero (s : ByteString) : ByteString := s.takeWhile (· ≠ 0)

theorem untilZero_eq_self {s : ByteString} (h : 0 ∉ s) : untilZero s = s := by
  induction s with
  | nil => rfl
  | cons b rest ih =>
    rw [List.mem_cons, not_or] at h
    rw [untilZero, List.takeWhile_cons_of_pos (by simpa using Ne.symm h.1)]
    exact congrArg (b :: ·) (ih h.2)

end StackCode
