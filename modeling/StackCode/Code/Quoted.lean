import StackCode.Bytes

/-!
Quoted byte strings. Quotation marks, backslashes, line ends, tabulators and zeros have escapes
of one letter; other control bytes are written by number; bytes from 128 up stand as they are.
-/
namespace StackCode.Quoted

def mark : UInt8 := 0x22

def isControl (b : UInt8) : Bool := b < 0x20 || b == 0x7F

def encodeByte (b : UInt8) : ByteString :=
  if b = mark then ascii "\\\""
  else if b = 0x5C then ascii "\\\\"
  else if b = 0x0A then ascii "\\n"
  else if b = 0x0D then ascii "\\r"
  else if b = 0x09 then ascii "\\t"
  else if b = 0 then ascii "\\0"
  else if isControl b then ascii "\\u\x7b" ++ hexadecimal b.toNat ++ ascii "\x7d"
  else [b]

def encode (s : ByteString) : ByteString := mark :: (s.flatMap encodeByte ++ [mark])

end StackCode.Quoted
