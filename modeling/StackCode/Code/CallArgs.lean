import StackCode.Fault
import StackCode.Key.Symbol

/-!
The shape of a call whose values are on the operand stack: first those passed by position, then
those passed by name, then a collection of further positional ones and one of further named ones.
-/
namespace StackCode

structure CallArgs where
  posNamed : UInt32 := 0
  names : List Symbol := []
  args : Bool := false
  kwargs : Bool := false
deriving DecidableEq

namespace CallArgs

def positional (c : CallArgs) : UInt32 := c.posNamed - .ofNat c.names.length

/-- All counts are sums in 32 bits. -/
def stackCells (c : CallArgs) : UInt32 := c.posNamed + c.args.toUInt32 + c.kwargs.toUInt32

def NamesFit (c : CallArgs) : Prop := c.names.length ≤ c.posNamed.toNat

instance (c : CallArgs) : Decidable c.NamesFit := inferInstanceAs (Decidable (_ ≤ _))

def joinNames : List Symbol → ByteString
  | [] => []
  | [s] => s.name
  | s :: rest => s.name ++ ascii ", " ++ joinNames rest

def text (c : CallArgs) : ByteString :=
  ascii " \x7bpos=" ++ decimal c.positional.toNat
    ++ (if c.names.isEmpty then [] else ascii ", named=[" ++ joinNames c.names ++ ascii "]")
    ++ (if c.args then ascii ", *args" else [])
    ++ (if c.kwargs then ascii ", **kwargs" else [])
    ++ ascii "\x7d"

def render (c : CallArgs) (out : Output) : Checked Output := do
  .require .tooManyNames c.NamesFit
  return out ++ c.text

end CallArgs

end StackCode
