import StackCode.Key.Text

/-!
Symbols: names of attributes, keywords and module bindings. A symbol hashes as its name, so a
map keyed by symbols is searched by a name as well; stored with its hash, it is compared by that
first.
-/
namespace StackCode

structure Symbol where
  name : ByteString
deriving DecidableEq

namespace Symbol

instance [ByteHash] : HashKey Symbol := ⟨fun s => hashBytes s.name⟩

instance : Equivalent ByteString Symbol := ⟨fun name s => name == s.name⟩

instance : Stored Symbol := ⟨.record [Stored.layout ByteString, .word32]⟩

theorem equivalent_name_iff {name : ByteString} {s : Symbol} :
    equivalent name s = true ↔ name = s.name :=
  beq_iff_eq

end Symbol

/-- A symbol as it is stored: the name, and the hash that was computed from it once. -/
abbrev HashedSymbol [ByteHash] : Type := Hashed ByteString

namespace HashedSymbol

variable [ByteHash]

instance : HashKey HashedSymbol := ⟨Hashed.hash⟩

instance : BEq HashedSymbol := ⟨fun s s' => s.hash == s'.hash && s.key == s'.key⟩

instance : Equivalent ByteString HashedSymbol := ⟨fun name s => name == s.key⟩

end HashedSymbol

inductive SymbolQuery where
  | name (text : ByteString)
  | symbol (symbol : Symbol)

namespace SymbolQuery

instance [ByteHash] : HashKey SymbolQuery where
  hashOf
    | .name text => hashOf text
    | .symbol s => hashOf s

instance : Equivalent SymbolQuery Symbol where
  equivalent
    | .name text, key => equivalent text key
    | .symbol s, key => equivalent s key

end SymbolQuery

end StackCode
