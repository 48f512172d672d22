import StackCode.Code.Instr

/-!
Buffers of instructions. An instruction stands at its first word, and the rest of its words are
blank; addresses are eight times the number of words before. A buffer that is too small moves to
a block of twice the size or more: the instructions are visited from the start, each at the end of
the one before, and set down at the same places, which the block has to have room for.
-/
namespace StackCode

variable {O : Type} [ValueObject O]

abbrev Words (O : Type) [ValueObject O] := Array (Option (Instr O))

namespace Words

def instrsFrom (ws : Words O) : (fuel pos : Nat) → Checked (List (Nat × Instr O))
  | 0, pos => if pos = ws.size then .ok [] else .error .insideInstruction
  | fuel + 1, pos =>
    if pos = ws.size then .ok []
    else match ws[pos]? with
      | some (some i) => do return (pos, i) :: (← instrsFrom ws fuel (pos + i.words))
      | _ => .error .insideInstruction

def instrs (ws : Words O) : Checked (List (Nat × Instr O)) := instrsFrom ws ws.size 0

/-- An instruction and its blank words. -/
def ofInstr (i : Instr O) : Words O := #[some i] ++ Array.replicate (i.words - 1) none

theorem size_ofInstr (i : Instr O) : (ofInstr i).size = i.words := by
  have h := i.words_pos
  simp [ofInstr]
  omega

def relocate (ws : Words O) : Checked (Words O) := do
  return (← instrs ws).foldl (fun fresh (pos, i) => fresh.setIfInBounds pos (some i))
    (Array.replicate ws.size none)

end Words

structure CodeBuffer (O : Type) [ValueObject O] where
  words : Words O := #[]
  capacityWords : UInt32 := 0

namespace CodeBuffer

variable (b : CodeBuffer O)

def sizeBytes : UInt32 := .ofNat (Opcode.wordBytes * b.words.size)

/-- In 32 bits, as all counts of bytes. -/
def capacityBytes : UInt32 := b.capacityWords * .ofNat Opcode.wordBytes

def minCapacityWords : UInt32 := 32

def maxBytes : Nat := 0xFFFFFFFF

/-- The words asked for, twice the words there are, or the least number, whichever is the most; the
doubling is one of 32 bits. -/
def grownWords (target : Nat) : UInt32 :=
  max (.ofNat ((target + 7) / 8)) (max (b.capacityWords * 2) minCapacityWords)

def reserve (target : Nat) : Checked (CodeBuffer O) := do
  if target ≤ b.capacityBytes.toNat then return b
  .require .bufferTooLarge (target ≤ maxBytes)
  let capacityWords := b.grownWords target
  .require .outsideBlock (b.words.size ≤ capacityWords.toNat)
  return { words := ← b.words.relocate, capacityWords }

def emplace (i : Instr O) : Checked (Addr × CodeBuffer O) := do
  let roomy ← b.reserve (b.sizeBytes.toNat + i.size.toNat)
  return (⟨b.sizeBytes⟩, { roomy with words := roomy.words ++ Words.ofInstr i })

def wordAt (a : Addr) : Nat := a.value.toNat / Opcode.wordBytes

def instrAt (a : Addr) : Checked (Instr O) := do
  .require .addressOutOfRange (a.value < b.sizeBytes)
  match b.words[wordAt a]? with
  | some (some i) => if a.value.toNat % Opcode.wordBytes = 0 then return i
                     else throw .insideInstruction
  | _ => throw .insideInstruction

def instrOfKindAt (o : Opcode) (a : Addr) : Checked (Instr O) := do
  let i ← b.instrAt a
  .require .wrongKindInBuffer (i.opcode == o)
  return i

def setInstr (a : Addr) (i : Instr O) : CodeBuffer O :=
  { b with words := b.words.setIfInBounds (wordAt a) (some i) }

def instrs : Checked (List (Addr × Instr O)) := do
  return (← b.words.instrs).map fun (pos, i) => (⟨.ofNat (Opcode.wordBytes * pos)⟩, i)

end CodeBuffer

end StackCode
