import StackCode.Code.Program

/-!
Listings of programs: a line for each instruction, or one text with the addresses in front, in
which the end of the code has a line too.
-/
namespace StackCode.Program

variable {O : Type} [ValueObject O] (p : Program O)

def lineAt (a : Addr) : Checked Output := do (← p.instrAt a).line

def disassembleFrom : List (Addr × Instr O) → Checked (List Output)
  | [] => .ok []
  | (_, i) :: rest =>
    if i.opcode = .endOfCode then .ok [] else do return (← i.line) :: (← disassembleFrom rest)

def disassemble : Checked (List Output) := do disassembleFrom (← p.instrs)

def dumpFrom (out : Output) : List (Addr × Instr O) → Checked Output
  | [] => .ok out
  | (a, i) :: rest => do
    let line ← i.line
    dumpFrom (out ++ decimal a.value.toNat ++ ascii ": " ++ line ++ ascii "\n") rest

def dump : Checked Output := do dumpFrom #[] (← p.instrs)

end StackCode.Program
