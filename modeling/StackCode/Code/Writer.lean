import StackCode.Code.Program

/-!
Writers of programs. A writer appends instructions, keeps the depth of the operand stack and its
maximum, and records the span of each instruction that has one. Branches are written first and
led to their targets later.
-/
namespace StackCode

variable {O : Type} [ValueObject O]

structure Writer (O : Type) [ValueObject O] where
  code : CodeBuffer O := {}
  spans : SpanTable := #[]
  depth : UInt32 := 0
  maxDepth : UInt32 := 0

namespace Writer

variable (w : Writer O)

def ip : Addr := ⟨w.code.sizeBytes⟩

/-- Appends an instruction, which may pop no more than the stack holds, and returns its
address. -/
def write (i : Instr O) (span : Option CodeSpan) : Checked (Addr × Writer O) := do
  .require .stackUnderflow (i.pops ≤ w.depth)
  let (a, code) ← w.code.emplace i
  let depth := w.depth - i.pops + i.pushes
  let spans := match span with
    | some s => w.spans.push (a, s)
    | none => w.spans
  return (a, { code, spans, depth, maxDepth := max w.maxDepth depth })

def patch (a target : Addr) : Checked (Writer O) := do
  let i ← w.code.instrAt a
  .require .notABranch i.opcode.isBranch
  let offset ← target.offsetFrom a
  match i.withOffset? offset with
  | some i => return { w with code := w.code.setInstr a i }
  | none => throw .notABranch

def patchHere (a : Addr) : Checked (Writer O) := w.patch a w.ip

def finish : Checked (Program O) := do
  let (endAddr, code) ← w.code.emplace (.endOfCode w.spans)
  return { code, endAddr, maxDepth := w.maxDepth }

end Writer

end StackCode
