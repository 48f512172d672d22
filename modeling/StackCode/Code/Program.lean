import StackCode.Code.Buffer

/-!
Finished programs: code that ends with an instruction carrying the spans of all others. A
program can be replayed for its stack depths, and the span of an instruction is found by halving
the table of spans.
-/
namespace StackCode

variable {O : Type} [ValueObject O]

structure Program (O : Type) [ValueObject O] where
  code : CodeBuffer O
  endAddr : Addr
  maxDepth : UInt32

/-- The state of a replay after an instruction: the depth, or that it popped too much. -/
inductive Replay where
  | depth (depth : UInt32)
  | underflow
deriving DecidableEq

namespace Replay

def depthsFrom (depth : UInt32) : List (Instr O) → List Replay
  | [] => []
  | i :: rest =>
    if depth < i.pops then [underflow]
    else
      let after := depth - i.pops + i.pushes
      .depth after :: Replay.depthsFrom after rest

end Replay

/-- The first of `count` entries from `first` on that is not below `a`. The entries below `a`
have to come first. -/
def SpanTable.lowerBound (t : SpanTable) (a : Addr) (first count : Nat) : Nat :=
  if count = 0 then first
  else
    let half := count / 2
    match t[first + half]? with
    | some entry =>
      if entry.1 < a then SpanTable.lowerBound t a (first + half + 1) (count - half - 1)
      else SpanTable.lowerBound t a first half
    | none => SpanTable.lowerBound t a first half
termination_by count

def SpanTable.find? (t : SpanTable) (a : Addr) : Option CodeSpan := do
  let (found, span) ← t[SpanTable.lowerBound t a 0 t.size]?
  if found = a then some span else none

namespace Program

variable (p : Program O)

def sizeBytes : UInt32 := p.code.sizeBytes

def instrs : Checked (List (Addr × Instr O)) := p.code.instrs

def instrAt (a : Addr) : Checked (Instr O) := p.code.instrAt a

def instrOfKindAt (o : Opcode) (a : Addr) : Checked (Instr O) := do
  let i ← p.instrAt a
  .require .wrongKind (i.opcode == o)
  return i

def spans : Checked SpanTable := do
  match ← p.instrAt p.endAddr with
  | .endOfCode spans => return spans
  | _ => throw .wrongKind

def spanAt (a : Addr) : Checked (Option CodeSpan) := do
  return (← p.spans).find? a

def branchTarget? (a : Addr) : Checked (Option Addr) := do
  return (← p.instrAt a).branchOffset?.map (a + ·)

def replay : Checked (List Replay) := do
  return Replay.depthsFrom 0 ((← p.instrs).map Prod.snd)

end Program

end StackCode
