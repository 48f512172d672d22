import Mathlib
import StackCode.Code.Listing
import StackCode.Proofs.Code.Run
import StackCode.Value.Object

/-! Listings of finished programs. A writer looks at the depth of the stack only; of the
instructions it accepts, a line can be written for all but the calls that name more values than they
pass. Patches change no call, so a program can be listed just if the calls that were written can. -/
namespace StackCode

variable {O : Type} [ValueObject O]

namespace Instr

/-- A call names no more values than it passes. -/
def NamesFit : Instr O → Prop
  | call args _ => args.NamesFit
  | _ => True

theorem namesFit_led (o : Offset) (i : Instr O) : (i.led o).NamesFit = i.NamesFit := by
  cases i <;> rfl

theorem line_eq (i : Instr O) : i.line = i.arg.render (ascii i.opcode.name).toArray := by
  rw [line, renderArgAs, beq_self_eq_true, Checked.require_true, Checked.ok_bind]

theorem line_call (args : CallArgs) (span : CodeSpan) :
    (call args span : Instr O).line =
      args.render (ascii Opcode.call.name).toArray >>= (Leaf.span span : Leaf O).render := by
  rw [line_eq, arg, Arg.render]
  simp only [Arg.render, Leaf.render]
  rfl

theorem line_of_namesFit {i : Instr O} (h : i.NamesFit) : ∃ text, i.line = .ok text := by
  cases i with
  | call args span =>
    have hfit : decide args.NamesFit = true := decide_eq_true h
    rw [line_call, CallArgs.render, hfit, Checked.require_true, Checked.ok_bind]
    exact ⟨_, rfl⟩
  | _ => exact ⟨_, rfl⟩

theorem line_of_not_namesFit {i : Instr O} (h : ¬i.NamesFit) : i.line = .error .tooManyNames := by
  cases i with
  | call args span =>
    have hfit : decide args.NamesFit = false := decide_eq_false h
    rw [line_call, CallArgs.render, hfit, Checked.require_false, Checked.error_bind,
      Checked.error_bind]
  | _ => exact absurd trivial h

end Instr

namespace Program

variable {code : List (Addr × Instr O)}

theorem disassembleFrom_of_namesFit (h : ∀ x ∈ code, x.2.NamesFit) :
    ∃ lines, disassembleFrom code = .ok lines := by
  induction code with
  | nil => exact ⟨[], rfl⟩
  | cons x code ih =>
    rw [List.forall_mem_cons] at h
    obtain ⟨text, htext⟩ := Instr.line_of_namesFit h.1
    obtain ⟨lines, hlines⟩ := ih h.2
    by_cases hend : x.2.opcode = .endOfCode
    · exact ⟨[], by rw [disassembleFrom, if_pos hend]⟩
    · refine ⟨text :: lines, ?_⟩
      rw [disassembleFrom, if_neg hend, htext, Checked.ok_bind, hlines]
      rfl

theorem disassembleFrom_of_not_namesFit (hbad : ∃ x ∈ code, ¬x.2.NamesFit)
    (hkinds : ∀ x ∈ code, x.2.opcode ≠ .endOfCode) (rest : List (Addr × Instr O)) :
    disassembleFrom (code ++ rest) = .error .tooManyNames := by
  induction code with
  | nil => simp at hbad
  | cons x code ih =>
    rw [List.forall_mem_cons] at hkinds
    rw [List.cons_append, disassembleFrom, if_neg hkinds.1]
    by_cases hx : x.2.NamesFit
    · obtain ⟨text, htext⟩ := Instr.line_of_namesFit hx
      have hrest := ih (by simpa [hx] using hbad) hkinds.2
      rw [htext, Checked.ok_bind, hrest, Checked.error_bind]
    · rw [Instr.line_of_not_namesFit hx, Checked.error_bind]

theorem dumpFrom_of_namesFit (h : ∀ x ∈ code, x.2.NamesFit) (out : Output) :
    ∃ text, dumpFrom out code = .ok text := by
  induction code generalizing out with
  | nil => exact ⟨out, rfl⟩
  | cons x code ih =>
    rw [List.forall_mem_cons] at h
    obtain ⟨line, hline⟩ := Instr.line_of_namesFit h.1
    obtain ⟨text, htext⟩ := ih h.2
      (out ++ decimal x.1.value.toNat ++ ascii ": " ++ line ++ ascii "\n")
    exact ⟨text, by rw [dumpFrom, hline, Checked.ok_bind, htext]⟩

theorem dumpFrom_of_not_namesFit (hbad : ∃ x ∈ code, ¬x.2.NamesFit) (out : Output) :
    dumpFrom out code = .error .tooManyNames := by
  induction code generalizing out with
  | nil => simp at hbad
  | cons x code ih =>
    rw [dumpFrom]
    by_cases hx : x.2.NamesFit
    · obtain ⟨line, hline⟩ := Instr.line_of_namesFit hx
      rw [hline, Checked.ok_bind]
      exact ih (by simpa [hx] using hbad) _
    · rw [Instr.line_of_not_namesFit hx, Checked.error_bind]

end Program

namespace Writer

open Words

variable {w : Writer O}

theorem map_listingAfter {α : Type*} {f : Instr O → α} (hf : ∀ o i, f (i.led o) = f i)
    (code : List (Addr × Instr O)) (es : List (Event O)) :
    (listingAfter code es).map (fun x => f x.2) =
      code.map (fun x => f x.2) ++ (written es).map f := by
  induction es generalizing code with
  | nil => simp [listingAfter, written]
  | cons e es ih =>
    rw [listingAfter, ih]
    cases e with
    | write i span => simp [Event.listing]
    | grow target => simp [Event.listing]
    | patch a target =>
      have hkeep : (Event.listing code (.patch a target)).map (fun x => f x.2) =
          code.map fun x => f x.2 := by
        rw [Event.listing, List.map_map]
        refine List.map_congr_left fun x _ => ?_
        simp only [Function.comp_apply]
        split
        · exact hf _ _
        · rfl
      rw [hkeep]
      rfl

theorem instrs_of_finish {es : List (Event O)} {addrs : List Addr} {p : Program O}
    (hrun : run {} es = .ok (addrs, w)) (hfinish : w.finish = .ok p) :
    ∃ code, p.instrs = .ok (code ++ [(p.endAddr, .endOfCode w.spans)]) ∧
      (∀ x ∈ code ++ [(p.endAddr, .endOfCode w.spans)], x.1.value < p.sizeBytes) ∧
      ∀ {α : Type} (f : Instr O → α), (∀ o i, f (i.led o) = f i) →
        code.map (fun x => f x.2) = (written es).map f := by
  obtain ⟨is, hcode, hlisting, -⟩ := run_encodes CodeBuffer.encodes_empty hrun
  obtain ⟨hend, hp⟩ := finish_encodes hcode hfinish
  have hplaced : placed (is ++ [.endOfCode w.spans]) =
      placed is ++ [(p.endAddr, .endOfCode w.spans)] := by
    rw [placed_append_singleton, hend]
  refine ⟨placed is, by rw [← hplaced]; exact hp.instrs, ?_, fun f hf => ?_⟩
  · rw [← hplaced]
    intro x hx
    obtain ⟨y, hy, rfl⟩ := List.mem_map.1 hx
    have hb := mem_placesFrom_bounds hy
    have hpos := y.2.words_pos
    rw [UInt32.lt_iff_toNat_lt, toNat_addrAt_of_mem hp.fits hy, Program.sizeBytes,
      hp.toNat_sizeBytes, Opcode.wordBytes]
    omega
  · rw [hlisting]
    exact map_listingAfter hf [] es

/-- A finished program can be listed, with the addresses and without, if no call names more values
than it passes; and otherwise it cannot, for this reason and for no other. -/
theorem listing_of_finished {es : List (Event O)} {addrs : List Addr} {p : Program O}
    (hrun : run {} es = .ok (addrs, w)) (hfinish : w.finish = .ok p)
    (hkinds : ∀ i ∈ written es, i.opcode ≠ .endOfCode) :
    (∃ code, p.instrs = .ok code ∧ ∀ x ∈ code, x.1.value < p.sizeBytes) ∧
      ((∀ i ∈ written es, i.NamesFit) →
        (∃ lines, p.disassemble = .ok lines) ∧ ∃ text, p.dump = .ok text) ∧
      ((∃ i ∈ written es, ¬i.NamesFit) →
        p.disassemble = .error .tooManyNames ∧ p.dump = .error .tooManyNames) := by
  obtain ⟨code, hinstrs, hbelow, hsame⟩ := instrs_of_finish hrun hfinish
  have hfit : (∀ x ∈ code, x.2.NamesFit) ↔ ∀ i ∈ written es, i.NamesFit := by
    have hiff : (∀ fits ∈ code.map fun x => x.2.NamesFit, fits) ↔
        ∀ fits ∈ (written es).map Instr.NamesFit, fits := by
      rw [hsame Instr.NamesFit Instr.namesFit_led]
    simpa only [List.forall_mem_map] using hiff
  have hcode : ∀ x ∈ code, x.2.opcode ≠ .endOfCode := by
    have hiff : (∀ o ∈ code.map fun x => x.2.opcode, o ≠ .endOfCode) ↔
        ∀ o ∈ (written es).map Instr.opcode, o ≠ .endOfCode := by
      rw [hsame Instr.opcode Instr.opcode_led]
    rw [List.forall_mem_map, List.forall_mem_map] at hiff
    exact hiff.2 hkinds
  rw [Program.disassemble, Program.dump, hinstrs]
  refine ⟨⟨_, rfl, hbelow⟩, fun h => ?_, fun h => ?_⟩
  · have hall : ∀ x ∈ code ++ [(p.endAddr, .endOfCode w.spans)], x.2.NamesFit := by
      rw [List.forall_mem_append]
      exact ⟨hfit.2 h, by simp [Instr.NamesFit]⟩
    exact ⟨Program.disassembleFrom_of_namesFit hall, Program.dumpFrom_of_namesFit hall #[]⟩
  · have hbad : ∃ x ∈ code, ¬x.2.NamesFit := by
      by_contra hno
      obtain ⟨i, hi, hnot⟩ := h
      exact hnot (hfit.1 (by simpa using hno) i hi)
    refine ⟨Program.disassembleFrom_of_not_namesFit hbad hcode _, ?_⟩
    obtain ⟨x, hx, hnot⟩ := hbad
    exact Program.dumpFrom_of_not_namesFit ⟨x, List.mem_append_left _ hx, hnot⟩ #[]

theorem listing_of_finished_named_call :
    let es : List (Event Object) := [.write (.loadLocal ⟨3⟩) none, .write .dup none,
      .write .dup none, .write .dup none, .write (.branchIf ⟨0⟩) none,
      .write (.call { posNamed := 2, names := [⟨ascii "key"⟩] } {}) none, .patch ⟨32⟩ ⟨96⟩]
    (∀ i ∈ written es, i.opcode ≠ .endOfCode) ∧ (∀ i ∈ written es, i.NamesFit) ∧
      ∃ addrs w p, run {} es = .ok (addrs, w) ∧ w.finish = .ok p ∧
        (∃ lines, p.disassemble = .ok lines) ∧ ∃ text, p.dump = .ok text := by
  intro es
  have hkinds : ∀ i ∈ written es, i.opcode ≠ .endOfCode := by decide
  have hfit : ∀ i ∈ written es, i.NamesFit := by
    simp [es, written, Event.written?, Instr.NamesFit, CallArgs.NamesFit]
  have hexists : ∃ addrs w p, run {} es = .ok (addrs, w) ∧ w.finish = .ok p :=
    ⟨_, _, _, rfl, rfl⟩
  obtain ⟨addrs, w, p, hrun, hfinish⟩ := hexists
  exact ⟨hkinds, hfit, addrs, w, p, hrun, hfinish,
    (listing_of_finished hrun hfinish hkinds).2.1 hfit⟩

theorem call_accepted_unlisted :
    let es : List (Event Object) := [.write (.loadLocal ⟨0⟩) none,
      .write (.call { posNamed := 0, names := [⟨ascii "a"⟩] } {}) none]
    ∃ addrs w p, run {} es = .ok (addrs, w) ∧ w.finish = .ok p ∧
      p.disassemble = .error .tooManyNames ∧ p.dump = .error .tooManyNames :=
  ⟨_, _, _, rfl, rfl, rfl, rfl⟩

end Writer

end StackCode
