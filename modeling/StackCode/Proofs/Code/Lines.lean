import Mathlib
import StackCode.Proofs.Code.Listing
import StackCode.Proofs.Code.Rendering

/-! Lines of a listing. There is one for each write, in the order of the writes, and it shows the
argument as the last patch at its address left it. The text with the addresses holds the same lines,
each behind the address that its write returned, and one for the end. -/
namespace StackCode

variable {O : Type} [ValueObject O]

theorem Instr.led_led (o o' : Offset) (i : Instr O) : (i.led o).led o' = i.led o' := by
  cases i <;> rfl

def Instr.Lists (i : Instr O) (line : ByteString) : Prop :=
  ∃ text, i.arg.rendering = .ok text ∧ line = ascii i.opcode.name ++ text

theorem Instr.Lists.line_eq {i : Instr O} {line : ByteString} (h : i.Lists line) :
    i.line = .ok line.toArray := by
  obtain ⟨text, htext, rfl⟩ := h
  rw [Instr.line_eq, i.arg.writes_rendering, htext, Checked.map_ok, List.toArray_appendList]

theorem Instr.exists_lists {i : Instr O} (h : i.NamesFit) : ∃ line, i.Lists line := by
  obtain ⟨out, hout⟩ := Instr.line_of_namesFit h
  rw [Instr.line_eq, i.arg.writes_rendering] at hout
  obtain ⟨text, htext, -⟩ := Checked.map_eq_ok_iff.1 hout
  exact ⟨_, text, htext, rfl⟩

theorem exists_forall₂ {α β : Type*} {r : α → β → Prop} {l : List α} (h : ∀ a ∈ l, ∃ b, r a b) :
    ∃ l', List.Forall₂ r l l' := by
  induction l with
  | nil => exact ⟨[], .nil⟩
  | cons a l ih =>
    rw [List.forall_mem_cons] at h
    obtain ⟨b, hb⟩ := h.1
    obtain ⟨l', hl'⟩ := ih h.2
    exact ⟨b :: l', .cons hb hl'⟩

namespace Program

variable {code : List (Addr × Instr O)} {lines : List ByteString}

def dumpLine (x : Addr × ByteString) : ByteString :=
  decimal x.1.value.toNat ++ ascii ": " ++ x.2 ++ ascii "\n"

theorem disassembleFrom_of_lists (h : List.Forall₂ (fun x line => x.2.Lists line) code lines)
    (hkinds : ∀ x ∈ code, x.2.opcode ≠ .endOfCode) (a : Addr) (spans : SpanTable) :
    disassembleFrom (code ++ [(a, .endOfCode spans)]) = .ok (lines.map List.toArray) := by
  induction h with
  | nil => rfl
  | cons hline _ ih =>
    rw [List.forall_mem_cons] at hkinds
    rw [List.cons_append, disassembleFrom, if_neg hkinds.1, hline.line_eq, Checked.ok_bind,
      ih hkinds.2]
    rfl

theorem lists_endOfCode (spans : SpanTable) :
    (Instr.endOfCode spans : Instr O).Lists (ascii "end spans") :=
  ⟨ascii " spans", rfl, (by decide : ascii "end spans" = ascii "end" ++ ascii " spans")⟩

theorem dumpFrom_of_lists (h : List.Forall₂ (fun x line => x.2.Lists line) code lines)
    (out : Output) (a : Addr) (spans : SpanTable) :
    dumpFrom out (code ++ [(a, .endOfCode spans)]) = .ok (out ++
      ((code.map Prod.fst).zip lines ++ [(a, ascii "end spans")]).flatMap dumpLine) := by
  have hentry : ∀ (out : Output) (b : Addr) (line : ByteString), out ++ decimal b.value.toNat ++
      ascii ": " ++ line.toArray ++ ascii "\n" = out ++ dumpLine (b, line) := fun out b line =>
    Array.toList_inj.1 (by simp [dumpLine])
  induction h generalizing out with
  | nil =>
    rw [List.nil_append, dumpFrom, (lists_endOfCode spans).line_eq, Checked.ok_bind, hentry,
      dumpFrom]
    simp
  | @cons x line code lines hline _ ih =>
    rw [List.cons_append, dumpFrom, hline.line_eq, Checked.ok_bind, hentry, ih,
      Output.append_append]
    rfl

end Program

namespace Writer

open Words

variable {w w' : Writer O} {is : List (Instr O)} {es : List (Event O)} {addrs : List Addr}

def Event.target? (a : Addr) : Event O → Option Addr
  | .patch b target => if b = a then some target else none
  | _ => none

/-- Where the last patch of the branch at `a` leads it. -/
def lastTarget? (es : List (Event O)) (a : Addr) : Option Addr :=
  es.reverse.findSome? (Event.target? a)

def patched (es : List (Event O)) (x : Addr × Instr O) : Addr × Instr O :=
  (x.1, (lastTarget? es x.1).elim x.2 fun target => x.2.led ⟨target.value - x.1.value⟩)

theorem patched_nil : patched ([] : List (Event O)) = id := rfl

theorem lastTarget?_cons (e : Event O) (es : List (Event O)) (a : Addr) :
    lastTarget? (e :: es) a = (lastTarget? es a).or (e.target? a) := by
  rw [lastTarget?, List.reverse_cons, List.findSome?_append, List.findSome?_singleton, lastTarget?]

theorem patched_cons_of_none {e : Event O} {x : Addr × Instr O} (h : e.target? x.1 = none) :
    patched (e :: es) x = patched es x := by
  rw [patched, lastTarget?_cons, h, Option.or_none, patched]

theorem apply_patched {α : Type*} {f : Instr O → α} (hf : ∀ o i, f (i.led o) = f i)
    (es : List (Event O)) (x : Addr × Instr O) : f (patched es x).2 = f x.2 := by
  rw [patched]
  cases lastTarget? es x.1 with
  | none => rfl
  | some target => exact hf _ _

theorem patched_cons_patch (a target : Addr) (x : Addr × Instr O) :
    patched (.patch a target :: es) x = patched es
      (if x.1 = a then (x.1, x.2.led ⟨target.value - a.value⟩) else x) := by
  by_cases hx : x.1 = a
  · subst hx
    rw [if_pos rfl, patched, patched, lastTarget?_cons, Event.target?, if_pos rfl]
    cases lastTarget? es x.1 with
    | none => rfl
    | some last => simp only [Option.some_or, Option.elim_some, Instr.led_led]
  · rw [if_neg hx]
    exact patched_cons_of_none (if_neg (Ne.symm hx))

theorem ne_of_run (h : w.code.Encodes is) (hrun : w.run es = .ok (addrs, w')) {a b : Addr}
    (ha : a ∈ (placed is).map Prod.fst) (hb : b ∈ addrs) : a ≠ b := by
  obtain ⟨is', h', -, haddrs⟩ := run_encodes h hrun
  have hrise : ((placed is').map Prod.fst).Pairwise fun a b => a.value < b.value :=
    List.pairwise_map.2 (pairwise_placed h'.fits)
  rw [haddrs, List.pairwise_append] at hrise
  rintro rfl
  exact UInt32.lt_irrefl _ (hrise.2.2 a ha a hb)

theorem listingAfter_eq (h : w.code.Encodes is) (hrun : w.run es = .ok (addrs, w')) :
    listingAfter (placed is) es =
      (placed is).map (patched es) ++ (addrs.zip (written es)).map (patched es) := by
  -- what the first event writes joins the code before the rest of the run
  induction es generalizing w is addrs with
  | nil =>
    cases hrun
    rw [patched_nil, List.map_id, List.zip_nil_left, List.map_nil, List.append_nil, listingAfter]
  | cons e es ih =>
    obtain ⟨x, w₁, rest, he, hrest, rfl⟩ := run_cons_eq_ok_iff.1 hrun
    obtain ⟨is₁, h₁, hlisting, haddrs⟩ := e.apply_encodes h he
    rw [listingAfter, ← hlisting, ih h₁ hrest]
    obtain ⟨i, span, a, rfl, rfl, hw⟩ | ⟨a, target, rfl, rfl, hw⟩ |
      ⟨target, code, rfl, rfl, hgrown, rfl⟩ := Event.cases_of_apply he
    · obtain ⟨ha, -⟩ := write_encodes h hw
      have hkeep : patched (.write i span :: es) = patched es :=
        funext fun _ => patched_cons_of_none rfl
      rw [hkeep, hlisting, Event.listing, map_snd_placed, ← ha, List.map_append, List.append_assoc]
      rfl
    · have ha : a ∈ (placed is₁).map Prod.fst := by
        obtain ⟨pre, i, post, rfl, rfl, -⟩ := patch_encodes h hw
        rw [haddrs, placed_split]
        simp
      have hlater : ∀ x ∈ rest.zip (written es), patched (.patch a target :: es) x = patched es x :=
        fun x hx => patched_cons_of_none (if_neg (ne_of_run h₁ hrest ha (List.of_mem_zip hx).1))
      rw [hlisting, Event.listing, List.map_map]
      congr 1
      · exact List.map_congr_left fun x _ => (patched_cons_patch a target x).symm
      · exact (List.map_congr_left hlater).symm
    · have hkeep : patched (.grow target :: es) = patched es :=
        funext fun _ => patched_cons_of_none rfl
      rw [hkeep, hlisting]
      rfl

theorem length_of_run (hrun : run {} es = .ok (addrs, w)) : addrs.length = (written es).length := by
  obtain ⟨is, -, hlisting, haddrs⟩ := run_encodes CodeBuffer.encodes_empty hrun
  have hwritten := map_listingAfter Instr.opcode_led (placed []) es
  rw [← hlisting] at hwritten
  have hlength := congrArg List.length hwritten
  rw [List.length_map, ← List.length_map Prod.fst, haddrs] at hlength
  simpa [placed, placesFrom] using hlength

theorem instrs_of_finish_patched {p : Program O} (hrun : run {} es = .ok (addrs, w))
    (hfinish : w.finish = .ok p) :
    p.instrs = .ok ((addrs.zip (written es)).map (patched es) ++
      [(p.endAddr, .endOfCode w.spans)]) := by
  obtain ⟨is, hcode, hlisting, -⟩ := run_encodes CodeBuffer.encodes_empty hrun
  obtain ⟨hend, hp⟩ := finish_encodes hcode hfinish
  have hinstrs : p.instrs = .ok (placed (is ++ [.endOfCode w.spans])) := hp.instrs
  rw [hinstrs, placed_append_singleton, hlisting, listingAfter_eq CodeBuffer.encodes_empty hrun,
    hend]
  rfl

/-- A program lists one line for each write, in the order of the writes: the name of the instruction
and its argument as the last patch left it. With addresses it lists the same lines, each behind the
address that the write returned, and a last one for the end. -/
theorem lines_of_finished {p : Program O} (hrun : run {} es = .ok (addrs, w))
    (hfinish : w.finish = .ok p) (hkinds : ∀ i ∈ written es, i.opcode ≠ .endOfCode)
    (hfit : ∀ i ∈ written es, i.NamesFit) :
    addrs.length = (written es).length ∧ ∃ lines : List ByteString,
      List.Forall₂ (fun x line => (patched es x).2.Lists line) (addrs.zip (written es)) lines ∧
      p.disassemble = .ok (lines.map List.toArray) ∧
      p.dump = .ok ((addrs.zip lines ++ [(p.endAddr, ascii "end spans")]).flatMap
        Program.dumpLine).toArray := by
  have hlength := length_of_run hrun
  have hinstrs := instrs_of_finish_patched hrun hfinish
  have hexists : ∀ x ∈ addrs.zip (written es), ∃ line, (patched es x).2.Lists line := by
    intro x hx
    apply Instr.exists_lists
    rw [apply_patched Instr.namesFit_led]
    exact hfit x.2 (List.of_mem_zip hx).2
  obtain ⟨lines, hlines⟩ := exists_forall₂ hexists
  have hcode : List.Forall₂ (fun x line => x.2.Lists line)
      ((addrs.zip (written es)).map (patched es)) lines :=
    List.forall₂_map_left_iff.2 hlines
  have haddrs : ((addrs.zip (written es)).map (patched es)).map Prod.fst = addrs := by
    rw [List.map_map]
    exact List.map_fst_zip hlength.le
  refine ⟨hlength, lines, hlines, ?_, ?_⟩
  · rw [Program.disassemble, hinstrs, Checked.ok_bind]
    refine Program.disassembleFrom_of_lists hcode ?_ _ _
    rw [List.forall_mem_map]
    intro x hx
    rw [apply_patched Instr.opcode_led]
    exact hkinds x.2 (List.of_mem_zip hx).2
  · rw [Program.dump, hinstrs, Checked.ok_bind, Program.dumpFrom_of_lists hcode, haddrs,
      List.toArray_appendList, List.nil_append]

theorem lines_of_finished_led_twice :
    let es : List (Event Object) := [.write (.loadLocal ⟨3⟩) none, .write (.branchIf ⟨0⟩) none,
      .patch ⟨8⟩ ⟨16⟩, .write (.loadLocal ⟨4⟩) none, .write .dup none,
      .write (.call { posNamed := 1, names := [⟨ascii "key"⟩] } {}) none, .patch ⟨8⟩ ⟨88⟩]
    (∀ i ∈ written es, i.opcode ≠ .endOfCode) ∧ (∀ i ∈ written es, i.NamesFit) ∧
      ∃ addrs w p, run {} es = .ok (addrs, w) ∧ w.finish = .ok p ∧ ∃ lines : List ByteString,
        lines.length = 5 ∧ lines[1]? = some (ascii "if_br +80") ∧
        p.disassemble = .ok (lines.map List.toArray) := by
  intro es
  have hkinds : ∀ i ∈ written es, i.opcode ≠ .endOfCode := by decide
  have hfit : ∀ i ∈ written es, i.NamesFit := by
    simp only [es, written, List.filterMap_cons, Event.written?, List.filterMap_nil,
      List.forall_mem_cons]
    exact ⟨trivial, trivial, trivial, trivial, Nat.le_refl 1, by simp⟩
  have hexists : ∃ addrs w p, run {} es = .ok (addrs, w) ∧ w.finish = .ok p ∧
      addrs = [⟨0⟩, ⟨8⟩, ⟨16⟩, ⟨24⟩, ⟨32⟩] :=
    ⟨_, _, _, rfl, rfl, rfl⟩
  obtain ⟨addrs, w, p, hrun, hfinish, haddrs⟩ := hexists
  obtain ⟨-, lines, hlines, hdisassemble, -⟩ := lines_of_finished hrun hfinish hkinds hfit
  refine ⟨hkinds, hfit, addrs, w, p, hrun, hfinish, lines, ?_, ?_, hdisassemble⟩
  · rw [← hlines.length_eq, haddrs]
    rfl
  · rw [haddrs] at hlines
    cases hlines with
    | cons _ hrest =>
      cases hrest with
      | cons hsecond _ =>
        obtain ⟨text, htext, rfl⟩ := hsecond
        have hled : (Instr.branchIf ⟨80⟩ : Instr Object).arg.rendering = .ok (ascii " +80") := rfl
        cases hled.symm.trans htext
        exact congrArg some (by decide : ascii "if_br" ++ ascii " +80" = ascii "if_br +80")

end Writer

end StackCode
