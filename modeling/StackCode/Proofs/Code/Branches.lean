import Mathlib
import StackCode.Proofs.Code.Run
import StackCode.Value.Object

/-! Branches led to their targets. A patch is an edit in place: it changes the offset of one branch
and nothing else. What stands at an address is kept by writes, by growth and by patches of other
branches, so the branch leads to its target until it is patched again, and in the finished program
too. -/
namespace StackCode

variable {O : Type} [ValueObject O] {a target : Addr}

theorem Addr.add_sub_of_le (h : a.value ≤ target.value) :
    a + (⟨target.value - a.value⟩ : Offset) = target :=
  add_offsetFrom (if_pos h)

theorem Opcode.isBranch_iff {o : Opcode} :
    o.isBranch = true ↔ o = .branch ∨ o = .branchIf ∨ o = .branchIfNot := by
  cases o <;> decide

namespace CodeBuffer

variable {b : CodeBuffer O} {i : Instr O}

def LeadsTo (b : CodeBuffer O) (a target : Addr) : Prop :=
  ∃ i o, b.instrAt a = .ok i ∧ i.branchOffset? = some o ∧ a + o = target

theorem sizeBytes_setInstr (b : CodeBuffer O) (a : Addr) (i : Instr O) :
    (b.setInstr a i).sizeBytes = b.sizeBytes := by
  rw [sizeBytes, setInstr, Array.size_setIfInBounds, sizeBytes]

theorem instrAt_of_not_aligned (h : a.value.toNat % Opcode.wordBytes ≠ 0) :
    b.instrAt a = Checked.require .addressOutOfRange (a.value < b.sizeBytes) >>= fun _ =>
      .error .insideInstruction := by
  rw [instrAt]
  refine congrArg _ (funext fun _ => ?_)
  split
  · exact if_neg h
  · rfl

theorem aligned_of_instrAt (h : b.instrAt a = .ok i) : a.value.toNat % Opcode.wordBytes = 0 := by
  by_contra hne
  rw [instrAt_of_not_aligned hne] at h
  obtain ⟨_, -, h⟩ := Checked.bind_eq_ok_iff.1 h
  cases h

theorem instrAt_setInstr_of_ne (h : b.instrAt a = .ok i) (j : Instr O) {c : Addr} (hc : c ≠ a) :
    (b.setInstr a j).instrAt c = b.instrAt c := by
  -- an address inside a word of `a` shares it, but nothing is read there before or after
  by_cases hmod : c.value.toNat % Opcode.wordBytes = 0
  · have hword : wordAt a ≠ wordAt c := by
      intro hword
      have hn : c.value.toNat = a.value.toNat := by
        rw [← Nat.div_add_mod c.value.toNat Opcode.wordBytes, hmod,
          ← Nat.div_add_mod a.value.toNat Opcode.wordBytes, aligned_of_instrAt h]
        exact congrArg (Opcode.wordBytes * · + 0) hword.symm
      exact hc (congrArg Addr.mk (UInt32.toNat_inj.1 hn))
    rw [instrAt, instrAt, sizeBytes_setInstr, setInstr, Array.getElem?_setIfInBounds_ne hword]
  · rw [instrAt_of_not_aligned hmod, instrAt_of_not_aligned hmod, sizeBytes_setInstr]

end CodeBuffer

theorem Program.branchTarget?_of_leadsTo {p : Program O} (h : p.code.LeadsTo a target) :
    p.branchTarget? a = .ok (some target) := by
  obtain ⟨i, o, hi, ho, rfl⟩ := h
  rw [branchTarget?, instrAt, hi, Checked.ok_bind, ho]
  rfl

namespace Writer

open Words

variable {w w' : Writer O} {is : List (Instr O)} {es : List (Event O)} {addrs : List Addr}

/-- What leading the branch at `a` to `target` does to a writer: of all that it holds, the offset
of this branch is changed. -/
structure Led (w w' : Writer O) (a target : Addr) : Prop where
  instr : ∃ i, w.code.instrAt a = .ok i ∧
    w'.code.instrAt a = .ok (i.led ⟨target.value - a.value⟩) ∧
    (i.led ⟨target.value - a.value⟩).opcode = i.opcode
  leadsTo : w'.code.LeadsTo a target
  others : ∀ c ≠ a, w'.code.instrAt c = w.code.instrAt c
  instrs : ∀ code, w.code.instrs = .ok code → w'.code.instrs =
    .ok (code.map fun x => if x.1 = a then (x.1, x.2.led ⟨target.value - a.value⟩) else x)
  ip : w'.ip = w.ip
  spans : w'.spans = w.spans
  depth : w'.depth = w.depth
  maxDepth : w'.maxDepth = w.maxDepth

theorem led_of_patch (h : w.code.Encodes is) (hw : w.patch a target = .ok w') :
    Led w w' a target := by
  obtain ⟨i, hi, hbranch, hle, rfl⟩ := patch_eq_ok_iff.1 hw
  obtain ⟨pre, post, rfl, rfl, hword⟩ := h.exists_of_instrAt hi
  have hcode := h.setInstr hword (Instr.words_led ⟨target.value - (addrAt (total pre)).value⟩ i)
  refine ⟨⟨i, hi, hcode.instrAt, Instr.opcode_led _ i⟩, ?_, ?_, ?_, ?_, rfl, rfl, rfl⟩
  · exact ⟨_, _, hcode.instrAt, Instr.branchOffset?_led hbranch, Addr.add_sub_of_le hle⟩
  · exact fun c hc => CodeBuffer.instrAt_setInstr_of_ne hi _ hc
  · intro code hinstrs
    rw [h.instrs] at hinstrs
    cases hinstrs
    rw [hcode.instrs, map_placed (Instr.words_led _ i) h.fits]
  · exact congrArg Addr.mk (CodeBuffer.sizeBytes_setInstr _ _ _)

def Event.patches (a : Addr) : Event O → Bool
  | .patch b _ => b = a
  | _ => false

theorem Event.mem_listing {e : Event O} (he : e.patches a = false) {code : List (Addr × Instr O)}
    {i : Instr O} (h : (a, i) ∈ code) : (a, i) ∈ e.listing code := by
  cases e with
  | write j span => exact List.mem_append_left _ h
  | patch b target => exact List.mem_map.2 ⟨(a, i), h, if_neg (Ne.symm (of_decide_eq_false he))⟩
  | grow target => exact h

theorem mem_listingAfter (hes : ∀ e ∈ es, e.patches a = false) {code : List (Addr × Instr O)}
    {i : Instr O} (h : (a, i) ∈ code) : (a, i) ∈ listingAfter code es := by
  induction es generalizing code with
  | nil => exact h
  | cons e es ih =>
    rw [List.forall_mem_cons] at hes
    exact ih hes.2 (Event.mem_listing hes.1 h)

theorem leadsTo_of_run (h : w.code.Encodes is) (hlead : w.code.LeadsTo a target)
    (hrun : w.run es = .ok (addrs, w')) (hes : ∀ e ∈ es, e.patches a = false) :
    w'.code.LeadsTo a target := by
  obtain ⟨i, o, hi, ho, ha⟩ := hlead
  obtain ⟨is', h', hlisting, -⟩ := run_encodes h hrun
  refine ⟨i, o, h'.instrAt_eq_ok_iff.2 ?_, ho, ha⟩
  rw [hlisting]
  exact mem_listingAfter hes (h.instrAt_eq_ok_iff.1 hi)

theorem leadsTo_of_finish (h : w.code.Encodes is) (hlead : w.code.LeadsTo a target)
    {p : Program O} (hfinish : w.finish = .ok p) : p.code.LeadsTo a target := by
  obtain ⟨i, o, hi, ho, ha⟩ := hlead
  refine ⟨i, o, (finish_encodes h hfinish).2.instrAt_eq_ok_iff.2 ?_, ho, ha⟩
  rw [placed_append_singleton]
  exact List.mem_append_left _ (h.instrAt_eq_ok_iff.1 hi)

theorem ip_eq (h : w.code.Encodes is) : w.ip = addrAt (total is) := h.sizeBytes_eq

theorem ip_of_apply (h : w.code.Encodes is) {e : Event O} {x : Option Addr}
    (he : e.apply w = .ok (x, w')) : x.getD w'.ip = w.ip := by
  obtain ⟨i, span, b, rfl, rfl, hw⟩ | ⟨b, target, rfl, rfl, hw⟩ |
    ⟨target, code, rfl, rfl, hgrown, rfl⟩ := Event.cases_of_apply he
  · rw [ip_eq h]
    exact (write_encodes h hw).1
  · exact (led_of_patch h hw).ip
  · rw [ip_eq h]
    exact (h.reserve hgrown).1.sizeBytes_eq

theorem ip_of_run (h : w.code.Encodes is) (hrun : w.run es = .ok (addrs, w')) :
    addrs.head?.getD w'.ip = w.ip := by
  induction es generalizing w is addrs with
  | nil =>
    cases hrun
    rfl
  | cons e es ih =>
    obtain ⟨x, w₁, rest, he, hrest, rfl⟩ := run_cons_eq_ok_iff.1 hrun
    obtain ⟨is₁, h₁, -⟩ := e.apply_encodes h he
    have hip := ip_of_apply h he
    cases x with
    | some b => exact hip
    | none => exact (ih h₁ hrest).trans hip

theorem endAddr_of_finish (h : w.code.Encodes is) {p : Program O} (hfinish : w.finish = .ok p) :
    p.endAddr = w.ip := by
  rw [ip_eq h, (finish_encodes h hfinish).1]

/-- At an address that a write returned, a patch succeeds just if a branch stands there and the
target does not lie behind it. It changes the offset of this branch and nothing else, and until the
next patch of the branch it leads to the target: after any writes, patches of others and growth,
and in the finished program. If the target was the address of the next instruction, this is the
next one written, or the end. -/
theorem patch_of_run (hrun : run {} es = .ok (addrs, w)) (ha : a ∈ addrs) (target : Addr) :
    ∃ i, w.code.instrAt a = .ok i ∧
      ((∃ w', w.patch a target = .ok w') ↔
        (i.opcode = .branch ∨ i.opcode = .branchIf ∨ i.opcode = .branchIfNot) ∧
          a.value ≤ target.value) ∧
      ∀ w', w.patch a target = .ok w' → Led w w' a target ∧
        ∀ es' later w'', (∀ e ∈ es', e.patches a = false) → w'.run es' = .ok (later, w'') →
          w''.code.LeadsTo a target ∧ ∀ p, w''.finish = .ok p →
            p.code.LeadsTo a target ∧ p.branchTarget? a = .ok (some target) ∧
            (target = w.ip → target = later.head?.getD p.endAddr) := by
  obtain ⟨is, hcode, -, haddrs⟩ := run_encodes CodeBuffer.encodes_empty hrun
  obtain ⟨⟨_, i⟩, hmem, rfl⟩ : ∃ x ∈ placed is, x.1 = a := by
    rw [← List.mem_map, haddrs]
    exact List.mem_append_right _ ha
  have hi := hcode.instrAt_eq_ok_iff.2 hmem
  refine ⟨i, hi, ?_, ?_⟩
  · rw [← Opcode.isBranch_iff]
    constructor
    · rintro ⟨w', hw⟩
      obtain ⟨j, hj, hbranch, hle, -⟩ := patch_eq_ok_iff.1 hw
      cases hi.symm.trans hj
      exact ⟨hbranch, hle⟩
    · rintro ⟨hbranch, hle⟩
      exact ⟨_, patch_eq_ok_iff.2 ⟨i, hi, hbranch, hle, rfl⟩⟩
  · intro w' hw
    have hled := led_of_patch hcode hw
    obtain ⟨_, _, _, -, -, hcode'⟩ := patch_encodes hcode hw
    refine ⟨hled, fun es' later w'' hes hrun' => ?_⟩
    have hlead := leadsTo_of_run hcode' hled.leadsTo hrun' hes
    obtain ⟨is'', hcode'', -⟩ := run_encodes hcode' hrun'
    refine ⟨hlead, fun p hfinish => ?_⟩
    have hend := leadsTo_of_finish hcode'' hlead hfinish
    refine ⟨hend, Program.branchTarget?_of_leadsTo hend, ?_⟩
    rintro rfl
    rw [endAddr_of_finish hcode'' hfinish, ip_of_run hcode' hrun', hled.ip]

theorem patch_of_run_grown :
    let es : List (Event Object) := [.write (.branch ⟨0⟩) none]
    let es' : List (Event Object) := [.grow 1000, .write (.loadLocal ⟨3⟩) none, .write .dup none]
    (⟨0⟩ : Addr) ∈ [(⟨0⟩ : Addr)] ∧ (∀ e ∈ es', e.patches ⟨0⟩ = false) ∧
      ∃ w w' w'' p, run {} es = .ok ([⟨0⟩], w) ∧ w.patch ⟨0⟩ w.ip = .ok w' ∧
        Led w w' ⟨0⟩ ⟨8⟩ ∧ w'.run es' = .ok ([⟨8⟩, ⟨16⟩], w'') ∧ w''.finish = .ok p ∧
        p.branchTarget? ⟨0⟩ = .ok (some ⟨8⟩) := by
  intro es es'
  have hmem : (⟨0⟩ : Addr) ∈ [(⟨0⟩ : Addr)] := by decide
  have hes : ∀ e ∈ es', e.patches ⟨0⟩ = false := by decide
  have hexists : ∃ w w' w'' p, run {} es = .ok ([⟨0⟩], w) ∧ w.patch ⟨0⟩ w.ip = .ok w' ∧
      w.ip = ⟨8⟩ ∧ w'.run es' = .ok ([⟨8⟩, ⟨16⟩], w'') ∧ w''.finish = .ok p :=
    ⟨_, _, _, _, rfl, rfl, rfl, rfl, rfl⟩
  obtain ⟨w, w', w'', p, hrun, hpatch, hip, hrun', hfinish⟩ := hexists
  obtain ⟨i, -, -, hafter⟩ := patch_of_run hrun hmem w.ip
  obtain ⟨hled, hlater⟩ := hafter w' hpatch
  have hend := ((hlater es' _ w'' hes hrun').2 p hfinish).2.1
  rw [hip] at hled hend
  exact ⟨hmem, hes, w, w', w'', p, hrun, hpatch, hled, hrun', hfinish, hend⟩

end Writer

end StackCode
