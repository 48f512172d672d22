import Mathlib
import StackCode.Code.Writer
import StackCode.Proofs.Code.Buffer
import StackCode.Value.Object

/-! Runs of a writer. Writes append an instruction, patches lead a branch elsewhere, and the code
may be moved at any time to a block that holds it; what is then read from the code is the listing
that the same events make of an empty one. No write can meet a block that is too small, since it
asks for room for all that was written before. -/
namespace StackCode

variable {O : Type} [ValueObject O]

/-- The same instruction, leading elsewhere if it is a branch. -/
def Instr.led (o : Offset) (i : Instr O) : Instr O := (i.withOffset? o).getD i

theorem Instr.words_led (o : Offset) (i : Instr O) : (i.led o).words = i.words := by
  cases i <;> rfl

theorem Instr.opcode_led (o : Offset) (i : Instr O) : (i.led o).opcode = i.opcode := by
  cases i <;> rfl

theorem Instr.branchOffset?_led {o : Offset} {i : Instr O} (h : i.opcode.isBranch = true) :
    (i.led o).branchOffset? = some o := by
  cases i with
  | branch | branchIf | branchIfNot => rfl
  | _ => cases h

namespace Writer

open Words

/-- What happens to a writer. To grow is to move the code to a block for so many bytes, which fails
if the code does not fit there. -/
inductive Event (O : Type) [ValueObject O]
  | write (i : Instr O) (span : Option CodeSpan)
  | patch (a target : Addr)
  | grow (target : ℕ)

namespace Event

def apply (w : Writer O) : Event O → Checked (Option Addr × Writer O)
  | write i span => do
    let (a, w) ← w.write i span
    return (some a, w)
  | patch a target => do return (none, ← w.patch a target)
  | grow target => do return (none, { w with code := ← w.code.reserve target })

def listing (code : List (Addr × Instr O)) : Event O → List (Addr × Instr O)
  | write i _ => code ++ [(addrAt (total (code.map Prod.snd)), i)]
  | patch a target =>
    code.map fun x => if x.1 = a then (x.1, x.2.led ⟨target.value - a.value⟩) else x
  | grow _ => code

def written? : Event O → Option (Instr O)
  | write i _ => some i
  | _ => none

def isGrow : Event O → Bool
  | grow _ => true
  | _ => false

def isPatch : Event O → Bool
  | patch _ _ => true
  | _ => false

end Event

variable {w w' : Writer O} {is : List (Instr O)}

theorem write_eq_ok_iff {i : Instr O} {span : Option CodeSpan} {a : Addr} :
    w.write i span = .ok (a, w') ↔ i.pops ≤ w.depth ∧ ∃ code, w.code.emplace i = .ok (a, code) ∧
      w' = { code, spans := span.elim w.spans fun s => w.spans.push (a, s),
             depth := w.depth - i.pops + i.pushes,
             maxDepth := max w.maxDepth (w.depth - i.pops + i.pushes) } := by
  rw [write, Checked.bind_eq_ok_iff]
  constructor
  · rintro ⟨_, hpops, hw⟩
    obtain ⟨⟨b, code⟩, hcode, hw⟩ := Checked.bind_eq_ok_iff.1 hw
    cases hw
    refine ⟨of_decide_eq_true (Checked.require_eq_ok_iff.1 hpops), code, hcode, ?_⟩
    cases span <;> rfl
  · rintro ⟨hpops, code, hcode, rfl⟩
    refine ⟨(), Checked.require_eq_ok_iff.2 (decide_eq_true hpops), ?_⟩
    rw [hcode]
    cases span <;> rfl

theorem write_encodes (h : w.code.Encodes is) {i : Instr O} {span : Option CodeSpan} {a : Addr}
    (hw : w.write i span = .ok (a, w')) : a = addrAt (total is) ∧ w'.code.Encodes (is ++ [i]) := by
  obtain ⟨-, code, hcode, rfl⟩ := write_eq_ok_iff.1 hw
  exact h.emplace hcode

theorem patch_eq_ok_iff {a target : Addr} :
    w.patch a target = .ok w' ↔ ∃ i, w.code.instrAt a = .ok i ∧ i.opcode.isBranch = true ∧
      a.value ≤ target.value ∧
      w' = { w with code := w.code.setInstr a (i.led ⟨target.value - a.value⟩) } := by
  rw [patch, Checked.bind_eq_ok_iff]
  refine exists_congr fun i => and_congr_right fun _ => ?_
  rw [Checked.bind_eq_ok_iff]
  by_cases hle : a.value ≤ target.value
  · rw [Addr.offsetFrom, if_pos hle, Checked.ok_bind, i.isBranch_opcode, Instr.led]
    cases i <;> simp [Instr.withOffset?, Instr.branchOffset?, hle, eq_comm]
  · simp [Addr.offsetFrom, hle]

theorem patch_encodes (h : w.code.Encodes is) {a target : Addr} (hw : w.patch a target = .ok w') :
    ∃ pre i post, is = pre ++ i :: post ∧ a = addrAt (total pre) ∧
      w'.code.Encodes (pre ++ i.led ⟨target.value - a.value⟩ :: post) := by
  obtain ⟨i, hi, -, -, rfl⟩ := patch_eq_ok_iff.1 hw
  obtain ⟨pre, post, rfl, ha, hword⟩ := h.exists_of_instrAt hi
  exact ⟨pre, i, post, rfl, ha, h.setInstr hword (Instr.words_led _ i)⟩

theorem map_fst_placed_led {pre post : List (Instr O)} {i : Instr O} (o : Offset) :
    (placed (pre ++ i.led o :: post)).map Prod.fst = (placed (pre ++ i :: post)).map Prod.fst := by
  rw [placed_split, placed_split, Instr.words_led, List.map_append, List.map_append, List.map_cons,
    List.map_cons]

theorem Event.cases_of_apply {e : Event O} {x : Option Addr} (he : e.apply w = .ok (x, w')) :
    (∃ i span a, e = .write i span ∧ x = some a ∧ w.write i span = .ok (a, w')) ∨
      (∃ a target, e = .patch a target ∧ x = none ∧ w.patch a target = .ok w') ∨
      ∃ target code, e = .grow target ∧ x = none ∧ w.code.reserve target = .ok code ∧
        w' = { w with code } := by
  cases e with
  | write i span =>
    obtain ⟨⟨a, _⟩, hw, he⟩ := Checked.bind_eq_ok_iff.1 he
    cases he
    exact .inl ⟨i, span, a, rfl, rfl, hw⟩
  | patch a target =>
    obtain ⟨_, hw, he⟩ := Checked.bind_eq_ok_iff.1 he
    cases he
    exact .inr (.inl ⟨a, target, rfl, rfl, hw⟩)
  | grow target =>
    obtain ⟨code, hcode, he⟩ := Checked.bind_eq_ok_iff.1 he
    cases he
    exact .inr (.inr ⟨target, code, rfl, rfl, hcode, rfl⟩)

theorem Event.apply_encodes (h : w.code.Encodes is) {e : Event O} {a : Option Addr}
    (he : e.apply w = .ok (a, w')) :
    ∃ is', w'.code.Encodes is' ∧ placed is' = e.listing (placed is) ∧
      (placed is').map Prod.fst = (placed is).map Prod.fst ++ a.toList := by
  obtain ⟨i, span, a, rfl, rfl, hw⟩ | ⟨a, target, rfl, rfl, hw⟩ |
    ⟨target, code, rfl, rfl, hgrown, rfl⟩ := cases_of_apply he
  · obtain ⟨ha, hcode⟩ := write_encodes h hw
    refine ⟨is ++ [i], hcode, ?_, ?_⟩
    · rw [listing, map_snd_placed, placed_append_singleton]
    · rw [placed_append_singleton, List.map_append, ha]
      rfl
  · obtain ⟨pre, i, post, rfl, rfl, hcode⟩ := patch_encodes h hw
    refine ⟨_, hcode, ?_, ?_⟩
    · rw [listing, map_placed (Instr.words_led _ i) h.fits]
    · rw [map_fst_placed_led, Option.toList_none, List.append_nil]
  · exact ⟨is, (h.reserve hgrown).1, rfl, (List.append_nil _).symm⟩

/-- The addresses of the instructions written, and the writer after all events. -/
def run (w : Writer O) : List (Event O) → Checked (List Addr × Writer O)
  | [] => .ok ([], w)
  | e :: es => do
    let (a, w) ← e.apply w
    let (addrs, w) ← w.run es
    return (a.toList ++ addrs, w)

theorem run_cons_eq_ok_iff {e : Event O} {es : List (Event O)} {addrs : List Addr} :
    w.run (e :: es) = .ok (addrs, w') ↔ ∃ x w₁ rest, e.apply w = .ok (x, w₁) ∧
      w₁.run es = .ok (rest, w') ∧ addrs = x.toList ++ rest := by
  rw [run, Checked.bind_eq_ok_iff]
  constructor
  · rintro ⟨⟨x, w₁⟩, he, hrun⟩
    obtain ⟨⟨rest, _⟩, hrest, hrun⟩ := Checked.bind_eq_ok_iff.1 hrun
    cases hrun
    exact ⟨x, w₁, rest, he, hrest, rfl⟩
  · rintro ⟨x, w₁, rest, he, hrest, rfl⟩
    exact ⟨(x, w₁), he, Checked.bind_eq_ok_iff.2 ⟨(rest, w'), hrest, rfl⟩⟩

def listingAfter (code : List (Addr × Instr O)) : List (Event O) → List (Addr × Instr O)
  | [] => code
  | e :: es => listingAfter (e.listing code) es

theorem run_encodes {es : List (Event O)} {addrs : List Addr} (h : w.code.Encodes is)
    (hrun : w.run es = .ok (addrs, w')) :
    ∃ is', w'.code.Encodes is' ∧ placed is' = listingAfter (placed is) es ∧
      (placed is').map Prod.fst = (placed is).map Prod.fst ++ addrs := by
  induction es generalizing w is addrs with
  | nil =>
    cases hrun
    exact ⟨is, h, rfl, (List.append_nil _).symm⟩
  | cons e es ih =>
    obtain ⟨a, w₁, rest, he, hrest, rfl⟩ := run_cons_eq_ok_iff.1 hrun
    obtain ⟨is₁, h₁, hl₁, ha₁⟩ := e.apply_encodes h he
    obtain ⟨is', h', hl', ha'⟩ := ih h₁ hrest
    refine ⟨is', h', ?_, ?_⟩
    · rw [hl', hl₁, listingAfter]
    · rw [ha', ha₁, List.append_assoc]

def written (es : List (Event O)) : List (Instr O) := es.filterMap Event.written?

@[simp] theorem written_write (i : Instr O) (span : Option CodeSpan) (es : List (Event O)) :
    written (.write i span :: es) = i :: written es := rfl

@[simp] theorem written_grow (target : ℕ) (es : List (Event O)) :
    written (.grow target :: es) = written es := rfl

theorem map_snd_listingAfter {es : List (Event O)} (hes : ∀ e ∈ es, e.isPatch = false)
    (code : List (Addr × Instr O)) :
    (listingAfter code es).map Prod.snd = code.map Prod.snd ++ written es := by
  induction es generalizing code with
  | nil => exact (List.append_nil _).symm
  | cons e es ih =>
    have hrest := ih fun e he => hes e (List.mem_cons_of_mem _ he)
    cases e with
    | write i span => simp [listingAfter, hrest, Event.listing]
    | patch a target => cases hes _ List.mem_cons_self
    | grow target => simp [listingAfter, hrest, Event.listing]

theorem run_placed {es : List (Event O)} {addrs : List Addr} (hrun : run {} es = .ok (addrs, w))
    (hes : ∀ e ∈ es, e.isPatch = false) :
    w.code.Encodes (written es) ∧ placed (written es) = addrs.zip (written es) ∧
      addrs.length = (written es).length := by
  obtain ⟨is, hcode, hlisting, haddrs⟩ := run_encodes CodeBuffer.encodes_empty hrun
  obtain rfl : is = written es := by
    rw [← map_snd_placed is, hlisting, map_snd_listingAfter hes]
    rfl
  have hsnd := map_snd_placed (written es)
  refine ⟨hcode, List.zip_of_prod haddrs hsnd, ?_⟩
  have hlength := congrArg List.length haddrs
  rw [List.length_map, ← List.length_map Prod.snd, hsnd] at hlength
  exact hlength.symm

theorem finish_encodes (h : w.code.Encodes is) {p : Program O} (hp : w.finish = .ok p) :
    p.endAddr = addrAt (total is) ∧ p.code.Encodes (is ++ [.endOfCode w.spans]) := by
  obtain ⟨_, hcode, hp⟩ := Checked.bind_eq_ok_iff.1 hp
  cases hp
  exact h.emplace hcode

theorem fault_of_write (h : w.code.Encodes is) {i : Instr O} {span : Option CodeSpan} {f : Fault}
    (hw : w.write i span = .error f) : f = .stackUnderflow ∨ f = .bufferTooLarge := by
  rw [write, Checked.bind_eq_error_iff] at hw
  rcases hw with hpops | ⟨_, -, hw⟩
  · by_cases hle : i.pops ≤ w.depth
    · rw [decide_eq_true hle] at hpops
      cases hpops
    · rw [decide_eq_false hle] at hpops
      cases hpops
      exact .inl rfl
  · rcases h.emplace_ok_or i with ⟨a, code, hcode⟩ | hcode
    · rw [hcode] at hw
      cases hw
    · rw [hcode] at hw
      cases hw
      exact .inr rfl

theorem fault_of_finish (h : w.code.Encodes is) {f : Fault} (hf : w.finish = .error f) :
    f = .bufferTooLarge := by
  rw [finish] at hf
  rcases h.emplace_ok_or (.endOfCode w.spans) with ⟨a, code, hcode⟩ | hcode
  · rw [hcode] at hf
    cases hf
  · rw [hcode] at hf
    cases hf
    rfl

theorem fault_of_grow (h : w.code.Encodes is) {target : ℕ} {f : Fault}
    (hf : w.code.reserve target = .error f) : f = .bufferTooLarge ∨ f = .outsideBlock := by
  rw [h.reserve_eq] at hf
  split_ifs at hf with hroom hmax hheld
  · cases hf
    exact .inr rfl
  · cases hf
    exact .inl rfl

theorem Event.fault_of_apply (h : w.code.Encodes is) {e : Event O} (hpatch : e.isPatch = false)
    {f : Fault} (hf : e.apply w = .error f) :
    f = .stackUnderflow ∨ f = .bufferTooLarge ∨ f = .outsideBlock ∧ e.isGrow = true := by
  cases e with
  | write i span =>
    rw [Event.apply, Checked.bind_eq_error_iff] at hf
    rcases hf with hw | ⟨_, -, hw⟩
    · exact (fault_of_write h hw).imp_right .inl
    · cases hw
  | patch a target => cases hpatch
  | grow target =>
    rw [Event.apply, Checked.bind_eq_error_iff] at hf
    rcases hf with hgrow | ⟨_, -, hgrow⟩
    · exact .inr ((fault_of_grow h hgrow).imp_right fun hf => ⟨hf, rfl⟩)
    · cases hgrow

theorem fault_of_run (h : w.code.Encodes is) {es : List (Event O)}
    (hes : ∀ e ∈ es, e.isPatch = false) {f : Fault} (hrun : w.run es = .error f) :
    f = .stackUnderflow ∨ f = .bufferTooLarge ∨
      f = .outsideBlock ∧ ∃ e ∈ es, e.isGrow = true := by
  induction es generalizing w is with
  | nil => cases hrun
  | cons e es ih =>
    obtain ⟨hhead, htail⟩ := List.forall_mem_cons.1 hes
    rw [run, Checked.bind_eq_error_iff] at hrun
    rcases hrun with he | ⟨⟨x, w₁⟩, he, hrun⟩
    · refine (Event.fault_of_apply h hhead he).imp_right (.imp_right fun ⟨hf, hgrow⟩ => ?_)
      exact ⟨hf, e, List.mem_cons_self, hgrow⟩
    · rw [Checked.bind_eq_error_iff] at hrun
      obtain ⟨is₁, h₁, -⟩ := e.apply_encodes h he
      rcases hrun with hrest | ⟨_, -, hrest⟩
      · refine (ih h₁ htail hrest).imp_right (.imp_right fun ⟨hf, e', he', hgrow⟩ => ?_)
        exact ⟨hf, e', List.mem_cons_of_mem _ he', hgrow⟩
      · cases hrest

/-- A run of writes comes to an end if no contract is broken, also when the code is moved to blocks
that hold it in between. What it wrote is then read back from the finished program, each instruction
at the address that its write returned, and behind it all the end. -/
theorem instrs_of_finished {es : List (Event O)} (hes : ∀ e ∈ es, e.isPatch = false)
    (hkinds : ∀ i ∈ written es, i.opcode ≠ .endOfCode) :
    (∀ f, run {} es = .error f → f = .stackUnderflow ∨ f = .bufferTooLarge ∨
      f = .outsideBlock ∧ ∃ e ∈ es, e.isGrow = true) ∧
    ∀ addrs w, run {} es = .ok (addrs, w) →
      (∀ f, w.finish = .error f → f = .bufferTooLarge) ∧
      ∀ p, w.finish = .ok p →
        let code := addrs.zip (written es) ++ [(p.endAddr, .endOfCode w.spans)]
        p.instrs = .ok code ∧ addrs.length = (written es).length ∧
        code.head?.map (fun x => x.1.value) = some 0 ∧
        code.IsChain (fun x y => y.1.value.toNat = x.1.value.toNat + x.2.size.toNat) ∧
        p.sizeBytes.toNat =
          p.endAddr.value.toNat + (Instr.endOfCode (O := O) w.spans).size.toNat ∧
        code.Pairwise (fun x y => x.1.value < y.1.value) ∧
        (∀ x ∈ code, 8 ∣ x.1.value.toNat) ∧
        code.filter (fun x => x.2.opcode = .endOfCode) = [(p.endAddr, .endOfCode w.spans)] := by
  refine ⟨fun f => fault_of_run CodeBuffer.encodes_empty hes, fun addrs w hrun => ?_⟩
  obtain ⟨hcode, hzip, hlength⟩ := run_placed hrun hes
  refine ⟨fun f => fault_of_finish hcode, fun p hfinish => ?_⟩
  obtain ⟨hend, hp⟩ := finish_encodes hcode hfinish
  have hplaced : placed (written es ++ [.endOfCode w.spans]) =
      addrs.zip (written es) ++ [(p.endAddr, .endOfCode w.spans)] := by
    rw [placed_append_singleton, hzip, hend]
  have hsize : p.sizeBytes.toNat =
      p.endAddr.value.toNat + (Instr.endOfCode (O := O) w.spans).size.toNat := by
    rw [Program.sizeBytes, hp.toNat_sizeBytes, hend, toNat_addrAt hcode.fits, Instr.size,
      Opcode.toNat_size, total_append, Nat.mul_add]
    rfl
  have honly : (addrs.zip (written es)).filter (fun x => x.2.opcode = .endOfCode) = [] := by
    rw [List.filter_eq_nil_iff]
    intro x hx hend
    exact hkinds x.2 (List.of_mem_zip hx).2 (of_decide_eq_true hend)
  simp only
  rw [List.filter_append, honly, ← hplaced]
  exact ⟨hp.instrs, hlength, head_placed _ (by simp), isChain_placed hp.fits, hsize,
    pairwise_placed hp.fits, fun x hx => dvd_of_mem_placed hp.fits hx, rfl⟩

theorem instrs_of_finished_call :
    ∃ (addrs : List Addr) (w : Writer Object) (p : Program Object),
      run {} [.write (.loadLocal ⟨3⟩) none, .grow 1000,
          .write (.call {} {}) (some ⟨2, 5, by decide⟩), .write .pop none] = .ok (addrs, w) ∧
      w.finish = .ok p ∧
      p.instrs = .ok [(⟨0⟩, .loadLocal ⟨3⟩), (⟨8⟩, .call {} {}), (⟨64⟩, .pop),
        (⟨72⟩, .endOfCode #[(⟨8⟩, ⟨2, 5, by decide⟩)])] := by
  have hexists : ∃ addrs w, run ({} : Writer Object) [.write (.loadLocal ⟨3⟩) none, .grow 1000,
      .write (.call {} {}) (some ⟨2, 5, by decide⟩), .write .pop none] = .ok (addrs, w) ∧
      addrs = [⟨0⟩, ⟨8⟩, ⟨64⟩] ∧ w.spans = #[(⟨8⟩, ⟨2, 5, by decide⟩)] ∧
      ∃ p, w.finish = .ok p ∧ p.endAddr = ⟨72⟩ :=
    ⟨_, _, rfl, rfl, rfl, _, rfl, rfl⟩
  obtain ⟨addrs, w, hrun, haddrs, hspans, p, hfinish, hend⟩ := hexists
  have hread := (((instrs_of_finished (by decide) (by decide)).2 addrs w hrun).2 p hfinish).1
  rw [haddrs, hspans, hend] at hread
  exact ⟨addrs, w, p, hrun, hfinish, hread⟩

end Writer

end StackCode
