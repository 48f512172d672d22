import Mathlib
import StackCode.Proofs.Code.Run
import StackCode.Value.Object

/-! Depths of the operand stack, as a writer keeps them and as a replay of the finished program
finds them. A patch leads a branch elsewhere and leaves what it pops and pushes, so the code always
replays to the depths that the writer had when its instructions were written. -/
namespace StackCode

variable {O : Type} [ValueObject O]

theorem Instr.pops_led (o : Offset) (i : Instr O) : (i.led o).pops = i.pops := by
  cases i <;> rfl

theorem Instr.pushes_led (o : Offset) (i : Instr O) : (i.led o).pushes = i.pushes := by
  cases i <;> rfl

namespace Replay

theorem depthsFrom_cons_of_le {depth : UInt32} {i : Instr O} (h : i.pops ≤ depth)
    (is : List (Instr O)) :
    depthsFrom depth (i :: is) =
      .depth (depth - i.pops + i.pushes) :: depthsFrom (depth - i.pops + i.pushes) is := by
  rw [depthsFrom, if_neg (UInt32.not_lt.2 h)]

theorem depthsFrom_append {depth : UInt32} {is : List (Instr O)} {ds : List UInt32}
    (h : depthsFrom depth is = ds.map .depth) (js : List (Instr O)) :
    depthsFrom depth (is ++ js) = ds.map .depth ++ depthsFrom (ds.getLastD depth) js := by
  induction is generalizing depth ds with
  | nil =>
    obtain rfl := List.map_eq_nil_iff.1 h.symm
    rfl
  | cons i is ih =>
    by_cases hpops : depth < i.pops
    · rw [depthsFrom, if_pos hpops] at h
      cases ds with
      | nil => cases h
      | cons d ds => cases h
    · have hle := UInt32.not_lt.1 hpops
      rw [depthsFrom_cons_of_le hle] at h
      cases ds with
      | nil => cases h
      | cons d ds =>
        rw [List.map_cons, List.cons_eq_cons, Replay.depth.injEq] at h
        obtain ⟨rfl, hrest⟩ := h
        rw [List.cons_append, depthsFrom_cons_of_le hle, ih hrest, List.map_cons,
          List.cons_append, List.getLastD_cons]

theorem depthsFrom_led (depth : UInt32) (pre post : List (Instr O)) (o : Offset) (i : Instr O) :
    depthsFrom depth (pre ++ i.led o :: post) = depthsFrom depth (pre ++ i :: post) := by
  induction pre generalizing depth with
  | nil =>
    simp only [List.nil_append, depthsFrom, Instr.pops_led, Instr.pushes_led]
  | cons j pre ih =>
    simp only [List.cons_append, depthsFrom, ih]

end Replay

namespace Writer

open Words

variable {w w' : Writer O} {is : List (Instr O)} {ds : List UInt32}

theorem depth_of_write {i : Instr O} {span : Option CodeSpan} {a : Addr}
    (hw : w.write i span = .ok (a, w')) :
    i.pops ≤ w.depth ∧ w'.depth = w.depth - i.pops + i.pushes ∧
      w'.maxDepth = max w.maxDepth w'.depth := by
  obtain ⟨hpops, code, -, rfl⟩ := write_eq_ok_iff.1 hw
  exact ⟨hpops, rfl, rfl⟩

theorem depth_of_patch {a target : Addr} (hw : w.patch a target = .ok w') :
    w'.depth = w.depth ∧ w'.maxDepth = w.maxDepth := by
  obtain ⟨i, -, -, -, rfl⟩ := patch_eq_ok_iff.1 hw
  exact ⟨rfl, rfl⟩

/-- The code replays to the depths given, of which the writer keeps the last and the greatest. -/
structure Replays (w : Writer O) (is : List (Instr O)) (ds : List UInt32) : Prop where
  code : w.code.Encodes is
  depths : Replay.depthsFrom 0 is = ds.map .depth
  depth_eq : w.depth = ds.getLastD 0
  maxDepth_eq : w.maxDepth = ds.foldl max 0

theorem replays_empty : Replays ({} : Writer O) [] [] :=
  ⟨CodeBuffer.encodes_empty, rfl, rfl, rfl⟩

theorem Replays.write (h : Replays w is ds) {i : Instr O} {span : Option CodeSpan} {a : Addr}
    (hw : w.write i span = .ok (a, w')) : Replays w' (is ++ [i]) (ds ++ [w'.depth]) := by
  obtain ⟨hpops, hdepth, hmax⟩ := depth_of_write hw
  refine ⟨(write_encodes h.code hw).2, ?_, ?_, ?_⟩
  · rw [h.depth_eq] at hpops hdepth
    rw [Replay.depthsFrom_append h.depths, Replay.depthsFrom_cons_of_le hpops, ← hdepth,
      List.map_append]
    rfl
  · rw [List.getLastD_concat]
  · rw [hmax, h.maxDepth_eq, List.foldl_append, List.foldl_cons, List.foldl_nil]

theorem Replays.patch (h : Replays w is ds) {a target : Addr} (hw : w.patch a target = .ok w') :
    ∃ is', Replays w' is' ds := by
  obtain ⟨pre, i, post, rfl, -, hcode⟩ := patch_encodes h.code hw
  obtain ⟨hdepth, hmax⟩ := depth_of_patch hw
  refine ⟨_, hcode, ?_, ?_, ?_⟩
  · rw [Replay.depthsFrom_led, h.depths]
  · rw [hdepth, h.depth_eq]
  · rw [hmax, h.maxDepth_eq]

def afterWrites (w : Writer O) : List (Event O) → Checked (List (Writer O))
  | [] => .ok []
  | e :: es => do
    let (a, w) ← e.apply w
    let later ← w.afterWrites es
    return (a.map fun _ => w).toList ++ later

theorem Replays.apply (h : Replays w is ds) {e : Event O} {a : Option Addr}
    (he : e.apply w = .ok (a, w')) :
    ∃ is', Replays w' is' (ds ++ (a.map fun _ => w'.depth).toList) := by
  obtain ⟨i, span, a, rfl, rfl, hw⟩ | ⟨a, target, rfl, rfl, hw⟩ |
    ⟨target, code, rfl, rfl, hgrown, rfl⟩ := Event.cases_of_apply he
  · exact ⟨_, h.write hw⟩
  · rw [Option.map_none, Option.toList_none, List.append_nil]
    exact h.patch hw
  · rw [Option.map_none, Option.toList_none, List.append_nil]
    exact ⟨is, (h.code.reserve hgrown).1, h.depths, h.depth_eq, h.maxDepth_eq⟩

theorem Replays.run {es : List (Event O)} {addrs : List Addr} (h : Replays w is ds)
    (hrun : w.run es = .ok (addrs, w')) :
    ∃ ws is', w.afterWrites es = .ok ws ∧ ws.length = addrs.length ∧
      Replays w' is' (ds ++ ws.map Writer.depth) := by
  induction es generalizing w is ds addrs with
  | nil =>
    cases hrun
    exact ⟨[], is, rfl, rfl, by rwa [List.map_nil, List.append_nil]⟩
  | cons e es ih =>
    obtain ⟨a, w₁, rest, he, hrest, rfl⟩ := run_cons_eq_ok_iff.1 hrun
    obtain ⟨is₁, h₁⟩ := h.apply he
    obtain ⟨ws, is', hws, hlength, h'⟩ := ih h₁ hrest
    refine ⟨(a.map fun _ => w₁).toList ++ ws, is', ?_, ?_, ?_⟩
    · simp only [afterWrites, he, Checked.ok_bind, hws, Checked.pure_eq_ok]
    · cases a <;> simp [hlength]
    · rw [List.append_assoc] at h'
      cases a <;> exact h'

theorem Replays.finish (h : Replays w is ds) {p : Program O} (hp : w.finish = .ok p) :
    p.replay = .ok ((ds ++ [w.depth]).map .depth) ∧ p.maxDepth = w.maxDepth := by
  have hcode := (finish_encodes h.code hp).2
  obtain ⟨_, -, hp⟩ := Checked.bind_eq_ok_iff.1 hp
  cases hp
  refine ⟨?_, rfl⟩
  have hend : Replay.depthsFrom w.depth [(.endOfCode w.spans : Instr O)] = [.depth w.depth] := by
    rw [Replay.depthsFrom_cons_of_le (UInt32.zero_le)]
    change [Replay.depth (w.depth - 0 + 0)] = _
    rw [UInt32.sub_zero, UInt32.add_zero]
  rw [Program.replay, Program.instrs, hcode.instrs, Checked.ok_bind, map_snd_placed,
    Replay.depthsFrom_append h.depths, ← h.depth_eq, hend, List.map_append, Checked.pure_eq_ok]
  rfl

theorem Replays.max_depth (h : Replays w is ds) : max w.maxDepth w.depth = w.maxDepth := by
  rw [h.maxDepth_eq, h.depth_eq]
  rcases List.eq_nil_or_concat ds with rfl | ⟨ds, d, rfl⟩
  · rfl
  · rw [List.concat_eq_append, List.getLastD_concat, List.foldl_append, List.foldl_cons,
      List.foldl_nil]
    apply UInt32.toNat_inj.1
    simp only [UInt32.toNat_max]
    omega

/-- A finished program replays to the depths that the writer had after each write, and to the last
of them again after the end; it never pops more than there is. -/
theorem replay_of_finished {es : List (Event O)} {addrs : List Addr} {p : Program O}
    (hrun : run {} es = .ok (addrs, w)) (hfinish : w.finish = .ok p) :
    ∃ ws, afterWrites {} es = .ok ws ∧ ws.length = addrs.length ∧
      p.replay = .ok ((ws.map Writer.depth ++ [w.depth]).map .depth) ∧
      p.maxDepth = (ws.map Writer.depth ++ [w.depth]).foldl max 0 := by
  obtain ⟨ws, is, hws, hlength, h⟩ := replays_empty.run hrun
  rw [List.nil_append] at h
  obtain ⟨hreplay, hmax⟩ := h.finish hfinish
  refine ⟨ws, hws, hlength, hreplay, ?_⟩
  rw [hmax, List.foldl_append, ← h.maxDepth_eq, List.foldl_cons, List.foldl_nil, h.max_depth]

theorem replay_of_finished_branch :
    let es : List (Event Object) := [.write (.loadLocal ⟨3⟩) none, .write .dup none,
      .write (.branchIf ⟨0⟩) none, .grow 1000, .write (.call {} {}) none, .patch ⟨16⟩ ⟨80⟩]
    ∃ addrs w p, run {} es = .ok (addrs, w) ∧ w.finish = .ok p ∧
      p.replay = .ok [.depth 1, .depth 2, .depth 1, .depth 1, .depth 1] ∧ p.maxDepth = 2 := by
  intro es
  have hexists : ∃ addrs w p ws, run {} es = .ok (addrs, w) ∧ w.finish = .ok p ∧
      w.depth = 1 ∧ afterWrites {} es = .ok ws ∧ ws.map Writer.depth = [1, 2, 1, 1] :=
    ⟨_, _, _, _, rfl, rfl, rfl, rfl, rfl⟩
  obtain ⟨addrs, w, p, ws, hrun, hfinish, hdepth, hws, hdepths⟩ := hexists
  obtain ⟨ws', hws', -, hreplay, hmax⟩ := replay_of_finished hrun hfinish
  obtain rfl := Except.ok.inj (hws.symm.trans hws')
  rw [hdepths, hdepth] at hreplay hmax
  exact ⟨addrs, w, p, hrun, hfinish, hreplay, hmax⟩

end Writer

end StackCode
