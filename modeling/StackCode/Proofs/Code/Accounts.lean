import Mathlib
import StackCode.Proofs.Code.Depth
import StackCode.Proofs.Code.Leaves

/-! The depths of a writer beside exact ones. A writer counts in 32 bits, and a call that takes
almost as many values as can be counted, or a sequence unpacked into that many, carries a sum
around. Until then the depths are exact, and an instruction that pops too much is refused. -/
namespace StackCode

variable {O : Type} [ValueObject O]

def CallArgs.cells (c : CallArgs) : ℕ := c.posNamed.toNat + c.args.toNat + c.kwargs.toNat

theorem CallArgs.toNat_stackCells (c : CallArgs) : c.stackCells.toNat = c.cells % 2 ^ 32 := by
  have hbit : ∀ b : Bool, b.toUInt32.toNat = b.toNat := by decide
  rw [stackCells, UInt32.toNat_add, UInt32.toNat_add, Nat.mod_add_mod, hbit, hbit, cells]

namespace Leaf

def cellsPopped : Leaf O → ℕ
  | call c => c.cells
  | pops count => count.toNat
  | popsOne => 1
  | popsIf given => given.toNat
  | _ => 0

def cellsPushed : Leaf O → ℕ
  | pushes count => count.toNat
  | _ => 0

theorem toNat_popCount (l : Leaf O) : l.popCount.toNat = l.cellsPopped % 2 ^ 32 := by
  cases l with
  | call c => exact c.toNat_stackCells
  | pops count => exact (Nat.mod_eq_of_lt count.toNat_lt).symm
  | popsIf given => cases given <;> rfl
  | _ => rfl

theorem toNat_pushCount (l : Leaf O) : l.pushCount.toNat = l.cellsPushed % 2 ^ 32 := by
  cases l with
  | pushes count => exact (Nat.mod_eq_of_lt count.toNat_lt).symm
  | _ => rfl

end Leaf

namespace Instr

def cellsPopped (i : Instr O) : ℕ :=
  i.opcode.pops.toNat + (i.arg.leaves.map Leaf.cellsPopped).sum

def cellsPushed (i : Instr O) : ℕ :=
  i.opcode.pushes.toNat + (i.arg.leaves.map Leaf.cellsPushed).sum

def depthAfter (depth : ℤ) (i : Instr O) : ℤ := depth - i.cellsPopped + i.cellsPushed

theorem toNat_sum_map {count : Leaf O → UInt32} {cells : Leaf O → ℕ}
    (h : ∀ l, (count l).toNat = cells l % 2 ^ 32) (ls : List (Leaf O)) :
    (ls.map count).sum.toNat = (ls.map cells).sum % 2 ^ 32 := by
  have hmap : (ls.map count).map UInt32.toNat = (ls.map cells).map (· % 2 ^ 32) := by
    rw [List.map_map, List.map_map]
    exact List.map_congr_left fun l _ => h l
  rw [toNat_sum, hmap, ← List.sum_nat_mod]

theorem toNat_pops (i : Instr O) : i.pops.toNat = i.cellsPopped % 2 ^ 32 := by
  rw [pops, UInt32.toNat_add, Arg.popCount_eq_sum, toNat_sum_map Leaf.toNat_popCount,
    Nat.add_mod_mod, cellsPopped]

theorem toNat_pushes (i : Instr O) : i.pushes.toNat = i.cellsPushed % 2 ^ 32 := by
  rw [pushes, UInt32.toNat_add, Arg.pushCount_eq_sum, toNat_sum_map Leaf.toNat_pushCount,
    Nat.add_mod_mod, cellsPushed]

end Instr

def exactFrom (depth greatest : ℤ) : List (Instr O) → List (ℤ × ℤ)
  | [] => []
  | i :: is =>
    (i.depthAfter depth, max greatest (i.depthAfter depth)) ::
      exactFrom (i.depthAfter depth) (max greatest (i.depthAfter depth)) is

/-- No instruction pops more than there is. -/
def Covered (depth : ℤ) : List (Instr O) → Prop
  | [] => True
  | i :: is => i.cellsPopped ≤ depth ∧ Covered (i.depthAfter depth) is

/-- No instruction pops `2 ^ 32` cells, and no depth comes to so many. -/
def Fits (depth : ℤ) : List (Instr O) → Prop
  | [] => True
  | i :: is => i.cellsPopped < 2 ^ 32 ∧ i.depthAfter depth < 2 ^ 32 ∧ Fits (i.depthAfter depth) is

namespace Writer

variable {w w' : Writer O} {depth maxDepth : UInt32} {is : List (Instr O)} {ws : List (Writer O)}

def account (w : Writer O) : ℤ × ℤ := (w.depth.toNat, w.maxDepth.toNat)

/-- Each writer has charged the instruction beside it to the accounts of the one before. -/
inductive Charged : UInt32 → UInt32 → List (Instr O) → List (Writer O) → Prop
  | nil {depth maxDepth : UInt32} : Charged depth maxDepth [] []
  | cons {depth maxDepth : UInt32} {i : Instr O} {is : List (Instr O)} {w : Writer O}
      {ws : List (Writer O)} (hpops : i.pops ≤ depth)
      (hdepth : w.depth = depth - i.pops + i.pushes) (hmax : w.maxDepth = max maxDepth w.depth)
      (rest : Charged w.depth w.maxDepth is ws) : Charged depth maxDepth (i :: is) (w :: ws)

theorem charged_of_run {es : List (Event O)} {addrs : List Addr}
    (hrun : w.run es = .ok (addrs, w')) :
    ∃ ws, w.afterWrites es = .ok ws ∧ Charged w.depth w.maxDepth (written es) ws ∧
      (ws.map Writer.depth).getLastD w.depth = w'.depth := by
  induction es generalizing w addrs with
  | nil =>
    cases hrun
    exact ⟨[], rfl, .nil, rfl⟩
  | cons e es ih =>
    obtain ⟨a, w₁, rest, he, hrest, rfl⟩ := run_cons_eq_ok_iff.1 hrun
    obtain ⟨ws, hws, hcharged, hlast⟩ := ih hrest
    have hafter : w.afterWrites (e :: es) = .ok ((a.map fun _ => w₁).toList ++ ws) := by
      simp only [afterWrites, he, Checked.ok_bind, hws, Checked.pure_eq_ok]
    refine ⟨_, hafter, ?_⟩
    obtain ⟨i, span, a, rfl, rfl, hw⟩ | ⟨a, target, rfl, rfl, hw⟩ |
      ⟨target, code, rfl, rfl, -, rfl⟩ := Event.cases_of_apply he
    · obtain ⟨hpops, hdepth, hmax⟩ := depth_of_write hw
      refine ⟨.cons hpops hdepth hmax hcharged, ?_⟩
      rw [← hlast]
      exact List.getLastD_cons
    · obtain ⟨hdepth, hmax⟩ := depth_of_patch hw
      rw [hdepth, hmax] at hcharged
      rw [hdepth] at hlast
      exact ⟨hcharged, hlast⟩
    · exact ⟨hcharged, hlast⟩

theorem depth_modEq {i : Instr O} (hpops : i.pops ≤ depth) {d : ℤ}
    (hd : (depth.toNat : ℤ) ≡ d [ZMOD 2 ^ 32]) :
    ((depth - i.pops + i.pushes).toNat : ℤ) ≡ i.depthAfter d [ZMOD 2 ^ 32] := by
  have hle := UInt32.le_iff_toNat_le.1 hpops
  have hsum : (depth - i.pops + i.pushes).toNat =
      (depth.toNat - i.pops.toNat + i.pushes.toNat) % 2 ^ 32 := by
    rw [UInt32.toNat_add, UInt32.toNat_sub_of_le _ _ hpops]
  rw [i.toNat_pops] at hle
  rw [hsum, i.toNat_pops, i.toNat_pushes]
  simp only [Int.ModEq, Instr.depthAfter] at hd ⊢
  omega

theorem Charged.modEq (h : Charged depth maxDepth is ws) {d m : ℤ}
    (hd : (depth.toNat : ℤ) ≡ d [ZMOD 2 ^ 32]) :
    List.Forall₂ (fun w x => (w.depth.toNat : ℤ) ≡ x.1 [ZMOD 2 ^ 32]) ws (exactFrom d m is) := by
  induction h generalizing d m with
  | nil => exact .nil
  | cons hpops hdepth hmax rest ih =>
    have hafter := depth_modEq hpops hd
    rw [← hdepth] at hafter
    exact .cons hafter (ih hafter)

section Step

variable {i : Instr O} (hpops : i.pops ≤ depth) (hcount : i.cellsPopped < 2 ^ 32)
include hpops hcount

theorem cellsPopped_le : (i.cellsPopped : ℤ) ≤ depth.toNat := by
  have hle := UInt32.le_iff_toNat_le.1 hpops
  rw [i.toNat_pops, Nat.mod_eq_of_lt hcount] at hle
  exact_mod_cast hle

theorem toNat_depth_eq (hafter : i.depthAfter depth.toNat < 2 ^ 32) :
    ((depth - i.pops + i.pushes).toNat : ℤ) = i.depthAfter depth.toNat := by
  have hle := cellsPopped_le hpops hcount
  have hmod := depth_modEq hpops (Int.ModEq.refl depth.toNat)
  have hlt := (depth - i.pops + i.pushes).toNat_lt
  simp only [Int.ModEq, Instr.depthAfter] at hmod hafter ⊢
  omega

end Step

theorem Charged.exact_of_fits (h : Charged depth maxDepth is ws) (hfits : Fits depth.toNat is) :
    Covered depth.toNat is ∧ ws.map account = exactFrom depth.toNat maxDepth.toNat is := by
  induction h with
  | nil => exact ⟨trivial, rfl⟩
  | @cons depth maxDepth i is w ws hpops hdepth hmax rest ih =>
    obtain ⟨hcount, hafter, hrest⟩ := hfits
    have hexact := toNat_depth_eq hpops hcount hafter
    rw [← hdepth] at hexact
    have hgreatest : (w.maxDepth.toNat : ℤ) =
        max (maxDepth.toNat : ℤ) (i.depthAfter depth.toNat) := by
      rw [hmax, UInt32.toNat_max, Nat.cast_max, hexact]
    rw [← hexact] at hrest
    obtain ⟨hcovered, hmap⟩ := ih hrest
    rw [hexact] at hcovered
    refine ⟨⟨cellsPopped_le hpops hcount, hcovered⟩, ?_⟩
    rw [List.map_cons, hmap, exactFrom, account, ← hgreatest, ← hexact]

theorem Charged.last_of_fits (h : Charged depth maxDepth is ws) (hfits : Fits depth.toNat is) :
    (((ws.map Writer.depth).getLastD depth).toNat : ℤ) = is.foldl Instr.depthAfter depth.toNat := by
  induction h with
  | nil => rfl
  | cons hpops hdepth hmax rest ih =>
    obtain ⟨hcount, hafter, hrest⟩ := hfits
    have hexact := toNat_depth_eq hpops hcount hafter
    rw [← hdepth] at hexact
    rw [← hexact] at hrest
    rw [List.map_cons, List.getLastD_cons, List.foldl_cons, ← hexact]
    exact ih hrest

theorem fits_of_exact {d m : ℤ} (hd : d < 2 ^ 32) (hcovered : Covered d is)
    (hmap : ws.map account = exactFrom d m is) : Fits d is := by
  induction is generalizing d m ws with
  | nil => trivial
  | cons i is ih =>
    cases ws with
    | nil => cases hmap
    | cons w ws =>
      rw [List.map_cons, exactFrom, List.cons_eq_cons] at hmap
      obtain ⟨hhead, hrest⟩ := hmap
      have hdepth : (w.depth.toNat : ℤ) = i.depthAfter d := congrArg Prod.fst hhead
      have hlt := w.depth.toNat_lt
      have hcount := hcovered.1
      exact ⟨by omega, by omega, ih (by omega) hcovered.2 hrest⟩

theorem write_refused {i : Instr O} (span : Option CodeSpan) (hcount : i.cellsPopped < 2 ^ 32)
    (hdepth : w.depth.toNat < i.cellsPopped) : w.write i span = .error .stackUnderflow := by
  have hpops : ¬i.pops ≤ w.depth := by
    rw [UInt32.le_iff_toNat_le, i.toNat_pops, Nat.mod_eq_of_lt hcount]
    omega
  rw [write, decide_eq_false hpops]
  rfl

/-- The depths of a run are exact modulo `2 ^ 32`. They are exact, and every instruction is covered
by what was there, just if neither a count nor a depth comes to `2 ^ 32`; and then an instruction
that pops more than there is, but still less than `2 ^ 32` cells, is refused. -/
theorem accounts_exact_iff_fits {es : List (Event O)} {addrs : List Addr}
    (hrun : run {} es = .ok (addrs, w)) :
    ∃ ws, afterWrites {} es = .ok ws ∧
      List.Forall₂ (fun w x => (w.depth.toNat : ℤ) ≡ x.1 [ZMOD 2 ^ 32]) ws
        (exactFrom 0 0 (written es)) ∧
      (Covered 0 (written es) ∧ ws.map account = exactFrom 0 0 (written es) ↔
        Fits 0 (written es)) ∧
      (Fits 0 (written es) → ∀ (i : Instr O) (span : Option CodeSpan),
        (written es).foldl Instr.depthAfter 0 < i.cellsPopped → i.cellsPopped < 2 ^ 32 →
        w.write i span = .error .stackUnderflow) := by
  obtain ⟨ws, hws, hcharged, hlast⟩ := charged_of_run hrun
  refine ⟨ws, hws, hcharged.modEq rfl, ⟨?_, hcharged.exact_of_fits⟩, ?_⟩
  · rintro ⟨hcovered, hmap⟩
    exact fits_of_exact (by decide) hcovered hmap
  · intro hfits i span hpops hcount
    have hexact := hcharged.last_of_fits hfits
    rw [hlast] at hexact
    have hlt : (w.depth.toNat : ℤ) < i.cellsPopped := hexact.trans_lt hpops
    exact write_refused span hcount (by exact_mod_cast hlt)

theorem accounts_exact_iff_fits_unpack :
    let es : List (Event Object) :=
      [.write (.loadLocal ⟨0⟩) none, .write (.unpack 0xFFFFFFFE) none]
    ∃ addrs w, run {} es = .ok (addrs, w) ∧ w.depth = 0xFFFFFFFE ∧ Covered 0 (written es) ∧
      w.write (.call { posNamed := 0xFFFFFFFE } {}) none = .error .stackUnderflow := by
  intro es
  have hexists : ∃ addrs w, run {} es = .ok (addrs, w) ∧ w.depth = 0xFFFFFFFE :=
    ⟨_, _, rfl, rfl⟩
  obtain ⟨addrs, w, hrun, hdepth⟩ := hexists
  have hfits : Fits 0 (written es) := ⟨by decide, by decide, by decide, by decide, trivial⟩
  obtain ⟨_, -, -, hexact, hrefused⟩ := accounts_exact_iff_fits hrun
  exact ⟨addrs, w, hrun, hdepth, (hexact.2 hfits).1,
    hrefused hfits _ none (by decide) (by decide)⟩

/-- Where a sum of cells wraps, a call is accepted that takes `2 ^ 32 - 1` values by position and a
collection of more, though there is one value on the stack. -/
theorem call_accepted_uncovered :
    let es : List (Event Object) :=
      [.write (.loadLocal ⟨0⟩) none,
        .write (.call { posNamed := 0xFFFFFFFF, args := true } {}) none]
    ∃ addrs w, run {} es = .ok (addrs, w) ∧ ¬Covered 0 (written es) ∧
      (w.depth.toNat : ℤ) ≠ (written es).foldl Instr.depthAfter 0 := by
  intro es
  refine ⟨_, _, rfl, ?_, by decide⟩
  rintro ⟨-, hcall, -⟩
  revert hcall
  decide

end Writer

end StackCode
