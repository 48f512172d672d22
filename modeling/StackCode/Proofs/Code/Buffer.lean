import Mathlib
import StackCode.Proofs.Code.Encoding

/-! Buffers that hold given instructions. Growing keeps them, appending adds one at the end, and
what is read back is all of them in order, each at the sum of the sizes before it. No sum of sizes
leaves 32 bits, since a buffer refuses to grow that far. -/
namespace StackCode

variable {O : Type} [ValueObject O]

namespace Words

def addrAt (pos : ℕ) : Addr := ⟨.ofNat (Opcode.wordBytes * pos)⟩

theorem toNat_addrAt {pos : ℕ} (h : Opcode.wordBytes * pos < 2 ^ 32) :
    (addrAt pos).value.toNat = Opcode.wordBytes * pos :=
  UInt32.toNat_ofNat_of_lt' h

def placed (is : List (Instr O)) : List (Addr × Instr O) :=
  (placesFrom 0 is).map fun (pos, i) => (addrAt pos, i)

theorem placed_append_singleton (is : List (Instr O)) (i : Instr O) :
    placed (is ++ [i]) = placed is ++ [(addrAt (total is), i)] := by
  simp [placed, placesFrom_append, placesFrom]

theorem map_snd_placesFrom (pos : ℕ) (is : List (Instr O)) :
    (placesFrom pos is).map Prod.snd = is := by
  induction is generalizing pos with
  | nil => rfl
  | cons i is ih => rw [placesFrom, List.map_cons, ih]

theorem map_snd_placed (is : List (Instr O)) : (placed is).map Prod.snd = is := by
  rw [placed, List.map_map]
  exact map_snd_placesFrom 0 is

theorem mem_placesFrom_bounds {pos : ℕ} {is : List (Instr O)} {x : ℕ × Instr O}
    (h : x ∈ placesFrom pos is) : pos ≤ x.1 ∧ x.1 + x.2.words ≤ pos + total is := by
  induction is generalizing pos with
  | nil => cases h
  | cons i is ih =>
    rw [placesFrom, List.mem_cons] at h
    rw [total_cons]
    rcases h with rfl | h
    · exact ⟨Nat.le_refl _, by simp only; omega⟩
    · have hx := ih h
      omega

theorem exists_of_mem_placesFrom {pos : ℕ} {is : List (Instr O)} {x : ℕ × Instr O}
    (h : x ∈ placesFrom pos is) : ∃ pre post, is = pre ++ x.2 :: post ∧ x.1 = pos + total pre := by
  induction is generalizing pos with
  | nil => cases h
  | cons i is ih =>
    rcases List.mem_cons.1 h with rfl | h
    · exact ⟨[], is, rfl, rfl⟩
    · obtain ⟨pre, post, rfl, hpre⟩ := ih h
      refine ⟨i :: pre, post, rfl, ?_⟩
      rw [hpre, total_cons, Nat.add_assoc]

theorem isChain_placesFrom (pos : ℕ) (is : List (Instr O)) :
    (placesFrom pos is).IsChain fun x y => y.1 = x.1 + x.2.words := by
  induction is generalizing pos with
  | nil => exact List.isChain_nil
  | cons i is ih =>
    cases is with
    | nil => exact List.isChain_singleton _
    | cons j is => exact List.isChain_cons_cons.2 ⟨rfl, ih (pos + i.words)⟩

theorem eq_of_addrAt_eq {p q : ℕ} (hp : Opcode.wordBytes * p < 2 ^ 32)
    (hq : Opcode.wordBytes * q < 2 ^ 32) (h : addrAt p = addrAt q) : p = q := by
  have hn := congrArg (fun a => a.value.toNat) h
  simp only [toNat_addrAt hp, toNat_addrAt hq] at hn
  exact Nat.eq_of_mul_eq_mul_left (by decide) hn

theorem placed_split (pre post : List (Instr O)) (i : Instr O) :
    placed (pre ++ i :: post) = placed pre ++ (addrAt (total pre), i) ::
      (placesFrom (total pre + i.words) post).map fun (pos, i) => (addrAt pos, i) := by
  simp [placed, placesFrom_append, placesFrom]

theorem map_placed {pre post : List (Instr O)} {i : Instr O} {f : Instr O → Instr O}
    (hf : (f i).words = i.words)
    (hfits : Opcode.wordBytes * total (pre ++ i :: post) < 2 ^ 32) :
    (placed (pre ++ i :: post)).map
        (fun x => if x.1 = addrAt (total pre) then (x.1, f x.2) else x) =
      placed (pre ++ f i :: post) := by
  have hpos := i.words_pos
  rw [total_append, total_cons, Opcode.wordBytes] at hfits
  have hkeep : ∀ x : ℕ × Instr O, x.1 ≠ total pre →
      x.1 + x.2.words ≤ total pre + i.words + total post →
      (if addrAt x.1 = addrAt (total pre) then (addrAt x.1, f x.2) else (addrAt x.1, x.2)) =
        (addrAt x.1, x.2) := by
    intro x hne hle
    refine if_neg fun heq => hne (eq_of_addrAt_eq ?_ ?_ heq)
    · rw [Opcode.wordBytes]
      omega
    · rw [Opcode.wordBytes]
      omega
  rw [placed_split, placed_split, hf, List.map_append, List.map_cons, if_pos rfl, placed,
    List.map_map, List.map_map]
  congr 1
  · apply List.map_congr_left
    intro x hx
    have hb := mem_placesFrom_bounds hx
    have hw := x.2.words_pos
    exact hkeep x (by omega) (by omega)
  · congr 1
    apply List.map_congr_left
    intro x hx
    have hb := mem_placesFrom_bounds hx
    exact hkeep x (by omega) (by omega)

theorem head_placed (is : List (Instr O)) (hne : is ≠ []) :
    (placed is).head?.map (fun x => x.1.value) = some 0 := by
  cases is with
  | nil => exact absurd rfl hne
  | cons i is => rfl

theorem pairwise_placesFrom (pos : ℕ) (is : List (Instr O)) :
    (placesFrom pos is).Pairwise fun x y => x.1 < y.1 := by
  induction is generalizing pos with
  | nil => exact List.Pairwise.nil
  | cons i is ih =>
    have hpos := i.words_pos
    refine List.pairwise_cons.2 ⟨?_, ih (pos + i.words)⟩
    intro y hy
    have hb := mem_placesFrom_bounds hy
    simp only
    omega

theorem toNat_addrAt_of_mem {is : List (Instr O)} (hfits : Opcode.wordBytes * total is < 2 ^ 32)
    {x : ℕ × Instr O} (hx : x ∈ placesFrom 0 is) :
    (addrAt x.1).value.toNat = Opcode.wordBytes * x.1 := by
  have hb := mem_placesFrom_bounds hx
  rw [Opcode.wordBytes] at hfits
  apply toNat_addrAt
  rw [Opcode.wordBytes]
  omega

variable {is : List (Instr O)} (hfits : Opcode.wordBytes * total is < 2 ^ 32)
include hfits

theorem dvd_of_mem_placed {x : Addr × Instr O} (hx : x ∈ placed is) :
    Opcode.wordBytes ∣ x.1.value.toNat := by
  obtain ⟨y, hy, rfl⟩ := List.mem_map.1 hx
  rw [toNat_addrAt_of_mem hfits hy]
  exact Nat.dvd_mul_right _ _

theorem isChain_placed :
    (placed is).IsChain fun x y => y.1.value.toNat = x.1.value.toNat + x.2.size.toNat := by
  rw [placed, List.isChain_map]
  refine (isChain_placesFrom 0 is).imp_of_mem_imp ?_
  intro x y hx hy hxy
  rw [toNat_addrAt_of_mem hfits hx, toNat_addrAt_of_mem hfits hy, hxy, Nat.mul_add, Instr.size,
    Opcode.toNat_size]
  rfl

theorem pairwise_placed : (placed is).Pairwise fun x y => x.1.value < y.1.value := by
  rw [placed, List.pairwise_map]
  refine (pairwise_placesFrom 0 is).imp_of_mem ?_
  intro x y hx hy hxy
  rw [UInt32.lt_iff_toNat_lt, toNat_addrAt_of_mem hfits hx, toNat_addrAt_of_mem hfits hy,
    Opcode.wordBytes]
  omega

end Words

namespace CodeBuffer

open Words

variable {b b' : CodeBuffer O} {is : List (Instr O)}

/-- The words are those of the instructions, and both the count of their bytes and the block hold
them. -/
structure Encodes (b : CodeBuffer O) (is : List (Instr O)) : Prop where
  words_eq : b.words = ofInstrs is
  fits : Opcode.wordBytes * total is < 2 ^ 32
  held : total is ≤ b.capacityWords.toNat

theorem encodes_empty : Encodes ({} : CodeBuffer O) [] := by
  refine ⟨rfl, ?_, Nat.le_refl 0⟩
  rw [total_nil]
  exact Nat.two_pow_pos 32

theorem Encodes.sizeBytes_eq (h : b.Encodes is) : ⟨b.sizeBytes⟩ = addrAt (total is) := by
  rw [sizeBytes, h.words_eq, size_ofInstrs]
  rfl

theorem Encodes.toNat_sizeBytes (h : b.Encodes is) :
    b.sizeBytes.toNat = Opcode.wordBytes * total is := by
  rw [← toNat_addrAt h.fits, ← h.sizeBytes_eq]

theorem toNat_capacityBytes (b : CodeBuffer O) :
    b.capacityBytes.toNat = Opcode.wordBytes * b.capacityWords.toNat % 2 ^ 32 := by
  rw [capacityBytes, UInt32.toNat_mul, Nat.mul_comm]
  rfl

theorem le_grownWords {target : ℕ} (ht : target ≤ maxBytes) :
    (target + 7) / 8 ≤ (b.grownWords target).toNat := by
  rw [maxBytes] at ht
  have hasked : (UInt32.ofNat ((target + 7) / 8)).toNat = (target + 7) / 8 :=
    UInt32.toNat_ofNat_of_lt' (by rw [UInt32.size]; omega)
  rw [grownWords, UInt32.toNat_max, hasked]
  exact Nat.le_max_left _ _

/-- A call finds room enough, is refused, moves the words to a block that holds them, or would have
to move them to one that does not. -/
theorem Encodes.reserve_eq (h : b.Encodes is) (target : ℕ) :
    b.reserve target =
      if target ≤ b.capacityBytes.toNat then .ok b
      else if ¬target ≤ maxBytes then .error .bufferTooLarge
      else if total is ≤ (b.grownWords target).toNat then
        .ok { b with capacityWords := b.grownWords target }
      else .error .outsideBlock := by
  have hsize : b.words.size = total is := by rw [h.words_eq, size_ofInstrs]
  have hmoved : b.words.relocate = .ok b.words := by rw [h.words_eq, relocate_ofInstrs]
  rw [CodeBuffer.reserve, hsize]
  split_ifs with hroom hmax hheld
  · rfl
  · simp [hmax, hheld, hmoved]
  · simp [hmax, hheld]
  · simp [hmax]

theorem Encodes.reserve (h : b.Encodes is) {target : ℕ} (hr : b.reserve target = .ok b') :
    b'.Encodes is ∧ target < 2 ^ 32 ∧ target ≤ Opcode.wordBytes * b'.capacityWords.toNat := by
  rw [h.reserve_eq] at hr
  split_ifs at hr with hroom hmax hheld
  · cases hr
    refine ⟨h, hroom.trans_lt b.capacityBytes.toNat_lt, hroom.trans ?_⟩
    rw [b.toNat_capacityBytes]
    exact Nat.mod_le _ _
  · cases hr
    refine ⟨⟨h.words_eq, h.fits, hheld⟩, Nat.lt_succ_of_le hmax, ?_⟩
    have hasked := b.le_grownWords hmax
    rw [Opcode.wordBytes]
    simp only
    omega

theorem Encodes.reserve_of_le (h : b.Encodes is) {target : ℕ}
    (ht : Opcode.wordBytes * total is ≤ target) :
    (∃ b', b.reserve target = .ok b') ∨ b.reserve target = .error .bufferTooLarge := by
  rw [h.reserve_eq]
  split_ifs with hroom hmax hheld
  · exact .inl ⟨_, rfl⟩
  · exact .inl ⟨_, rfl⟩
  · have hasked := b.le_grownWords hmax
    rw [Opcode.wordBytes] at ht
    omega
  · exact .inr rfl

theorem Encodes.emplace (h : b.Encodes is) {i : Instr O} {a : Addr}
    (he : b.emplace i = .ok (a, b')) : a = addrAt (total is) ∧ b'.Encodes (is ++ [i]) := by
  obtain ⟨roomy, hroomy, he⟩ := Checked.bind_eq_ok_iff.1 he
  cases he
  obtain ⟨hr, htarget, hroom⟩ := h.reserve hroomy
  have hsum : b.sizeBytes.toNat + i.size.toNat = Opcode.wordBytes * total (is ++ [i]) := by
    rw [h.toNat_sizeBytes, Instr.size, Opcode.toNat_size, total_append, total_cons, total_nil,
      Nat.add_zero, Nat.mul_add]
    rfl
  rw [hsum] at htarget hroom
  refine ⟨h.sizeBytes_eq, ?_, htarget, Nat.le_of_mul_le_mul_left hroom (by decide)⟩
  rw [hr.words_eq, ofInstrs_append, ofInstrs, ofInstrs, Array.append_empty]

theorem Encodes.emplace_ok_or (h : b.Encodes is) (i : Instr O) :
    (∃ a b', b.emplace i = .ok (a, b')) ∨ b.emplace i = .error .bufferTooLarge := by
  have hle : Opcode.wordBytes * total is ≤ b.sizeBytes.toNat + i.size.toNat := by
    rw [h.toNat_sizeBytes]
    exact Nat.le_add_right _ _
  rw [CodeBuffer.emplace]
  rcases h.reserve_of_le hle with ⟨roomy, hroomy⟩ | hrefused
  · exact .inl ⟨_, _, by rw [hroomy]; rfl⟩
  · exact .inr (by rw [hrefused]; rfl)

theorem Encodes.instrs (h : b.Encodes is) : b.instrs = .ok (placed is) := by
  rw [CodeBuffer.instrs, h.words_eq, instrs_ofInstrs]
  rfl

theorem Encodes.exists_of_instrAt (h : b.Encodes is) {a : Addr} {i : Instr O}
    (hi : b.instrAt a = .ok i) :
    ∃ pre post, is = pre ++ i :: post ∧ a = addrAt (total pre) ∧ wordAt a = total pre := by
  obtain ⟨_, -, hi⟩ := Checked.bind_eq_ok_iff.1 hi
  split at hi
  · next j hj =>
    split at hi
    · next hmod =>
      cases hi
      rw [h.words_eq] at hj
      obtain ⟨pre, post, his, hpre⟩ := exists_of_getElem? hj
      refine ⟨pre, post, his, ?_, hpre⟩
      have ha : Opcode.wordBytes * wordAt a = a.value.toNat :=
        Nat.mul_div_cancel' (Nat.dvd_of_mod_eq_zero hmod)
      rw [← hpre, addrAt, ha, UInt32.ofNat_toNat]
    · cases hi
  · cases hi

theorem Encodes.instrAt {pre post : List (Instr O)} {i : Instr O}
    (h : b.Encodes (pre ++ i :: post)) : b.instrAt (addrAt (total pre)) = .ok i := by
  have hpos := i.words_pos
  have hfits := h.fits
  rw [total_append, total_cons] at hfits
  have ha : (addrAt (total pre)).value.toNat = Opcode.wordBytes * total pre :=
    toNat_addrAt (by rw [Opcode.wordBytes] at hfits ⊢; omega)
  have hlt : (addrAt (total pre)).value < b.sizeBytes := by
    rw [UInt32.lt_iff_toNat_lt, ha, h.toNat_sizeBytes, total_append, total_cons, Opcode.wordBytes]
    omega
  have hword : wordAt (addrAt (total pre)) = total pre := by
    rw [wordAt, ha]
    exact Nat.mul_div_cancel_left _ (by decide)
  rw [CodeBuffer.instrAt, hword, h.words_eq, getElem?_total]
  simp [hlt, ha]

theorem Encodes.instrAt_eq_ok_iff (h : b.Encodes is) {a : Addr} {i : Instr O} :
    b.instrAt a = .ok i ↔ (a, i) ∈ placed is := by
  constructor
  · intro hi
    obtain ⟨pre, post, rfl, rfl, -⟩ := h.exists_of_instrAt hi
    rw [placed_split]
    exact List.mem_append_right _ List.mem_cons_self
  · intro hmem
    obtain ⟨x, hx, heq⟩ := List.mem_map.1 hmem
    obtain ⟨pre, post, rfl, hpos⟩ := exists_of_mem_placesFrom hx
    cases heq
    rw [hpos, Nat.zero_add]
    exact h.instrAt

theorem Encodes.setInstr {pre post : List (Instr O)} {i j : Instr O} {a : Addr}
    (h : b.Encodes (pre ++ i :: post)) (ha : wordAt a = total pre) (hj : j.words = i.words) :
    (b.setInstr a j).Encodes (pre ++ j :: post) := by
  have hsame : total (pre ++ j :: post) = total (pre ++ i :: post) := by
    rw [total_append, total_append, total_cons, total_cons, hj]
  refine ⟨?_, hsame ▸ h.fits, hsame ▸ h.held⟩
  rw [CodeBuffer.setInstr, h.words_eq, ha]
  exact set_ofInstrs pre post hj

end CodeBuffer

end StackCode
