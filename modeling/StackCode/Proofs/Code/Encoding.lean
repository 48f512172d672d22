import Mathlib
import StackCode.Code.Buffer

/-! Code laid out in words. The words of a list of instructions are those of each in turn; walking
over them gives the instructions back with their places, and setting them down anew gives the same
words. -/
namespace StackCode.Words

variable {O : Type} [ValueObject O] {i : Instr O} {is : List (Instr O)}

def total (is : List (Instr O)) : ℕ := (is.map Instr.words).sum

def ofInstrs : List (Instr O) → Words O
  | [] => #[]
  | i :: is => ofInstr i ++ ofInstrs is

/-- The instructions with their places, the first at `pos` and each at the end of the one
before. -/
def placesFrom (pos : ℕ) : List (Instr O) → List (ℕ × Instr O)
  | [] => []
  | i :: is => (pos, i) :: placesFrom (pos + i.words) is

@[simp] theorem total_nil : total ([] : List (Instr O)) = 0 := rfl

@[simp] theorem total_cons (i : Instr O) (is : List (Instr O)) :
    total (i :: is) = i.words + total is := by
  simp [total]

@[simp] theorem total_append (is js : List (Instr O)) :
    total (is ++ js) = total is + total js := by
  simp [total]

theorem length_le_total (is : List (Instr O)) : is.length ≤ total is := by
  induction is with
  | nil => exact Nat.le_refl 0
  | cons i is ih =>
    have hpos := i.words_pos
    rw [List.length_cons, total_cons]
    omega

@[simp] theorem size_ofInstrs (is : List (Instr O)) : (ofInstrs is).size = total is := by
  induction is with
  | nil => rfl
  | cons i is ih => rw [ofInstrs, Array.size_append, size_ofInstr, ih, total_cons]

theorem ofInstrs_append (is js : List (Instr O)) :
    ofInstrs (is ++ js) = ofInstrs is ++ ofInstrs js := by
  induction is with
  | nil => simp [ofInstrs]
  | cons i is ih => rw [List.cons_append, ofInstrs, ih, ofInstrs, Array.append_assoc]

theorem placesFrom_append (pos : ℕ) (is js : List (Instr O)) :
    placesFrom pos (is ++ js) = placesFrom pos is ++ placesFrom (pos + total is) js := by
  induction is generalizing pos with
  | nil => rfl
  | cons i is ih => rw [List.cons_append, placesFrom, ih, placesFrom, total_cons, Nat.add_assoc,
      List.cons_append]

theorem getElem?_start (pre post : Words O) (i : Instr O) :
    (pre ++ (ofInstr i ++ post))[pre.size]? = some (some i) := by
  rw [Array.getElem?_append_right (Nat.le_refl _), Nat.sub_self, Array.getElem?_append_left]
  · simp [ofInstr]
  · rw [size_ofInstr]
    exact i.words_pos

theorem instrsFrom_ofInstrs (pre : Words O) (is : List (Instr O)) {fuel : ℕ}
    (hfuel : is.length ≤ fuel) :
    instrsFrom (pre ++ ofInstrs is) fuel pre.size = .ok (placesFrom pre.size is) := by
  induction is generalizing pre fuel with
  | nil =>
    have hend : pre.size = (pre ++ ofInstrs ([] : List (Instr O))).size := by simp [ofInstrs]
    cases fuel with
    | zero => rw [instrsFrom, if_pos hend, placesFrom]
    | succ fuel => rw [instrsFrom, if_pos hend, placesFrom]
  | cons i is ih =>
    cases fuel with
    | zero => cases hfuel
    | succ fuel =>
      have hpos := i.words_pos
      have hin : pre.size ≠ (pre ++ ofInstrs (i :: is)).size := by
        rw [Array.size_append, size_ofInstrs, total_cons]
        omega
      have hrest := ih (pre ++ ofInstr i) (Nat.le_of_succ_le_succ hfuel)
      rw [Array.append_assoc, Array.size_append, size_ofInstr] at hrest
      rw [instrsFrom, if_neg hin, ofInstrs, getElem?_start, placesFrom]
      simp only [hrest, Checked.ok_bind, Checked.pure_eq_ok]

theorem instrs_ofInstrs (is : List (Instr O)) : instrs (ofInstrs is) = .ok (placesFrom 0 is) := by
  have h := instrsFrom_ofInstrs #[] is (length_le_total is)
  rw [Array.empty_append] at h
  rw [instrs, size_ofInstrs]
  exact h

theorem set_blank (pre : Words O) (i : Instr O) (n : ℕ) :
    (pre ++ Array.replicate (i.words + n) none).setIfInBounds pre.size (some i) =
      pre ++ ofInstr i ++ Array.replicate n none := by
  obtain ⟨k, hk⟩ := Nat.exists_eq_succ_of_ne_zero i.words_pos.ne'
  apply Array.toList_inj.1
  rw [Array.toList_setIfInBounds, ofInstr, hk, Nat.succ_add, Nat.succ_sub_one]
  simp [List.replicate_succ]

theorem foldl_placesFrom (pre : Words O) (is : List (Instr O)) :
    (placesFrom pre.size is).foldl (fun fresh (pos, i) => fresh.setIfInBounds pos (some i))
      (pre ++ Array.replicate (total is) none) = pre ++ ofInstrs is := by
  induction is generalizing pre with
  | nil => simp [placesFrom, ofInstrs]
  | cons i is ih =>
    have hrest := ih (pre ++ ofInstr i)
    rw [Array.size_append, size_ofInstr] at hrest
    simp only [placesFrom, List.foldl_cons, total_cons, set_blank, ofInstrs]
    rw [← Array.append_assoc]
    exact hrest

theorem relocate_ofInstrs (is : List (Instr O)) : relocate (ofInstrs is) = .ok (ofInstrs is) := by
  have h := foldl_placesFrom #[] is
  rw [Array.empty_append, Array.empty_append] at h
  rw [relocate, instrs_ofInstrs, size_ofInstrs, Checked.ok_bind, Checked.pure_eq_ok]
  exact congrArg _ h

theorem eq_of_getElem?_ofInstr {j : Instr O} {p : ℕ} (h : (ofInstr j)[p]? = some (some i)) :
    p = 0 ∧ i = j := by
  cases p with
  | zero => simpa [ofInstr, eq_comm] using h
  | succ p =>
    rw [ofInstr, Array.getElem?_append_right (by simp)] at h
    obtain ⟨hp, h⟩ := Array.getElem?_eq_some_iff.1 h
    rw [Array.getElem_replicate] at h
    cases h

theorem exists_of_getElem? {p : ℕ} (h : (ofInstrs is)[p]? = some (some i)) :
    ∃ pre post, is = pre ++ i :: post ∧ p = total pre := by
  induction is generalizing p with
  | nil => simp [ofInstrs] at h
  | cons j js ih =>
    rw [ofInstrs] at h
    by_cases hp : p < j.words
    · rw [Array.getElem?_append_left (by rwa [size_ofInstr])] at h
      obtain ⟨rfl, rfl⟩ := eq_of_getElem?_ofInstr h
      exact ⟨[], js, rfl, rfl⟩
    · rw [Array.getElem?_append_right (by rw [size_ofInstr]; omega), size_ofInstr] at h
      obtain ⟨pre, post, rfl, hpre⟩ := ih h
      refine ⟨j :: pre, post, rfl, ?_⟩
      rw [total_cons, ← hpre]
      omega

theorem getElem?_total (pre post : List (Instr O)) (i : Instr O) :
    (ofInstrs (pre ++ i :: post))[total pre]? = some (some i) := by
  rw [ofInstrs_append, ofInstrs, ← size_ofInstrs pre, getElem?_start]

theorem set_ofInstrs (pre post : List (Instr O)) {i j : Instr O} (h : j.words = i.words) :
    (ofInstrs (pre ++ i :: post)).setIfInBounds (total pre) (some j) =
      ofInstrs (pre ++ j :: post) := by
  apply Array.toList_inj.1
  rw [Array.toList_setIfInBounds, ofInstrs_append, ofInstrs_append, ofInstrs, ofInstrs, ofInstr,
    ofInstr, h, ← size_ofInstrs]
  simp

end StackCode.Words
