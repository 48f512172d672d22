import Mathlib
import StackCode.Proofs.IndexTable.Placement

/-! Closing the gap that an erased entry leaves. While the gap travels along the run, its slot still
carries a mark, so the occupied slots stay the same and every chain stays whole; only when the run
ends is the slot emptied, and by then no chain leads through it. -/
namespace StackCode.IndexTable

variable {slots : Array Slot} {t : IndexTable} {ms : List Slot} {hole d p q : ℕ}

theorem ahead_add (a i j : ℕ) : ahead slots (ahead slots a i) j = ahead slots a (i + j) := by
  rw [ahead, ahead, Nat.mod_add_mod, Nat.add_assoc, ahead]

theorem ahead_size (ha : p < slots.size) : ahead slots p slots.size = p := by
  rw [ahead, Nat.add_mod_right, Nat.mod_eq_of_lt ha]

theorem stays_iff (hh : hole < slots.size) {i : ℕ} (hi : i < slots.size) (hd : d < slots.size) :
    stays hole (ahead slots hole i) (ahead slots hole d) = true ↔ 0 < i ∧ i ≤ d := by
  rw [ahead_eq_ite hh hi.le, ahead_eq_ite hh hd.le, stays]
  split <;> split <;> split <;> simp only [Bool.and_eq_true, Bool.or_eq_true, decide_eq_true_eq] <;>
    omega

/-- The slot `hole` is to be emptied, and the `d` slots from it on are occupied. The chains of the
others hold as long as the hole counts as occupied; those of the entries behind it, as far as they
have been seen, do not lead through it. -/
structure Gap (slots : Array Slot) (hole d : ℕ) : Prop where
  pos : 0 < d
  hole_lt : hole < slots.size
  taken : ∀ j < d, Taken slots (ahead slots hole j)
  chained : ∀ q, q ≠ hole → Taken slots q → Reached slots (home slots (look slots q).hash) q
  settled : ∀ j, 0 < j → j < d →
    ∃ i, 0 < i ∧ i ≤ j ∧ home slots (look slots (ahead slots hole j)).hash = ahead slots hole i

theorem Gap.hole_taken (h : Gap slots hole d) : Taken slots hole := by
  have ht := h.taken 0 h.pos
  rwa [ahead_zero h.hole_lt] at ht

theorem Gap.lt_size_of_taken (h : Gap slots hole d) (hv : HasVacancy slots)
    (ht : Taken slots (ahead slots hole d)) : d < slots.size := by
  obtain ⟨p, hp, hv⟩ := hv
  obtain ⟨k, hk, rfl⟩ := exists_eq_ahead h.hole_lt hp
  have hdk : ¬k < d := fun hkd => hv (h.taken k hkd)
  have hne : k ≠ d := by
    intro hkd
    exact hv (hkd ▸ ht)
  omega

theorem Gap.ahead_ne_hole (h : Gap slots hole d) (hd : d < slots.size) :
    ahead slots hole d ≠ hole := by
  intro he
  have hzero := ahead_injective h.hole_lt hd (Nat.zero_lt_of_lt hd)
    (he.trans (ahead_zero h.hole_lt).symm)
  have hpos := h.pos
  omega

theorem Gap.empty_chained (h : Gap slots hole d) (hv : ¬Taken slots (ahead slots hole d)) :
    Chained (slots.setIfInBounds hole .empty) := by
  intro q hq
  obtain ⟨hqh, hqt⟩ := (taken_set_empty h.hole_lt).1 hq
  obtain ⟨k, hk, hqk, ht⟩ := h.chained q hqh hqt
  rw [home_set, look_set _ _ h.hole_lt, if_neg hqh]
  generalize ha : home slots (look slots q).hash = a at hqk ht ⊢
  have halt : a < slots.size := ha ▸ home_lt (Nat.zero_lt_of_lt h.hole_lt) _
  refine ⟨k, by simpa using hk, by rw [ahead_set]; exact hqk, fun j hj => ?_⟩
  rw [ahead_set]
  refine (taken_set_empty h.hole_lt).2 ⟨fun hjh => ?_, ht j hj⟩
  -- the entry's chain leads through the hole, hence it was seen, hence its home is behind the hole
  have hq : q = ahead slots hole (k - j) := by
    rw [hqk, ← hjh, ahead_add]
    congr 1
    omega
  have hseen : k - j < d := by
    by_contra hnot
    rcases Nat.lt_or_eq_of_le (Nat.le_of_not_lt hnot) with hlt | heq
    · refine hv ?_
      rw [← hjh, ahead_add]
      exact ht _ (by omega)
    · exact hv (heq ▸ hq ▸ hqt)
  obtain ⟨i, hi, hij, hhome⟩ := h.settled (k - j) (by omega) hseen
  rw [← hq, ha] at hhome
  rw [hhome, ahead_add] at hjh
  have hzero := ahead_injective h.hole_lt (j := i + j) (k := 0) (by omega) (by omega)
    (hjh.trans (ahead_zero h.hole_lt).symm)
  omega

theorem Gap.extend (h : Gap slots hole d) (ht : Taken slots (ahead slots hole d)) {i : ℕ}
    (hi : 0 < i) (hid : i ≤ d)
    (hhome : home slots (look slots (ahead slots hole d)).hash = ahead slots hole i) :
    Gap slots hole (d + 1) := by
  constructor
  · omega
  · exact h.hole_lt
  · intro j hj
    rcases Nat.lt_or_eq_of_le (Nat.lt_succ_iff.1 hj) with hlt | rfl
    · exact h.taken j hlt
    · exact ht
  · exact h.chained
  · intro j hj0 hj
    rcases Nat.lt_or_eq_of_le (Nat.lt_succ_iff.1 hj) with hlt | rfl
    · exact h.settled j hj0 hlt
    · exact ⟨i, hi, hid, hhome⟩

theorem reached_hole (hh : hole < slots.size) {a i : ℕ} (ha : a = ahead slots hole i)
    (hi : i < slots.size) (hd : d < slots.size) (hid : ¬(0 < i ∧ i ≤ d))
    (hr : Reached slots a (ahead slots hole d)) : Reached slots a hole := by
  obtain ⟨k, hk, hpk, ht⟩ := hr
  rcases Nat.eq_zero_or_pos i with rfl | hi0
  · rw [ahead_zero hh] at ha
    subst ha
    exact ⟨0, by omega, (ahead_zero hh).symm, fun j hj => absurd hj (Nat.not_lt_zero j)⟩
  · -- from its home the entry goes once round the end of the slots before it meets the hole
    have hround : ahead slots a (slots.size - i) = hole := by
      rw [ha, ahead_add, Nat.add_sub_cancel' hi.le]
      exact ahead_size hh
    have hk : slots.size - i ≤ k := by
      by_contra hlt
      rw [ha, ahead_add] at hpk
      have hdk := ahead_injective hh hd (by omega) hpk
      omega
    exact ⟨slots.size - i, by omega, hround.symm, fun j hj => ht j (by omega)⟩

theorem taken_refill {s : Slot} (hh : Taken slots hole) (hs : s.isEmpty = false) (q : ℕ) :
    Taken (slots.setIfInBounds hole s) q ↔ Taken slots q := by
  rw [taken_set hh.lt_size hs]
  constructor
  · intro hq
    rcases hq with rfl | hq
    · exact hh
    · exact hq
  · exact Or.inr

theorem Gap.move (h : Gap slots hole d) (ht : Taken slots (ahead slots hole d))
    (hr : Reached slots (home slots (look slots (ahead slots hole d)).hash) hole) :
    Gap (slots.setIfInBounds hole (look slots (ahead slots hole d))) (ahead slots hole d) 1 := by
  have hsame := taken_refill h.hole_taken ht
  have hlt := ahead_lt h.hole_lt d
  constructor
  · exact Nat.one_pos
  · simpa using hlt
  · intro j hj
    obtain rfl : j = 0 := by omega
    rw [ahead_set, ahead_zero hlt]
    exact (hsame _).2 ht
  · intro q hq hqt
    have hreach : Reached slots
        (home slots (look (slots.setIfInBounds hole (look slots (ahead slots hole d))) q).hash)
        q := by
      rw [look_set _ _ h.hole_lt]
      by_cases hqh : q = hole
      · rw [if_pos hqh, hqh]
        exact hr
      · rw [if_neg hqh]
        exact h.chained q hqh ((hsame q).1 hqt)
    obtain ⟨k, hk, hqk, htk⟩ := hreach
    rw [home_set]
    refine ⟨k, by simpa using hk, by rw [ahead_set]; exact hqk, fun j hj => ?_⟩
    rw [ahead_set]
    exact (hsame _).2 (htk j hj)
  · intro j hj0 hj
    omega

theorem Run.congr {slots' : Array Slot} {a k : ℕ} (h : Run slots a k)
    (hsize : slots'.size = slots.size) (ht : ∀ q, Taken slots' q ↔ Taken slots q) :
    Run slots' a k := by
  have ha : ∀ j, ahead slots' a j = ahead slots a j := fun j => by rw [ahead, hsize, ahead]
  refine ⟨fun j hj => ?_, ?_⟩
  · rw [ha, ht]
    exact h.taken j hj
  · rw [ha, ht]
    exact h.vacant

theorem Gap.run_move {k : ℕ} (h : Gap slots hole d) (ht : Taken slots (ahead slots hole d))
    (hr : Run slots (ahead slots hole d) (k + 1)) :
    Run (slots.setIfInBounds hole (look slots (ahead slots hole d)))
      (ahead (slots.setIfInBounds hole (look slots (ahead slots hole d))) (ahead slots hole d) 1)
      k := by
  rw [ahead_set, ahead_add, ← next_ahead]
  exact hr.tail.congr (by simp) (taken_refill h.hole_taken ht)

theorem marks_move (hp : hole < slots.size) (hne : q ≠ hole)
    (ht : Taken slots q) :
    (marks ((slots.setIfInBounds hole (look slots q)).setIfInBounds q .empty)).Perm
      (marks (slots.setIfInBounds hole .empty)) := by
  have hlook : look (slots.setIfInBounds hole (look slots q)) q = look slots q := by
    rw [look_set _ _ hp, if_neg hne]
  have hset := marks_set hp (look slots q)
  have herase := marks_erase ((taken_set hp ht).2 (Or.inr ht))
  rw [hlook] at herase
  simp only [List.filter_cons, List.filter_nil, show (look slots q).isEmpty = false from ht,
    Bool.not_false, if_true] at hset
  exact (List.perm_cons _).1 (herase.symm.trans hset)

theorem closeGap_of_vacant {fuel pos : ℕ} (hf : 0 < fuel) (hp : pos < slots.size)
    (hv : ¬Taken slots pos) :
    closeGap fuel slots hole pos = .ok (slots.setIfInBounds hole .empty) := by
  obtain ⟨n, rfl⟩ := Nat.exists_eq_succ_of_ne_zero hf.ne'
  simp [closeGap, slotAt_eq hp, isEmpty_look hv]

theorem closeGap_spec {k fuel : ℕ} (h : Gap slots hole d)
    (hr : Run slots (ahead slots hole d) k) (hk : k < fuel) :
    ∃ out, closeGap fuel slots hole (ahead slots hole d) = .ok out ∧ out.size = slots.size ∧
      (marks out).Perm (marks (slots.setIfInBounds hole .empty)) ∧ Chained out := by
  obtain ⟨c, rfl⟩ := Nat.exists_eq_add_of_lt hk
  clear hk
  induction k generalizing slots hole d with
  | zero =>
    have hpos := ahead_lt h.hole_lt d
    have hv := hr.vacant
    rw [ahead_zero hpos] at hv
    exact ⟨_, closeGap_of_vacant (by omega) hpos hv, by simp, List.Perm.refl _, h.empty_chained hv⟩
  | succ k ih =>
    have hpos := ahead_lt h.hole_lt d
    have htaken := hr.head_taken hpos
    have hvac : HasVacancy slots := ⟨_, ahead_lt hpos (k + 1), hr.vacant⟩
    have hd := h.lt_size_of_taken hvac htaken
    have hhome := home_lt (Nat.zero_lt_of_lt hpos) (look slots (ahead slots hole d)).hash
    obtain ⟨i, hi, hhi⟩ := exists_eq_ahead h.hole_lt hhome
    have hstays := stays_iff h.hole_lt hi hd
    rw [← hhi] at hstays
    rw [Nat.add_right_comm k 1 c]
    by_cases hs : stays hole (home slots (look slots (ahead slots hole d)).hash)
        (ahead slots hole d) = true
    · obtain ⟨hi0, hid⟩ := hstays.1 hs
      have hr' : Run slots (ahead slots hole (d + 1)) k := next_ahead hole d ▸ hr.tail
      obtain ⟨out, hout, hrest⟩ := ih (h.extend htaken hi0 hid hhi) hr'
      refine ⟨out, ?_, hrest⟩
      rw [← next_ahead] at hout
      simpa [closeGap, slotAt_eq hpos, htaken, hs] using hout
    · have hne := h.ahead_ne_hole hd
      have hreach := h.chained _ hne htaken
      have hgap := h.move htaken (reached_hole h.hole_lt hhi hi hd (mt hstays.2 hs) hreach)
      obtain ⟨out, hout, hsize, hmarks, hchained⟩ := ih hgap (h.run_move htaken hr)
      refine ⟨out, ?_, by simpa using hsize, hmarks.trans (marks_move h.hole_lt hne htaken),
        hchained⟩
      rw [ahead_set, ahead_add, ← next_ahead] at hout
      simpa [closeGap, slotAt_eq hpos, htaken, hs] using hout

theorem eq_of_tag_eq (hn : ((marks slots).map Slot.tag).Nodup) (hp : Taken slots p)
    (hq : Taken slots q) (h : (look slots p).tag = (look slots q).tag) : p = q := by
  by_contra hne
  have hq' : Taken (slots.setIfInBounds p .empty) q :=
    (taken_set_empty hp.lt_size).2 ⟨Ne.symm hne, hq⟩
  have hlook : look (slots.setIfInBounds p .empty) q = look slots q := by
    rw [look_set _ _ hp.lt_size, if_neg (Ne.symm hne)]
  have hmem : look slots q ∈ marks (slots.setIfInBounds p .empty) :=
    mem_marks.2 ⟨q, hq', hlook⟩
  rw [((marks_erase hp).map Slot.tag).nodup_iff, List.map_cons, List.nodup_cons] at hn
  exact hn.1 (h ▸ List.mem_map_of_mem hmem)

theorem Keeps.holderFrom_eq (h : t.Keeps ms) (hn : ((marks t.slots).map Slot.tag).Nodup)
    {s : Slot} (hs : s ∈ marks t.slots) :
    ∃ p, Taken t.slots p ∧ look t.slots p = s ∧
      holderFrom t.slots s.tag t.slots.size (home t.slots s.hash) = .ok p := by
  obtain ⟨p, hp, rfl⟩ := mem_marks.1 hs
  obtain ⟨k, hk, hpk, ht⟩ := h.chained p hp
  have hhome := home_lt h.size_pos (look t.slots p).hash
  refine ⟨p, hp, rfl, ?_⟩
  have hbefore : ∀ j < k, Taken t.slots (ahead t.slots (home t.slots (look t.slots p).hash) j) ∧
      (look t.slots (ahead t.slots (home t.slots (look t.slots p).hash) j)).tag ≠
        (look t.slots p).tag := by
    intro j hj
    refine ⟨ht j hj, fun htag => ?_⟩
    have hpj := eq_of_tag_eq hn (ht j hj) hp htag
    have hjk := ahead_injective hhome (hj.trans hk) hk (hpj.trans hpk)
    omega
  rw [IndexTable.holderFrom_eq hk hhome hbefore (by rw [← hpk]), ← hpk]

theorem Chained.gap (h : Chained slots) (hp : Taken slots p) : Gap slots p 1 := by
  constructor
  · exact Nat.one_pos
  · exact hp.lt_size
  · intro j hj
    obtain rfl : j = 0 := by omega
    rw [ahead_zero hp.lt_size]
    exact hp
  · exact fun q _ => h q
  · intro j hj0 hj
    omega

/-- Closing the gap at a mark removes that mark and no other. -/
theorem closeGap_taken (h : Chained slots) (hv : HasVacancy slots) (hp : Taken slots p) :
    ∃ out, closeGap slots.size slots p (next slots p) = .ok out ∧ out.size = slots.size ∧
      (marks slots).Perm (look slots p :: marks out) ∧ Chained out := by
  obtain ⟨e, he, hr⟩ := exists_run hv (ahead_lt hp.lt_size 1)
  obtain ⟨out, hout, hsize, hmarks, hchained⟩ := closeGap_spec (h.gap hp) hr he
  rw [← next_ahead, ahead_zero hp.lt_size] at hout
  exact ⟨out, hout, hsize, (marks_erase hp).trans (hmarks.symm.cons _), hchained⟩

theorem Keeps.eraseLast {hash : HashCode} {position : UInt32}
    (h : t.Keeps (ms ++ [.entry hash position])) (hv : HasVacancy t.slots)
    (hn : ((ms ++ [Slot.entry hash position]).map Slot.tag).Nodup) (hpos : position + 1 = t.size) :
    ∃ t', t.eraseLast hash position = .ok t' ∧ t'.slots.size = t.slots.size ∧ t'.Keeps ms := by
  have hn' : ((marks t.slots).map Slot.tag).Nodup := (h.marks_perm.map Slot.tag).nodup_iff.2 hn
  have hmem : Slot.entry hash position ∈ marks t.slots := h.marks_perm.mem_iff.2 (by simp)
  obtain ⟨hole, hp, hlook, hholder⟩ := h.holderFrom_eq hn' hmem
  obtain ⟨out, hout, hsize, hmarks, hchained⟩ := closeGap_taken h.chained hv hp
  refine ⟨{ t with slots := out, size := t.size - 1 }, ?_, hsize, ?_⟩
  · rw [Slot.hash_entry, show (Slot.entry hash position).tag = t.size from hpos] at hholder
    simp [IndexTable.eraseLast, hpos, hholder, hout]
  · have hlen := h.size_eq
    rw [List.length_append, List.length_singleton] at hlen
    constructor
    · have hperm := hmarks.symm.trans h.marks_perm
      rw [hlook] at hperm
      exact (List.perm_cons _).1 (hperm.trans List.perm_append_comm)
    · exact hchained
    · have hone : (1 : UInt32) ≤ t.size := UInt32.le_iff_toNat_le.2 (by rw [hlen]; simp)
      rw [UInt32.toNat_sub_of_le _ _ hone, hlen]
      simp
    · rw [hsize]
      exact h.size_pos

theorem Holds.eraseLast {hash : HashCode} {position : UInt32}
    (h : t.Holds (ms ++ [.entry hash position]))
    (hn : ((ms ++ [Slot.entry hash position]).map Slot.tag).Nodup) (hpos : position + 1 = t.size) :
    ∃ t', t.eraseLast hash position = .ok t' ∧ t'.Holds ms := by
  obtain ⟨t', ht', hsize, hk⟩ := h.keeps.eraseLast (h.keeps.hasVacancy h.length_lt) hn hpos
  have hload := h.load
  rw [List.length_append, List.length_singleton] at hload
  refine ⟨t', ht', hk.holds ?_ ?_⟩
  · rw [hsize]
    exact h.capacity
  · rw [hsize]
    omega

theorem lt_of_holderFrom {tag : UInt32} {fuel a : ℕ} (h : holderFrom slots tag fuel a = .ok p) :
    p < slots.size := by
  induction fuel generalizing a with
  | zero => cases h
  | succ fuel ih =>
    obtain ⟨s, hs, h⟩ := Checked.bind_eq_ok_iff.1 h
    by_cases htag : s.tag = tag
    · rw [if_pos htag] at h
      cases h
      exact lt_of_slotAt hs
    · rw [if_neg htag] at h
      obtain ⟨_, -, h⟩ := Checked.bind_eq_ok_iff.1 h
      exact ih h

theorem hasVacancy_of_closeGap {fuel pos : ℕ} {out : Array Slot} (hh : hole < slots.size)
    (h : closeGap fuel slots hole pos = .ok out) : HasVacancy slots := by
  induction fuel generalizing slots hole pos with
  | zero => cases h
  | succ fuel ih =>
    obtain ⟨s, hs, h⟩ := Checked.bind_eq_ok_iff.1 h
    have hpos := lt_of_slotAt hs
    cases (slotAt_eq hpos).symm.trans hs
    by_cases he : (look slots pos).isEmpty = true
    · exact ⟨pos, hpos, by simp [Taken, he]⟩
    · rw [if_neg he] at h
      by_cases hs : stays hole (home slots (look slots pos).hash) pos = true
      · rw [if_pos hs] at h
        exact ih hh h
      · rw [if_neg hs] at h
        obtain ⟨p, hp, hv⟩ := ih (by simpa using hpos) h
        refine ⟨p, by simpa using hp, fun hp => hv ?_⟩
        exact (taken_set hh (by simpa using he)).2 (Or.inr hp)

end StackCode.IndexTable
