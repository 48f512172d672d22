import Mathlib
import StackCode.Proofs.IndexTable.Order

/-! An insertion and the erasure of what it inserted. The entry takes a slot that was vacant, so no
chain leads through it, and each entry behind it has its home behind it as well. None of them moves
back into the hole, and the slot is left as empty as it was: vacant slots keep nothing of the
entries that they once held. -/
namespace StackCode.IndexTable

variable {slots : Array Slot} {t t' : IndexTable} {hs : List HashCode} {hash : HashCode}
variable {hole d k p : ℕ} {s : Slot}

theorem Chained.home_behind (h : Chained slots) (hp : p < slots.size) (hv : ¬Taken slots p) {j : ℕ}
    (hj0 : 0 < j) (hj : j < slots.size) (ht : Taken slots (ahead slots p j)) :
    ∃ i, 0 < i ∧ i ≤ j ∧ home slots (look slots (ahead slots p j)).hash = ahead slots p i := by
  obtain ⟨k, hk, hjk, hchain⟩ := h _ ht
  have hhome := home_lt (Nat.zero_lt_of_lt hp) (look slots (ahead slots p j)).hash
  obtain ⟨i, hi, hhi⟩ := exists_eq_ahead hp hhome
  rw [hhi, ahead_add] at hjk
  have hnot : ∀ c < k, ahead slots p (i + c) ≠ p := by
    intro c hc hce
    have htaken := hchain c hc
    rw [hhi, ahead_add, hce] at htaken
    exact hv htaken
  by_cases hik : i + k < slots.size
  · obtain rfl := ahead_injective hp hj hik hjk
    refine ⟨i, Nat.pos_of_ne_zero fun hzero => ?_, Nat.le_add_right i k, hhi⟩
    subst hzero
    exact hnot 0 (by omega) (ahead_zero hp)
  · -- the chain goes round and meets the vacant slot before the mark
    have hround : ahead slots p (i + (slots.size - i)) = p := by
      rw [Nat.add_sub_cancel' hi.le, ahead_size hp]
    have hj' : ahead slots p (i + k) = ahead slots p (i + k - slots.size) := by
      rw [ahead, ahead, ← Nat.add_mod_right (p + (i + k - slots.size))]
      congr 1
      omega
    have hjik := ahead_injective hp hj (by omega) (hjk.trans hj')
    exact absurd hround (hnot (slots.size - i) (by omega))

theorem closeGap_of_settled {fuel : ℕ} (hh : hole < slots.size) (hd : d + k < slots.size)
    (hr : Run slots (ahead slots hole d) k) (hk : k < fuel)
    (hs : ∀ j, d ≤ j → j < d + k →
      ∃ i, 0 < i ∧ i ≤ j ∧ home slots (look slots (ahead slots hole j)).hash = ahead slots hole i) :
    closeGap fuel slots hole (ahead slots hole d) = .ok (slots.setIfInBounds hole .empty) := by
  obtain ⟨c, rfl⟩ := Nat.exists_eq_add_of_lt hk
  clear hk
  induction k generalizing d with
  | zero =>
    have hpos := ahead_lt hh d
    have hv := hr.vacant
    rw [ahead_zero hpos] at hv
    exact closeGap_of_vacant (by omega) hpos hv
  | succ k ih =>
    have hpos := ahead_lt hh d
    obtain ⟨i, hi0, hid, hhi⟩ := hs d le_rfl (by omega)
    have hstays : stays hole (home slots (look slots (ahead slots hole d)).hash)
        (ahead slots hole d) = true := by
      rw [hhi, stays_iff hh (by omega) (by omega)]
      exact ⟨hi0, hid⟩
    have hrest := ih (d := d + 1) (by omega) (next_ahead hole d ▸ hr.tail)
      fun j hj hjk => hs j (by omega) (by omega)
    rw [← next_ahead] at hrest
    rw [Nat.add_right_comm k 1 c]
    simpa [closeGap, slotAt_eq hpos, hr.head_taken hpos, hstays] using hrest

def Wiped (slots : Array Slot) : Prop := ∀ p, ¬Taken slots p → look slots p = .empty

theorem wiped_replicate (n : ℕ) : Wiped (.replicate n .empty) := by
  intro p _
  by_cases hp : p < n <;> simp [look, hp]

theorem Wiped.fill (h : Wiped slots) (hp : p < slots.size) (hs : s.isEmpty = false) :
    Wiped (slots.setIfInBounds p s) := by
  intro q hq
  rw [taken_set hp hs, not_or] at hq
  rw [look_set _ _ hp, if_neg hq.1]
  exact h q hq.2

theorem Wiped.erase (h : Wiped slots) (hp : p < slots.size) :
    Wiped (slots.setIfInBounds p .empty) := by
  intro q hq
  rw [taken_set_empty hp, not_and] at hq
  rw [look_set _ _ hp]
  split
  · rfl
  · next hqp => exact h q (hq hqp)

theorem Wiped.of_place (h : Wiped t.slots) {position : UInt32} (hpos : position + 1 ≠ 0)
    (hp : t.place hash position = .ok t') : Wiped t'.slots := by
  obtain ⟨p, hlt, -, hslots⟩ := slots_of_place hp
  rw [hslots]
  exact h.fill hlt (Slot.isEmpty_entry hpos)

theorem wiped_of_grow (hg : t.grow = .ok t') : Wiped t'.slots := by
  refine grow_preserves (P := fun t _ => Wiped t.slots) ?_ (wiped_replicate _) hg
  intro t₁ t₂ ms s h hs hp
  exact h.of_place (Slot.position_add_one_ne_zero hs) hp

theorem Wiped.of_insert (h : Wiped t.slots) {position : UInt32} (hpos : position + 1 ≠ 0)
    (hi : t.insert hash position = .ok t') : Wiped t'.slots := by
  rw [insert_eq] at hi
  obtain ⟨t₁, ht₁, hp⟩ := Checked.bind_eq_ok_iff.1 hi
  have h₁ : Wiped t₁.slots := by
    by_cases hg : t.needsGrowth = true
    · exact wiped_of_grow ((if_pos hg).symm.trans ht₁)
    · cases (if_neg hg).symm.trans ht₁
      exact h
  exact h₁.of_place hpos hp

theorem wiped_of_rebuild {count : UInt32} (h : t.rebuild hs count = .ok t') : Wiped t'.slots := by
  have hplaced := placeFrom_preserves (P := fun t hs => t.Keeps (entriesOf hs) ∧
    t.slots.size ≤ 2 ^ 31 ∧ Wiped t.slots) ?_
    ⟨reset_keeps t count, slots_le_of_capacity (capacity_reset t count), wiped_replicate _⟩
    (of_rebuild h).1
  · exact hplaced.2.2
  · rintro t₁ t₂ hs hash ⟨hk, hc, hw⟩ hp
    have hlen := hk.length_le
    rw [length_entriesOf] at hlen
    obtain ⟨hsize, hk₂⟩ := hk.of_place_next hc hp
    exact ⟨hk₂, hsize.le.trans hc, hw.of_place (ofNat_add_one_ne_zero (by omega)) hp⟩

theorem Wiped.of_closeGap {fuel pos : ℕ} {out : Array Slot} (h : Wiped slots)
    (hh : hole < slots.size) (hc : closeGap fuel slots hole pos = .ok out) : Wiped out := by
  induction fuel generalizing slots hole pos with
  | zero => cases hc
  | succ fuel ih =>
    obtain ⟨s, hs, hc⟩ := Checked.bind_eq_ok_iff.1 hc
    have hpos := lt_of_slotAt hs
    by_cases he : s.isEmpty = true
    · cases (if_pos he).symm.trans hc
      exact h.erase hh
    · rw [if_neg he] at hc
      by_cases hstays : stays hole (home slots s.hash) pos = true
      · rw [if_pos hstays] at hc
        exact ih h hh hc
      · rw [if_neg hstays] at hc
        exact ih (h.fill hh (Bool.eq_false_iff.2 he)) (by simpa using hpos) hc

theorem Wiped.of_eraseLast (h : Wiped t.slots) {position : UInt32}
    (he : t.eraseLast hash position = .ok t') : Wiped t'.slots := by
  obtain ⟨_, -, he⟩ := Checked.bind_eq_ok_iff.1 he
  obtain ⟨hole, hhole, he⟩ := Checked.bind_eq_ok_iff.1 he
  obtain ⟨out, hout, he⟩ := Checked.bind_eq_ok_iff.1 he
  cases he
  exact h.of_closeGap (lt_of_holderFrom hhole) hout

theorem Wiped.of_apply {e : Event} (h : Wiped t.slots) (hi : t.Indexes hs) (hv : e.Valid hs)
    (he : e.apply t = .ok t') : Wiped t'.slots := by
  cases e with
  | insert hash position =>
    have hlen := hi.length_le
    obtain rfl : position = .ofNat hs.length := by rw [← hv, UInt32.ofNat_toNat]
    exact h.of_insert (ofNat_add_one_ne_zero (by omega)) he
  | eraseLast hash position => exact h.of_eraseLast he
  | rebuild hashes count => exact wiped_of_rebuild he
  | clear =>
    cases he
    exact wiped_replicate _

theorem wiped_fresh (start : Option UInt32) : Wiped (fresh start).slots := by
  cases start with
  | none => exact wiped_replicate 0
  | some count => exact wiped_replicate _

theorem Wiped.of_run {es : List Event} (h : Wiped t.slots) (hi : t.Indexes hs)
    (hv : LegalRun hs es) (hr : run t es = .ok t') : Wiped t'.slots := by
  induction es generalizing t hs with
  | nil =>
    cases hr
    exact h
  | cons e es ih =>
    obtain ⟨t₁, ht₁, hr⟩ := Checked.bind_eq_ok_iff.1 hr
    exact ih (h.of_apply hi hv.1 ht₁) (hi.of_apply hv.1 ht₁) hv.2 hr

theorem Wiped.set_empty (h : Wiped slots) (hp : p < slots.size) (hv : ¬Taken slots p) (s : Slot) :
    (slots.setIfInBounds p s).setIfInBounds p .empty = slots := by
  rw [Array.setIfInBounds_setIfInBounds, ← h p hv, set_look hp]

/-- In a vacant slot that is filled, the gap is closed by emptying it again. -/
theorem closeGap_fill (hc : Chained slots) (hw : Wiped slots) (hp : p < slots.size)
    (hv : ¬Taken slots p) (hs : s.isEmpty = false) (hroom : HasVacancy (slots.setIfInBounds p s)) :
    closeGap slots.size (slots.setIfInBounds p s) p (next slots p) = .ok slots := by
  have hp' : p < (slots.setIfInBounds p s).size := by simpa using hp
  obtain ⟨k, hk, hr⟩ := exists_run hroom (ahead_lt hp' 1)
  rw [Array.size_setIfInBounds] at hk
  have hnext : next slots p = ahead (slots.setIfInBounds p s) p 1 := by
    rw [ahead_set, ← next_ahead, ahead_zero hp]
  have hlt : 1 + k < slots.size := by
    by_contra hge
    -- the run would reach back to the slot that was filled
    refine hr.vacant ?_
    rw [ahead_add, ahead_set, show 1 + k = slots.size by omega, ahead_size hp, taken_set hp hs]
    exact .inl rfl
  rw [hnext, closeGap_of_settled hp' (by simpa using hlt) hr hk, hw.set_empty hp hv]
  intro j hj0 hj
  have hne : ahead slots p j ≠ p := by
    intro he
    have hzero := ahead_injective hp (by omega) (Nat.zero_lt_of_lt hp)
      (he.trans (ahead_zero hp).symm)
    omega
  have htaken := hr.taken (j - 1) (by omega)
  rw [ahead_add, Nat.add_sub_cancel' hj0, ahead_set, taken_set hp hs] at htaken
  obtain ⟨i, hi0, hij, hhi⟩ := hc.home_behind hp hv hj0 (by omega) (htaken.resolve_left hne)
  refine ⟨i, hi0, hij, ?_⟩
  rw [home_set, ahead_set, ahead_set, look_set _ _ hp, if_neg hne, hhi]

theorem Keeps.holderFrom_look {ms : List Slot} (h : t.Keeps ms) (hn : (ms.map Slot.tag).Nodup)
    (hp : Taken t.slots p) :
    holderFrom t.slots (look t.slots p).tag t.slots.size (home t.slots (look t.slots p).hash) =
      .ok p := by
  have hn' : ((marks t.slots).map Slot.tag).Nodup := (h.marks_perm.map Slot.tag).nodup_iff.2 hn
  obtain ⟨q, hq, hlook, hholder⟩ := h.holderFrom_eq hn' (mem_marks.2 ⟨p, hp, rfl⟩)
  obtain rfl := eq_of_tag_eq hn' hq hp (by rw [hlook])
  exact hholder

theorem Ample.eraseLast_insert (h : t.Ample hs) (hw : Wiped t.slots)
    (hlen : hs.length + 1 < 2 ^ 31) (hg : t.needsGrowth = false) (hash : HashCode) :
    ∃ t', t.insert hash (.ofNat hs.length) = .ok t' ∧
      t'.eraseLast hash (.ofNat hs.length) = .ok t := by
  obtain ⟨t', hi⟩ := Indexes.insert (.inr h) (by omega) hash
  have h' := h.of_insert hi
  have hroom := h'.hasVacancy (by simpa using hlen)
  have hn : ((entriesOf (hs ++ [hash])).map Slot.tag).Nodup := by
    refine nodup_tags_entriesOf ?_
    rw [List.length_append, List.length_singleton]
    omega
  have hsize : t.size = .ofNat hs.length := by
    rw [← Indexes.size_eq (.inr h), UInt32.ofNat_toNat]
  have hmark : (Slot.entry hash (.ofNat hs.length)).isEmpty = false :=
    Slot.isEmpty_entry (ofNat_add_one_ne_zero (by omega))
  obtain ⟨p, hp, hv, rfl⟩ := eq_of_place (place_of_insert hg hi)
  have hholder := h'.keeps.holderFrom_look hn ((taken_set hp hmark).2 (.inl rfl))
  have hclose := closeGap_fill h.keeps.chained hw hp hv hmark hroom
  have hnext : next (t.slots.setIfInBounds p (.entry hash (.ofNat hs.length))) p =
      next t.slots p := by rw [next, Array.size_setIfInBounds, next]
  refine ⟨_, hi, ?_⟩
  rw [look_set _ _ hp, if_pos rfl, Slot.hash_entry,
    show (Slot.entry hash (.ofNat hs.length)).tag = .ofNat hs.length + 1 from rfl] at hholder
  rw [IndexTable.eraseLast, hsize, beq_self_eq_true, hholder, Checked.require_true]
  simp only [Checked.ok_bind, Array.size_setIfInBounds, hnext, hclose, Checked.pure_eq_ok]
  simp [← hsize]

/-- Whatever has happened before, an insertion that needs no growth and then the erasure of what it
inserted leave the table as it was, with the same content in every slot. -/
theorem eraseLast_insert_of_run (start : Option UInt32) {es : List Event} (hv : LegalRun [] es)
    (hr : run (fresh start) es = .ok t) (hn : t.size.toNat + 1 < 2 ^ 31)
    (hg : t.needsGrowth = false) (hash : HashCode) :
    ∃ t', t.insert hash t.size = .ok t' ∧ t'.eraseLast hash t.size = .ok t := by
  have hindexes := (fresh_indexes start).of_run hv hr
  have hwiped := (wiped_fresh start).of_run (fresh_indexes start) hv hr
  have hsize := hindexes.size_eq
  rcases hindexes with ⟨hslots, -, -⟩ | hample
  · simp [needsGrowth, hslots] at hg
  · have htrip := hample.eraseLast_insert hwiped (by omega) hg hash
    rwa [← hsize, UInt32.ofNat_toNat] at htrip

theorem eraseLast_insert_of_run_between :
    LegalRun [] [.insert ⟨8⟩ 0, .insert ⟨5⟩ 1, .insert ⟨18⟩ 2] ∧
      ∃ t, run (fresh none) [.insert ⟨8⟩ 0, .insert ⟨5⟩ 1, .insert ⟨18⟩ 2] = .ok t ∧
        t.size = 3 ∧ t.needsGrowth = false ∧
        ∃ t', t.insert ⟨8⟩ 3 = .ok t' ∧ t'.eraseLast ⟨8⟩ 3 = .ok t := by
  -- one entry is in the last slot, two are in the second and the third: the new one comes between
  have hv : LegalRun [] [.insert ⟨8⟩ 0, .insert ⟨5⟩ 1, .insert ⟨18⟩ 2] :=
    ⟨rfl, rfl, rfl, trivial⟩
  have hrun : (run (fresh none) [.insert ⟨8⟩ 0, .insert ⟨5⟩ 1, .insert ⟨18⟩ 2] >>= fun t =>
      .ok (t.size, t.needsGrowth)) = .ok (3, false) := by decide +kernel
  obtain ⟨t, ht, hstate⟩ := Checked.bind_eq_ok_iff.1 hrun
  obtain ⟨hsize, hg⟩ := Prod.mk.inj (Except.ok.inj hstate)
  have htrip := eraseLast_insert_of_run none hv ht (by rw [hsize]; decide) hg ⟨8⟩
  rw [hsize] at htrip
  exact ⟨hv, t, ht, hsize, hg, htrip⟩

end StackCode.IndexTable
