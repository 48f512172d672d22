import Mathlib
import StackCode.Proofs.IndexTable.Legal

/-! Erasures of any hash at any position. Only the last position is accepted, and where its mark is
met from the home of the hash, that mark is removed and no other. The position is compared in 32
bits, though, and the tag that is looked for may be the zero of an empty slot: in a table without
entries, `2 ^ 32 - 1` counts as the last position. -/
namespace StackCode.IndexTable

open Checked (Yields)

variable {slots : Array Slot} {t : IndexTable} {hs : List HashCode} {hash : HashCode}
variable {position : UInt32} {p a : ℕ}

/-- One mark less, that of the position, and one entry less, so that they are still as many. -/
structure Removes (t : IndexTable) (position : UInt32) (t' : IndexTable) : Prop where
  marks_perm : ∃ s, s.position = position ∧ (marks t.slots).Perm (s :: marks t'.slots)
  size_eq : t'.size.toNat + 1 = t.size.toNat
  counted : (marks t'.slots).length = t'.size.toNat

def ErasesCleanly (t : IndexTable) (hash : HashCode) (position : UInt32) : Prop :=
  Yields {.notLastEntry, .entryNotIndexed} (t.Removes position) (t.eraseLast hash position)

theorem erasesCleanly_of_ne (h : position + 1 ≠ t.size) : t.ErasesCleanly hash position := by
  refine .inr ⟨.notLastEntry, by simp, ?_⟩
  rw [eraseLast, beq_eq_false_iff_ne.2 h]
  rfl

theorem Indexes.erasesCleanly (h : t.Indexes hs) (hsome : t.size ≠ 0)
    (hroom : t.size.toNat ≠ 2 ^ 31) (hash : HashCode) (position : UInt32) :
    t.ErasesCleanly hash position := by
  have hsize := h.size_eq
  have hle := h.length_le
  have hcount : (marks t.slots).length = t.size.toNat := by
    rw [h.marks_perm.length_eq, length_entriesOf, hsize]
  rcases h with ⟨-, hzero, -⟩ | h
  · exact absurd hzero hsome
  · have hv := h.hasVacancy (by omega)
    refine (eraseLast_yields h.keeps.chained hv hsome hash position).mono subset_rfl ?_
    rintro t' ⟨-, -, hfewer, s, hs, hmarks⟩
    refine ⟨⟨s, hs, hmarks⟩, hfewer, ?_⟩
    have hlen := hmarks.length_eq
    rw [List.length_cons] at hlen
    omega

theorem Ample.eraseLast_of_empty (h : t.Ample []) (hlast : position + 1 = 0) (hash : HashCode) :
    ∃ t', t.eraseLast hash position = .ok t' ∧ t'.size = position ∧ marks t'.slots = [] := by
  have hsize : t.size = 0 := UInt32.toNat_inj.1 h.keeps.size_eq
  have hvacant := marks_eq_nil_iff.1 (List.perm_nil.1 h.keeps.marks_perm)
  have hhome := home_lt h.keeps.size_pos hash
  have htag : (look t.slots (home t.slots hash)).tag = 0 := by
    simpa [Slot.isEmpty] using isEmpty_look (hvacant (home t.slots hash))
  rw [← ahead_zero hhome] at htag
  have hholder := holderFrom_eq h.keeps.size_pos hhome
    (fun j hj => absurd hj (Nat.not_lt_zero j)) htag
  rw [ahead_zero hhome] at hholder
  have hclose : closeGap t.slots.size t.slots (home t.slots hash)
      (next t.slots (home t.slots hash)) =
        .ok (t.slots.setIfInBounds (home t.slots hash) .empty) :=
    closeGap_of_vacant h.keeps.size_pos (next_lt h.keeps.size_pos _) (hvacant _)
  refine ⟨{ t with slots := t.slots.setIfInBounds (home t.slots hash) .empty,
                   size := t.size - 1 }, ?_, ?_, ?_⟩
  · simp [IndexTable.eraseLast, hsize, hlast, hholder, hclose]
  · rw [hsize]
    exact (eq_sub_of_add_eq hlast).symm
  · exact marks_eq_nil_iff.2 fun p hp => hvacant p ((taken_set_empty hhome).1 hp).2

theorem eraseLast_of_blank (hslots : t.slots = #[]) (hsize : t.size = 0)
    (hlast : position + 1 = 0) (hash : HashCode) :
    t.eraseLast hash position = .error .endlessProbe := by
  simp [eraseLast, hslots, hsize, hlast, holderFrom]

section Full

variable (hfull : ∀ p < slots.size, Taken slots p)

include hfull

theorem holderFrom_of_full {tag : UInt32} {fuel : ℕ} (ha : a < slots.size) :
    Yields {.endlessProbe} (· < slots.size) (holderFrom slots tag fuel a) := by
  induction fuel generalizing a with
  | zero => exact .inr ⟨_, rfl, rfl⟩
  | succ fuel ih =>
    have htaken : (look slots a).isEmpty = false := hfull a ha
    by_cases htag : (look slots a).tag = tag
    · exact .inl ⟨a, by simp [holderFrom, slotAt_eq ha, htag], ha⟩
    · simpa [holderFrom, slotAt_eq ha, htag, htaken] using ih (next_lt (Nat.zero_lt_of_lt ha) a)

theorem closeGap_of_full {fuel hole pos : ℕ} (hh : hole < slots.size) (hp : pos < slots.size) :
    closeGap fuel slots hole pos = .error .endlessProbe := by
  induction fuel generalizing slots hole pos with
  | zero => rfl
  | succ fuel ih =>
    have htaken : (look slots pos).isEmpty = false := hfull pos hp
    have hnext := next_lt (Nat.zero_lt_of_lt hp) pos
    by_cases hs : stays hole (home slots (look slots pos).hash) pos = true
    · simpa [closeGap, slotAt_eq hp, htaken, hs] using ih hfull hh hnext
    · have hrefilled : ∀ q < (slots.setIfInBounds hole (look slots pos)).size,
          Taken (slots.setIfInBounds hole (look slots pos)) q := fun q hq =>
        (taken_refill (hfull hole hh) htaken q).2 (hfull q (by simpa using hq))
      have hrest : closeGap fuel (slots.setIfInBounds hole (look slots pos)) pos
          (next slots pos) = .error .endlessProbe :=
        ih hrefilled (by simpa using hp) (by simpa using hnext)
      simpa [closeGap, slotAt_eq hp, htaken, hs] using hrest

end Full

theorem eraseLast_of_full (hpos : 0 < t.slots.size) (hv : ¬HasVacancy t.slots)
    (hlast : position + 1 = t.size) (hash : HashCode) :
    t.eraseLast hash position = .error .endlessProbe := by
  have hfull := taken_of_not_hasVacancy hv
  rw [eraseLast, hlast, beq_self_eq_true]
  have hyields : Yields {.endlessProbe} (· < t.slots.size)
      (holderFrom t.slots t.size t.slots.size (home t.slots hash)) :=
    holderFrom_of_full hfull (home_lt hpos hash)
  rcases hyields with ⟨hole, hholder, hlt⟩ | ⟨fault, rfl, hholder⟩
  · simp [hholder, closeGap_of_full hfull hlt (next_lt hpos hole)]
  · simp [hholder]

theorem Removes.size_ne_zero {t' : IndexTable} (h : t.Removes position t') : t.size ≠ 0 := by
  intro hzero
  have hsize := h.size_eq
  rw [hzero] at hsize
  exact Nat.succ_ne_zero _ hsize

theorem not_erasesCleanly_of_endlessProbe (h : t.eraseLast hash position = .error .endlessProbe) :
    ¬t.ErasesCleanly hash position := by
  rintro (⟨t', ht', -⟩ | ⟨fault, hfault, herror⟩)
  · rw [h] at ht'
    cases ht'
  · rw [h] at herror
    cases herror
    simp at hfault

theorem Indexes.not_erasesCleanly_of_empty (h : t.Indexes hs) (hzero : t.size = 0)
    (hlast : position + 1 = 0) : ¬t.ErasesCleanly hash position := by
  obtain rfl := h.eq_nil hzero
  rcases h with ⟨hslots, -, -⟩ | h
  · exact not_erasesCleanly_of_endlessProbe (eraseLast_of_blank hslots hzero hlast hash)
  · obtain ⟨t', ht', -, -⟩ := h.eraseLast_of_empty hlast hash
    rintro (⟨t'', ht'', hremoves⟩ | ⟨fault, -, herror⟩)
    · exact hremoves.size_ne_zero hzero
    · rw [ht'] at herror
      cases herror

theorem Indexes.not_erasesCleanly_of_full (h : t.Indexes hs) (hfull : t.size.toNat = 2 ^ 31)
    (hlast : position + 1 = t.size) : ¬t.ErasesCleanly hash position := by
  have hsize := h.size_eq
  rcases h with ⟨-, -, rfl⟩ | h
  · rw [List.length_nil] at hsize
    omega
  · refine not_erasesCleanly_of_endlessProbe (eraseLast_of_full h.keeps.size_pos ?_ hlast hash)
    rw [h.hasVacancy_iff]
    omega

/-- Whatever has happened before, the erasure of every position with every hash is refused or it
removes one entry, but for the position before zero in a table without entries and the last position
in one without a vacancy. The former is accepted wherever there are slots, and `2 ^ 32 - 1` entries
are counted from then on. -/
theorem erasesCleanly_iff (start : Option UInt32) {es : List Event} (hv : LegalRun [] es)
    (hr : run (fresh start) es = .ok t) (hash : HashCode) (position : UInt32) :
    (t.ErasesCleanly hash position ↔
        ¬(position + 1 = t.size ∧ (t.size = 0 ∨ t.size.toNat = 2 ^ 31))) ∧
      (t.size = 0 → t.slots ≠ #[] → ∃ t', t.eraseLast hash 4294967295 = .ok t' ∧
        t'.size = 4294967295 ∧ marks t'.slots = []) := by
  have h := (fresh_indexes start).of_run hv hr
  refine ⟨⟨?_, fun hgood => ?_⟩, fun hzero hslots => ?_⟩
  · rintro hclean ⟨hlast, hzero | hfull⟩
    · exact h.not_erasesCleanly_of_empty hzero (hlast.trans hzero) hclean
    · exact h.not_erasesCleanly_of_full hfull hlast hclean
  · by_cases hlast : position + 1 = t.size
    · rw [not_and, not_or] at hgood
      exact h.erasesCleanly (hgood hlast).1 (hgood hlast).2 hash position
    · exact erasesCleanly_of_ne hlast
  · rw [h.eq_nil hzero] at h
    exact (h.resolve_left fun hblank => hslots hblank.1).eraseLast_of_empty rfl hash

theorem erasesCleanly_iff_other_hash :
    LegalRun [] [.insert ⟨8⟩ 0, .insert ⟨21⟩ 1] ∧
      ∃ t, run (fresh (some 4)) [.insert ⟨8⟩ 0, .insert ⟨21⟩ 1] = .ok t ∧ t.size = 2 ∧
        t.ErasesCleanly ⟨8⟩ 1 := by
  -- the probe for the hash of the first entry leads to the second one, too
  have hv : LegalRun [] [.insert ⟨8⟩ 0, .insert ⟨21⟩ 1] := ⟨rfl, rfl, trivial⟩
  have hrun : (run (fresh (some 4)) [.insert ⟨8⟩ 0, .insert ⟨21⟩ 1] >>= fun t => .ok t.size) =
      .ok 2 := by decide +kernel
  obtain ⟨t, ht, hstate⟩ := Checked.bind_eq_ok_iff.1 hrun
  have hsize : t.size = 2 := Except.ok.inj hstate
  refine ⟨hv, t, ht, hsize, ((erasesCleanly_iff (some 4) hv ht ⟨8⟩ 1).1).2 ?_⟩
  rw [hsize]
  decide

theorem not_erasesCleanly_fresh :
    (fresh (some 4)).size = 0 ∧ ¬(fresh (some 4)).ErasesCleanly ⟨7⟩ 4294967295 ∧
      ∃ t', (fresh (some 4)).eraseLast ⟨7⟩ 4294967295 = .ok t' ∧ t'.size = 4294967295 ∧
        marks t'.slots = [] := by
  have h := fresh_indexes (some 4)
  have hslots : (fresh (some 4)).slots ≠ #[] := by decide
  exact ⟨rfl, h.not_erasesCleanly_of_empty rfl rfl,
    (h.resolve_left fun hblank => hslots hblank.1).eraseLast_of_empty rfl ⟨7⟩⟩

end StackCode.IndexTable
