import Mathlib
import StackCode.Proofs.OrderedMap.Served

/-! Equality of maps. The comparison looks the entries of one map up in the other. In maps of one
size, whose keys are distinct, entries of the second that are not in the first would leave two
entries of the first with one in the second; so one inclusion carries the other, and the
comparison is an equivalence that sees neither the order nor the past of a map. -/
namespace StackCode

variable {threshold : UInt32} {K V : Type} [HashKey K] [BEq K] [BEq V]

namespace Bucket

variable {b c d : Bucket K V}

/-- The same stored hash, equal keys, equal values. -/
def Agrees (b c : Bucket K V) : Prop :=
  b.hash = c.hash ∧ (b.key == c.key) = true ∧ (b.value == c.value) = true

theorem agrees_iff (hb : b.hash = hashOf b.key) (hc : c.hash = hashOf c.key) :
    b.Agrees c ↔ Matches b.key c.key ∧ (b.value == c.value) = true := by
  rw [Agrees, Matches, hb, hc, equivalent_self, and_assoc]

variable [LawfulKey K] (hV : Equivalence fun v v' : V => (v == v') = true)

include hV

theorem agrees_refl (hb : b.hash = hashOf b.key) : b.Agrees b :=
  (agrees_iff hb hb).2 ⟨LawfulKey.equivalence.refl b.key, hV.refl b.value⟩

theorem Agrees.symm (hb : b.hash = hashOf b.key) (hc : c.hash = hashOf c.key)
    (h : b.Agrees c) : c.Agrees b := by
  obtain ⟨hkey, hvalue⟩ := (agrees_iff hb hc).1 h
  exact (agrees_iff hc hb).2 ⟨hkey.symm, hV.symm hvalue⟩

theorem Agrees.trans (hb : b.hash = hashOf b.key) (hc : c.hash = hashOf c.key)
    (hd : d.hash = hashOf d.key) (h : b.Agrees c) (h' : c.Agrees d) : b.Agrees d := by
  obtain ⟨hkey, hvalue⟩ := (agrees_iff hb hc).1 h
  obtain ⟨hkey', hvalue'⟩ := (agrees_iff hc hd).1 h'
  exact (agrees_iff hb hd).2 ⟨LawfulKey.equivalence.trans hkey hkey', hV.trans hvalue hvalue'⟩

end Bucket

namespace PlainMap

variable {l l' l'' : PlainMap K V}

def Within (l l' : PlainMap K V) : Prop := ∀ b ∈ l, ∃ c ∈ l', b.Agrees c

omit [HashKey K] in
theorem Within.of_perm (h : l.Within l') (hl : l.Perm l'') : l''.Within l' :=
  fun b hb => h b (hl.mem_iff.2 hb)

omit [HashKey K] in
theorem Within.perm (h : l.Within l') (hl : l'.Perm l'') : l.Within l'' := by
  intro b hb
  obtain ⟨c, hc, hbc⟩ := h b hb
  exact ⟨c, hl.mem_iff.1 hc, hbc⟩

variable [LawfulKey K] (hV : Equivalence fun v v' : V => (v == v') = true)

include hV

theorem within_refl (hc : l.Canonical) : l.Within l :=
  fun b hb => ⟨b, hb, Bucket.agrees_refl hV (hc b hb)⟩

theorem Within.trans (hc : l.Canonical) (hc' : l'.Canonical) (hc'' : l''.Canonical)
    (h : l.Within l') (h' : l'.Within l'') : l.Within l'' := by
  intro b hb
  obtain ⟨c, hcl, hbc⟩ := h b hb
  obtain ⟨d, hdl, hcd⟩ := h' c hcl
  exact ⟨d, hdl, hbc.trans hV (hc b hb) (hc' c hcl) (hc'' d hdl) hcd⟩

/-- As many distinct keys on the left as entries on the right leave none of these out. -/
theorem Within.reverse (hd : l.Distinct) (hc : l.Canonical) (hc' : l'.Canonical)
    (hlen : l.length = l'.length) (h : l.Within l') : l'.Within l := by
  have hpartner : ∀ i, ∃ j, (List.get l i).Agrees (List.get l' j) := by
    intro i
    obtain ⟨c, hcl, hagrees⟩ := h (List.get l i) (List.get_mem l i)
    obtain ⟨j, rfl⟩ := List.mem_iff_get.1 hcl
    exact ⟨j, hagrees⟩
  choose partner hpartner using hpartner
  have hmatches : ∀ i, Matches (List.get l' (partner i)).key (List.get l i).key := by
    intro i
    have hagrees := (hpartner i).symm hV (hc _ (List.get_mem l i)) (hc' _ (List.get_mem l' _))
    exact ((Bucket.agrees_iff (hc' _ (List.get_mem l' _)) (hc _ (List.get_mem l i))).1 hagrees).1
  have hinjective : Function.Injective partner := by
    intro i j hij
    let q : Hashed K := .of (List.get l' (partner i)).key
    have hi : (List.get l i).holds q = true :=
      (Bucket.holds_iff (hc _ (List.get_mem l i)) q).2 (hmatches i)
    have hj : (List.get l j).holds q = true := by
      have hsame := hmatches j
      rw [← hij] at hsame
      exact (Bucket.holds_iff (hc _ (List.get_mem l j)) q).2 hsame
    exact Fin.ext (hd.eq_of_holds hc (List.getElem?_eq_getElem i.2) (List.getElem?_eq_getElem j.2)
      hi hj)
  have hbijective : Function.Bijective partner := by
    rw [Fintype.bijective_iff_injective_and_card, Fintype.card_fin, Fintype.card_fin]
    exact ⟨hinjective, hlen⟩
  intro c hcl
  obtain ⟨j, rfl⟩ := List.mem_iff_get.1 hcl
  obtain ⟨i, rfl⟩ := hbijective.2 j
  exact ⟨List.get l i, List.get_mem l i,
    (hpartner i).symm hV (hc _ (List.get_mem l i)) (hc' _ (List.get_mem l' _))⟩

end PlainMap

namespace OrderedMap

variable {m m' : OrderedMap threshold K V}

theorem Kept.hasEqual_iff [LawfulKey K] (hV : Equivalence fun v v' : V => (v == v') = true)
    (h : m.Kept) (hd : m.buckets.Distinct) (h' : m'.Kept) {b : Bucket K V} (hb : b ∈ m'.buckets) :
    m.hasEqual b = .ok true ↔ ∃ c ∈ m.buckets, b.Agrees c := by
  have hagrees : ∀ c ∈ m.buckets, b.Agrees c ↔
      c.holds ⟨b.key, b.hash, h'.canonical b hb⟩ = true ∧ (b.value == c.value) = true := by
    intro c hc
    rw [Bucket.agrees_iff (h'.canonical b hb) (h.canonical c hc),
      Bucket.holds_iff (h.canonical c hc)]
  rw [hasEqual, h'.canonical.hashed_eq hb, Checked.ok_bind, getHashed?]
  rcases h.indexOf (⟨b.key, b.hash, h'.canonical b hb⟩ : Hashed K) with
    ⟨i, c, hi, hc, hholds⟩ | ⟨hfound, hnone⟩
  · have hmem := List.mem_of_getElem? hc
    simp only [hi, Checked.ok_bind, bucketAt_of_getElem? rfl hc, Checked.pure_eq_ok,
      Except.ok.injEq]
    constructor
    · intro hvalue
      exact ⟨c, hmem, (hagrees c hmem).2 ⟨hholds, hV.symm hvalue⟩⟩
    · rintro ⟨d, hdl, hbd⟩
      obtain ⟨hholds', hvalue⟩ := (hagrees d hdl).1 hbd
      obtain ⟨j, hj⟩ := List.getElem?_of_mem hdl
      obtain rfl := hd.eq_of_holds h.canonical hc hj hholds hholds'
      rw [hc, Option.some_inj] at hj
      exact hV.symm (hj ▸ hvalue)
  · constructor
    · intro hequal
      cases hi : m.indexOfHashed? (⟨b.key, b.hash, h'.canonical b hb⟩ : Hashed K) with
      | error fault =>
        rw [hi] at hequal
        cases hequal
      | ok found =>
        cases found with
        | none =>
          rw [hi] at hequal
          cases hequal
        | some i => exact absurd hi (hfound i)
    · rintro ⟨d, hdl, hbd⟩
      have hholds := ((hagrees d hdl).1 hbd).1
      rw [hnone d hdl] at hholds
      cases hholds

theorem sameEntries_eq_ok_true_iff [LawfulKey K]
    (hV : Equivalence fun v v' : V => (v == v') = true) (h : m.Kept) (h' : m'.Kept)
    (hd' : m'.buckets.Distinct) :
    m.sameEntries m' = .ok true ↔ m.size = m'.size ∧ m.buckets.Within m'.buckets := by
  rw [sameEntries]
  by_cases hsize : m.size = m'.size
  · rw [if_neg (not_not.2 hsize), Checked.allM_eq_ok_true_iff]
    simp only [hsize, true_and]
    exact forall₂_congr fun b hb => h'.hasEqual_iff hV hd' h hb
  · simp [hsize]

theorem Kept.exists_sameEntries (h : m.Kept) (h' : m'.Kept)
    (hb : m'.size < IndexTable.maxEntries) : ∃ same, m.sameEntries m' = .ok same := by
  by_cases hsize : m.size = m'.size
  · exact (h.sound (hsize ▸ hb)).sameEntries (h'.sound hb)
  · exact ⟨false, by rw [sameEntries, if_pos hsize]⟩

section Lawful

variable [LawfulKey K] (hV : Equivalence fun v v' : V => (v == v') = true)
variable {a b c : OrderedMap threshold K V}

include hV

theorem Served.sameEntries_iff (ha : a.Served) (hb : b.Served) :
    a.sameEntries b = .ok true ↔
      a.size = b.size ∧ a.buckets.Within b.buckets ∧ b.buckets.Within a.buckets := by
  rw [sameEntries_eq_ok_true_iff hV ha.kept hb.kept hb.distinct, size_eq_length, size_eq_length]
  constructor
  · rintro ⟨hlen, hwithin⟩
    exact ⟨hlen, hwithin, hwithin.reverse hV ha.distinct ha.kept.canonical hb.kept.canonical hlen⟩
  · rintro ⟨hlen, hwithin, -⟩
    exact ⟨hlen, hwithin⟩

theorem Served.sameEntries_of_perm (ha : a.Served) (hb : b.Served) (hp : a.buckets.Perm b.buckets) :
    a.sameEntries b = .ok true := by
  have hrefl := PlainMap.within_refl hV ha.kept.canonical
  refine (ha.sameEntries_iff hV hb).2 ⟨?_, hrefl.perm hp, hrefl.of_perm hp⟩
  rw [size_eq_length, size_eq_length, hp.length_eq]

theorem Served.sameEntries_symm (ha : a.Served) (hb : b.Served)
    (hab : a.sameEntries b = .ok true) : b.sameEntries a = .ok true := by
  obtain ⟨hsize, hwithin, hwithin'⟩ := (ha.sameEntries_iff hV hb).1 hab
  exact (hb.sameEntries_iff hV ha).2 ⟨hsize.symm, hwithin', hwithin⟩

theorem Served.sameEntries_trans (ha : a.Served) (hb : b.Served) (hc : c.Served)
    (hab : a.sameEntries b = .ok true) (hbc : b.sameEntries c = .ok true) :
    a.sameEntries c = .ok true := by
  rw [sameEntries_eq_ok_true_iff hV ha.kept hb.kept hb.distinct] at hab
  rw [sameEntries_eq_ok_true_iff hV hb.kept hc.kept hc.distinct] at hbc
  rw [sameEntries_eq_ok_true_iff hV ha.kept hc.kept hc.distinct]
  exact ⟨hab.1.trans hbc.1,
    hab.2.trans hV ha.kept.canonical hb.kept.canonical hc.kept.canonical hbc.2⟩

end Lawful

end OrderedMap

end StackCode
