import Mathlib
import StackCode.Proofs.OrderedMap.Equality
import StackCode.Proofs.OrderedMap.Sorted

/-! How the comparisons of maps fit together. Equality in order compares keys and values position
by position and no hashes, the hash in order is made of the stored hashes and no keys, and equality
looks keys up by both. Where equal keys have equal hashes, all three see the same of a bucket; and
as buckets with different keys have only one ascending order, two maps are equal just if they are
equal in order once both are sorted. -/
namespace StackCode

variable {threshold : UInt32} {K V : Type} [BEq K]

section LawfulHash

variable [HashKey K] [LawfulHash K]

theorem PlainMap.Distinct.pairwise_ne {l : PlainMap K V} (h : l.Distinct) :
    l.Pairwise fun b c => (b.key == c.key) = false := by
  rw [Distinct, List.pairwise_map] at h
  refine h.imp fun {b c} hne => ?_
  rw [← Bool.not_eq_true]
  exact fun heq => hne ⟨LawfulHash.hashOf_eq heq, heq⟩

variable [BEq V]

theorem Bucket.agrees_iff_beq {b c : Bucket K V} (hb : b.hash = hashOf b.key)
    (hc : c.hash = hashOf c.key) : b.Agrees c ↔ (b == c) = true := by
  rw [show (b == c) = (b.key == c.key && b.value == c.value) from rfl, Bool.and_eq_true, Agrees]
  refine and_iff_right_of_imp fun h => ?_
  rw [hb, hc, LawfulHash.hashOf_eq h.1]

theorem PlainMap.beq_iff_forall₂ {l l' : PlainMap K V} (hc : l.Canonical)
    (hc' : l'.Canonical) : (l == l') = true ↔ List.Forall₂ Bucket.Agrees l l' := by
  induction l generalizing l' with
  | nil => cases l' <;> simp
  | cons b l ih =>
    cases l' with
    | nil => simp
    | cons c l' =>
      obtain ⟨hb, hc⟩ := List.forall_mem_cons.1 hc
      obtain ⟨hb', hc'⟩ := List.forall_mem_cons.1 hc'
      rw [List.cons_beq_cons, Bool.and_eq_true, List.forall₂_cons, Bucket.agrees_iff_beq hb hb',
        ih hc hc']

end LawfulHash

variable [BEq V]

namespace PlainMap

variable {l l' : PlainMap K V} {b c : Bucket K V}

theorem within_of_forall₂ (h : List.Forall₂ Bucket.Agrees l l') : l.Within l' := by
  induction h with
  | nil =>
    intro b hb
    cases hb
  | cons hbc _ ih =>
    intro x hx
    rcases List.mem_cons.1 hx with rfl | hx
    · exact ⟨_, List.mem_cons_self, hbc⟩
    · obtain ⟨y, hy, hxy⟩ := ih x hx
      exact ⟨y, List.mem_cons_of_mem _ hy, hxy⟩

section Ascending

variable [LT K] [OrderedKey K]

theorem Ascending.not_lt_of_agrees (h : Ascending (c :: l)) {d : Bucket K V} (hd : d ∈ c :: l)
    (hbd : b.Agrees d) : ¬b.key < c.key := by
  intro hlt
  refine OrderedKey.not_lt_of_beq hbd.2.1 ?_
  rcases List.mem_cons.1 hd with rfl | hd
  · exact hlt
  · exact OrderedKey.trans_lt hlt (List.rel_of_pairwise_cons h hd)

theorem Ascending.head_of_agrees (h : Ascending (c :: l)) {d : Bucket K V} (hd : d ∈ c :: l)
    (hbd : b.Agrees d) (hbc : (b.key == c.key) = true) : d = c := by
  rcases List.mem_cons.1 hd with rfl | hd
  · rfl
  · exact absurd (List.rel_of_pairwise_cons h hd)
      (OrderedKey.not_lt_of_beq (BEq.trans (BEq.symm hbc) hbd.2.1))

theorem Within.tail (h : Ascending (b :: l)) (hbc : (b.key == c.key) = true)
    (hw : Within (b :: l) (c :: l')) : l.Within l' := by
  intro x hx
  obtain ⟨y, hy, hxy⟩ := hw x (List.mem_cons_of_mem _ hx)
  rcases List.mem_cons.1 hy with rfl | hy
  · exact absurd (List.rel_of_pairwise_cons h hx)
      (OrderedKey.not_lt_of_beq (BEq.trans hbc (BEq.symm hxy.2.1)))
  · exact ⟨y, hy, hxy⟩

/-- Two ascending lists, each of them within the other, agree position by position. -/
theorem Ascending.forall₂_agrees (h : l.Ascending) (h' : l'.Ascending) (hw : l.Within l')
    (hw' : l'.Within l) : List.Forall₂ Bucket.Agrees l l' := by
  induction l generalizing l' with
  | nil =>
    cases l' with
    | nil => exact .nil
    | cons c l' =>
      obtain ⟨d, hd, -⟩ := hw' c List.mem_cons_self
      cases hd
  | cons b l ih =>
    cases l' with
    | nil =>
      obtain ⟨d, hd, -⟩ := hw b List.mem_cons_self
      cases hd
    | cons c l' =>
      obtain ⟨d, hd, hbd⟩ := hw b List.mem_cons_self
      obtain ⟨e, he, hce⟩ := hw' c List.mem_cons_self
      -- The heads agree with some bucket each, none of which is below the other list's head.
      have hbc : (b.key == c.key) = true := by
        rcases OrderedKey.trichotomy b.key c.key with hlt | heq | hlt
        · exact absurd hlt (h'.not_lt_of_agrees hd hbd)
        · exact heq
        · exact absurd hlt (h.not_lt_of_agrees he hce)
      obtain rfl := h'.head_of_agrees hd hbd hbc
      exact .cons hbd (ih h.of_cons h'.of_cons (hw.tail h hbc) (hw'.tail h' (BEq.symm hbc)))

end Ascending

theorem foldl_hashWith_eq (h : List.Forall₂ Bucket.Agrees l l') (mix : UInt64 → UInt64 → UInt64)
    {hashValue : V → UInt64} (hv : ∀ v v', (v == v') = true → hashValue v = hashValue v')
    (seed : UInt64) :
    l.foldl (fun seed b => mix seed (b.hashWith mix hashValue)) seed =
      l'.foldl (fun seed b => mix seed (b.hashWith mix hashValue)) seed := by
  induction h generalizing seed with
  | nil => rfl
  | @cons b c l l' hbc _ ih =>
    have hhash : b.hashWith mix hashValue = c.hashWith mix hashValue := by
      rw [Bucket.hashWith, Bucket.hashWith, hbc.1, hv _ _ hbc.2.2]
    rw [List.foldl_cons, List.foldl_cons, hhash]
    exact ih _

theorem digest_beq (h : List.Forall₂ Bucket.Agrees l l') :
    (l.map Bucket.digest == l'.map Bucket.digest) = true := by
  induction h with
  | nil => rfl
  | cons hbc _ ih =>
    rw [List.map_cons, List.map_cons, List.cons_beq_cons, ih, Bool.and_true]
    exact Bool.and_eq_true_iff.2 ⟨beq_iff_eq.2 hbc.1, hbc.2.2⟩

end PlainMap

namespace OrderedMap

variable {a b a' b' : OrderedMap threshold K V}

theorem hashInOrder_eq (h : List.Forall₂ Bucket.Agrees a.buckets b.buckets)
    (mix : UInt64 → UInt64 → UInt64) {hashValue : V → UInt64}
    (hv : ∀ v v', (v == v') = true → hashValue v = hashValue v') :
    a.hashInOrder mix hashValue = b.hashInOrder mix hashValue :=
  PlainMap.foldl_hashWith_eq h mix hv 0

variable [HashKey K]

/-- The comparisons of two maps say the same of them. -/
structure Consistent [LT K] (a b : OrderedMap threshold K V) : Prop where
  same : a.equalInOrder b = true → a.sameEntries b = .ok true
  hash : a.equalInOrder b = true → ∀ (mix : UInt64 → UInt64 → UInt64) (hashValue : V → UInt64),
    (∀ v v', (v == v') = true → hashValue v = hashValue v') →
      a.hashInOrder mix hashValue = b.hashInOrder mix hashValue
  digest : a.equalInOrder b = true → a.sameDigest b = true
  sorted : ∀ s s' : BucketList.Arrangement K V, s.Sorts → s'.Sorts → ∀ a' b',
    a.arranged s = .ok a' → b.arranged s' = .ok b' →
      (a.sameEntries b = .ok true ↔ a'.equalInOrder b' = true)
  returns : (b.isIndexed = true → b.size < IndexTable.maxEntries) →
    ∃ same, a.sameEntries b = .ok same
  sorts : ∀ s : BucketList.Arrangement K V, (∃ a', a.arranged s = .ok a') ↔
    (a.isIndexed = true → a.size < IndexTable.maxEntries)

theorem Kept.equalInOrder_iff [LawfulHash K] (ha : a.Kept) (hb : b.Kept) :
    a.equalInOrder b = true ↔ List.Forall₂ Bucket.Agrees a.buckets b.buckets := by
  rw [equalInOrder, BucketList.equalInOrder, ← Array.beq_toList]
  exact PlainMap.beq_iff_forall₂ ha.canonical hb.canonical

section Lawful

variable (hV : Equivalence fun v v' : V => (v == v') = true)

include hV

theorem Served.sameEntries_iff_within [LawfulKey K] (ha : a.Served) (hb : b.Served) :
    a.sameEntries b = .ok true ↔
      a.buckets.length = b.buckets.length ∧ a.buckets.Within b.buckets := by
  rw [sameEntries_eq_ok_true_iff hV ha.kept hb.kept hb.distinct, size_eq_length, size_eq_length]

theorem Served.sameEntries_of_forall₂ [LawfulKey K] (ha : a.Served) (hb : b.Served)
    (h : List.Forall₂ Bucket.Agrees a.buckets b.buckets) : a.sameEntries b = .ok true :=
  (ha.sameEntries_iff_within hV hb).2 ⟨h.length_eq, PlainMap.within_of_forall₂ h⟩

variable [LT K] [OrderedKey K] [LawfulHash K]

theorem Served.sameEntries_iff_arranged (ha : a.Served) (hb : b.Served)
    {s s' : BucketList.Arrangement K V} (hs : s.Sorts) (hs' : s'.Sorts)
    (ha' : a.arranged s = .ok a') (hb' : b.arranged s' = .ok b') :
    a.sameEntries b = .ok true ↔ a'.equalInOrder b' = true := by
  obtain ⟨hbuckets, hka⟩ := ha.kept.of_arranged ha'
  obtain ⟨hbuckets', hkb⟩ := hb.kept.of_arranged hb'
  have hperm := s.perm a.buckets
  have hperm' := s'.perm b.buckets
  rw [ha.sameEntries_iff_within hV hb, hka.equalInOrder_iff hkb, hbuckets, hbuckets']
  constructor
  · rintro ⟨hlen, hw⟩
    have hw' := hw.reverse hV ha.distinct ha.kept.canonical hb.kept.canonical hlen
    refine PlainMap.Ascending.forall₂_agrees (PlainMap.ascending_arrange hs ha.distinct.pairwise_ne)
      (PlainMap.ascending_arrange hs' hb.distinct.pairwise_ne) ?_ ?_
    · exact (hw.of_perm hperm.symm).perm hperm'.symm
    · exact (hw'.of_perm hperm'.symm).perm hperm.symm
  · intro h
    refine ⟨?_, ((PlainMap.within_of_forall₂ h).of_perm hperm).perm hperm'⟩
    rw [← hperm.length_eq, h.length_eq, hperm'.length_eq]

theorem Served.consistent (ha : a.Served) (hb : b.Served) : a.Consistent b where
  same h := ha.sameEntries_of_forall₂ hV hb ((ha.kept.equalInOrder_iff hb.kept).1 h)
  hash h mix _ hv := hashInOrder_eq ((ha.kept.equalInOrder_iff hb.kept).1 h) mix hv
  digest h := PlainMap.digest_beq ((ha.kept.equalInOrder_iff hb.kept).1 h)
  sorted _ _ hs hs' _ _ ha' hb' := ha.sameEntries_iff_arranged hV hb hs hs' ha' hb'
  returns hroom := exists_sameEntries ha.kept.canonical
    (hb.kept.exists_indexOf fun hi => (hroom hi).trans (by decide))
  sorts := ha.kept.exists_arranged_iff

end Lawful

end OrderedMap

end StackCode
