import Mathlib
import StackCode.Proofs.IndexTable.Unbounded
import StackCode.Proofs.OrderedMap.Reachable
import StackCode.Proofs.OrderedMap.Safety

/-! Maps of any number of entries. A run of requests may fill the index beyond what its slots are
meant for; as long as no request breaks a contract, the index keeps a mark for each bucket, lookups
that come to an end are right, and no two keys are the same. -/
namespace StackCode.OrderedMap

variable {threshold : UInt32} {Q K V : Type} [HashKey K]
variable {m m' : OrderedMap threshold K V}

/-- The index, if there is one, follows the hashes of the buckets; and every hash is that of its
key. -/
structure Kept (m : OrderedMap threshold K V) : Prop where
  indexed : ∀ t, m.index = some t → t.Tracks m.list.hashes
  canonical : m.list.Canonical

theorem kept_empty : Kept ({} : OrderedMap threshold K V) := by
  refine ⟨?_, BucketList.canonical_empty⟩
  intro t ht
  cases ht

theorem Kept.sound (h : m.Kept) (hb : m.size < IndexTable.maxEntries) : m.Sound := by
  refine ⟨?_, h.canonical, hb⟩
  intro t ht
  exact (h.indexed t ht).represents (by rwa [BucketList.length_hashes])

theorem Kept.of_not_indexed (hi : m.index = none) (hc : m.list.Canonical) : m.Kept := by
  refine ⟨?_, hc⟩
  intro t ht
  rw [hi] at ht
  cases ht

theorem kept_of_reindexed {t : IndexTable} (hc : m.list.Canonical)
    (h : m.reindexed t = .ok m') : m'.Kept := by
  obtain ⟨t', ht', h⟩ := Checked.bind_eq_ok_iff.1 h
  cases h
  refine ⟨?_, hc⟩
  intro t₁ ht₁
  cases ht₁
  exact IndexTable.tracks_of_rebuild ht'

theorem Kept.of_append (h : m.Kept) {key : Hashed K} {value : V}
    (hm : m.append key value = .ok m') : m'.Kept := by
  have hc := h.canonical.push key value
  cases hi : m.index with
  | none =>
    rw [append_listed hi] at hm
    by_cases ht : threshold.toNat < m.size + 1
    · rw [if_pos ht] at hm
      exact kept_of_reindexed hc hm
    · rw [if_neg ht] at hm
      cases hm
      exact .of_not_indexed hi hc
  | some table =>
    rw [append_indexed hi] at hm
    obtain ⟨t, ht, hm⟩ := Checked.bind_eq_ok_iff.1 hm
    cases hm
    refine ⟨?_, hc⟩
    intro t₁ ht₁
    cases ht₁
    rw [BucketList.hashes_push]
    rw [size, ← BucketList.length_hashes] at ht
    exact (h.indexed table hi).of_insert ht

theorem Kept.of_removeAt (h : m.Kept) {i : ℕ} {removed : Hashed K × V}
    (hm : m.removeAt i = .ok (removed, m')) : m'.buckets = m.buckets.eraseIdx i ∧ m'.Kept := by
  obtain ⟨b, hi⟩ := bucket_of_removeAt hm
  obtain ⟨hb, rest, hrem, hrest⟩ := h.canonical.removeAt_eq hi
  have hc : rest.Canonical := h.canonical.of_subset (hrest ▸ List.eraseIdx_subset)
  rw [removeAt, hrem, Checked.ok_bind] at hm
  cases ht : m.index with
  | none =>
    rw [ht] at hm
    cases hm
    exact ⟨hrest, .of_not_indexed rfl hc⟩
  | some table =>
    rw [ht] at hm
    obtain ⟨m₁, hm₁, hm⟩ := Checked.bind_eq_ok_iff.1 hm
    cases hm
    refine ⟨?_, kept_of_reindexed (m := ⟨rest, some table⟩) hc hm₁⟩
    rw [buckets, list_of_reindexed hm₁]
    exact hrest

theorem Kept.of_pop (h : m.Kept) {popped : Option (K × V)} (hm : m.pop = .ok (popped, m')) :
    m'.buckets = m.buckets.dropLast ∧ m'.Kept := by
  rcases List.eq_nil_or_concat m.buckets with hnil | ⟨bs, b, hbs⟩
  · cases (pop_empty hnil).symm.trans hm
    exact ⟨by rw [hnil]; rfl, h⟩
  · rw [List.concat_eq_append] at hbs
    obtain ⟨rest, hrest, hc, hpop⟩ := pop_eq h.canonical hbs
    rw [hbs, List.dropLast_concat]
    rw [hpop] at hm
    cases ht : m.index with
    | none =>
      rw [ht] at hm
      cases hm
      exact ⟨hrest, .of_not_indexed rfl hc⟩
    | some table =>
      rw [ht] at hm
      obtain ⟨t, ht', hm⟩ := Checked.bind_eq_ok_iff.1 hm
      cases hm
      have hr := h.indexed table ht
      rw [hashes_eq hbs, List.map_append, List.map_singleton] at hr
      refine ⟨hrest, ?_, hc⟩
      intro t₁ ht₁
      cases ht₁
      rw [BucketList.hashes, hrest]
      exact hr.of_eraseLast (by rwa [List.length_map])

theorem Kept.clear (h : m.Kept) : m.clear.Kept := by
  refine ⟨?_, BucketList.canonical_empty⟩
  intro t ht
  obtain ⟨t', ht', rfl⟩ := Option.map_eq_some_iff.1 ht
  exact (h.indexed t' ht').clear

theorem Kept.setValue (h : m.Kept) (i : ℕ) (value : V) : (m.setValue i value).Kept := by
  refine ⟨?_, h.canonical.setValue i value⟩
  intro t ht
  rw [OrderedMap.setValue, BucketList.hashes_setValue]
  exact h.indexed t ht

theorem Kept.mapValues (h : m.Kept) (f : V → V) : (m.mapValues f).Kept := by
  refine ⟨?_, h.canonical.mapValues f⟩
  intro t ht
  rw [OrderedMap.mapValues, BucketList.hashes_mapValues]
  exact h.indexed t ht

theorem Kept.of_reserve (h : m.Kept) {additional : UInt32} (hm : m.reserve additional = .ok m') :
    m'.buckets = m.buckets ∧ m'.Kept := by
  rw [reserve] at hm
  by_cases hc : (!m.isIndexed && threshold < UInt32.ofNat m.size + additional) = true
  · have hm := (if_pos hc).symm.trans hm
    have hs : m'.Kept :=
      kept_of_reindexed (m := { m with list := m.list.reserve additional }) h.canonical hm
    exact ⟨by rw [buckets, list_of_reindexed hm]; rfl, hs⟩
  · cases (if_neg hc).symm.trans hm
    exact ⟨rfl, h.indexed, h.canonical⟩

theorem Kept.of_arranged (h : m.Kept) {s : BucketList.Arrangement K V}
    (hm : m.arranged s = .ok m') : m'.buckets = s.arrange m.buckets ∧ m'.Kept := by
  have hc : (m.list.arranged s).Canonical :=
    h.canonical.of_subset (m.list.arranged_perm s).subset
  rw [arranged] at hm
  cases ht : m.index with
  | none =>
    rw [ht] at hm
    cases hm
    exact ⟨rfl, .of_not_indexed rfl hc⟩
  | some table =>
    rw [ht] at hm
    refine ⟨?_, kept_of_reindexed (m := { m with list := m.list.arranged s }) hc hm⟩
    rw [buckets, list_of_reindexed hm]
    rfl

variable [HashKey Q] [Equivalent Q K]

/-- A search finds a bucket that holds the query; it finds nothing, or comes to no end, only where
there is no such bucket. -/
theorem Kept.indexOf (h : m.Kept) (q : Hashed Q) :
    (∃ i b, m.indexOfHashed? q = .ok (some i) ∧ m.buckets[i]? = some b ∧ b.holds q = true) ∨
      (∀ i, m.indexOfHashed? q ≠ .ok (some i)) ∧ ∀ b ∈ m.buckets, b.holds q = false := by
  cases ht : m.index with
  | none =>
    rw [indexOf_listed ht rfl]
    cases hf : m.buckets.find q with
    | none => exact .inr ⟨by simp, PlainMap.not_holds_of_find hf⟩
    | some i =>
      obtain ⟨b, hi, hb⟩ := PlainMap.getElem?_of_find hf
      exact .inl ⟨i, b, rfl, hi, hb⟩
  | some t =>
    have htracks := h.indexed t ht
    obtain ⟨is, hmem, hsearch⟩ :=
      htracks.search q.hash (accepts m.buckets q) fun i hi => accepts_eq rfl hi
    have hlen := htracks.length_le_two_pow
    rw [hashes_eq rfl, List.length_map] at hlen
    obtain ⟨hsome, hnone⟩ :=
      holds_of_accepts (by omega) fun i => (hmem i).trans (getElem?_hashes rfl)
    rw [indexOf_indexed ht, IndexTable.find]
    rcases hsearch with hsearch | ⟨hsearch, hmissed⟩
    · rw [hsearch, Checked.map_ok, Checked.ok_bind, Search.among_found]
      cases hf : is.find? (accepts m.buckets q) with
      | none => exact .inr ⟨by simp, hnone hf⟩
      | some i =>
        obtain ⟨b, hi, hb⟩ := hsome i hf
        exact .inl ⟨i.toNat, b, rfl, hi, hb⟩
    · rw [hsearch]
      exact .inr ⟨by simp, hnone hmissed⟩

theorem Kept.exists_indexOf (h : m.Kept) (hroom : m.isIndexed = true → m.size < 2 ^ 31)
    (q : Hashed Q) : ∃ found, m.indexOfHashed? q = .ok found := by
  cases ht : m.index with
  | none => exact ⟨_, indexOf_listed ht rfl q⟩
  | some t =>
    have htracks := h.indexed t ht
    have hlen : m.list.hashes.length < 2 ^ 31 := by
      rw [BucketList.length_hashes]
      exact hroom (by rw [isIndexed, ht, Option.isSome_some])
    obtain ⟨is, his, -, -⟩ := htracks.keeps.search (htracks.hasVacancy hlen) (by omega) q.hash
      (accepts m.buckets q) fun i hi => accepts_eq rfl hi
    exact ⟨_, by rw [indexOf_indexed ht, IndexTable.find, his]; rfl⟩

theorem Kept.not_holds_of_contains (h : m.Kept) {q : Hashed Q}
    (hq : m.containsHashed q = .ok false) : ∀ b ∈ m.buckets, b.holds q = false := by
  rcases h.indexOf q with ⟨i, b, hi, -, -⟩ | ⟨-, hnone⟩
  · rw [containsHashed, hi] at hq
    cases hq
  · exact hnone

omit [HashKey Q] [Equivalent Q K]

variable [BEq K]

theorem Update.kept (hu : Update m m') (h : m.Kept) : m'.Kept := by
  cases hu with
  | stay => exact h
  | setValue i value => exact h.setValue i value
  | append key value _ hm => exact h.of_append hm
  | removeAt i hm => exact (h.of_removeAt hm).2
  | pop hm => exact (h.of_pop hm).2
  | clear => exact h.clear
  | sortKeys s hm => exact (h.of_arranged hm).2

theorem Change.kept (hc : Change m m') (h : m.Kept) : m'.Kept := by
  cases hc with
  | update hu => exact hu.kept h
  | reserve additional hm => exact (h.of_reserve hm).2

theorem Update.distinct [LawfulKey K] (hu : Update m m') (h : m.Kept) (hd : m.buckets.Distinct) :
    m'.buckets.Distinct := by
  cases hu with
  | stay => exact hd
  | setValue i value =>
    rw [buckets, OrderedMap.setValue, BucketList.setValue, Array.toList_modify]
    exact hd.modify i value
  | append key value hnew hm =>
    rw [buckets, list_of_append hm, BucketList.push, Array.toList_push]
    refine hd.append fun b hb hsame => ?_
    have hheld := (Bucket.holds_iff (h.canonical b hb) key).2 hsame.symm
    rw [h.not_holds_of_contains hnew b hb] at hheld
    cases hheld
  | removeAt i hm =>
    rw [(h.of_removeAt hm).1]
    exact hd.of_sublist (List.eraseIdx_sublist _ i)
  | pop hm =>
    rw [(h.of_pop hm).1]
    exact hd.of_sublist (List.dropLast_sublist _)
  | clear => exact List.Pairwise.nil
  | sortKeys s hm =>
    rw [(h.of_arranged hm).1]
    exact hd.of_perm (s.perm _)

theorem Change.distinct [LawfulKey K] (hc : Change m m') (h : m.Kept) (hd : m.buckets.Distinct) :
    m'.buckets.Distinct := by
  cases hc with
  | update hu => exact hu.distinct h hd
  | reserve additional hm =>
    rw [(h.of_reserve hm).1]
    exact hd

theorem update_of_replaceHashed [HashKey Q] [Equivalent Q K] {q : Hashed Q} {value : V}
    {old : Option V} (h : m.replaceHashed q value = .ok (old, m')) : Update m m' := by
  obtain ⟨found, -, h⟩ := Checked.bind_eq_ok_iff.1 h
  cases found with
  | none =>
    cases h
    exact .stay
  | some i =>
    obtain ⟨_, -, h⟩ := Checked.bind_eq_ok_iff.1 h
    cases h
    exact .setValue i value

theorem update_of_request {r : Request K V} (h : r.apply m = .ok m') (hroom : r.room? = none) :
    Update m m' ∨ ∃ f, m' = m.mapValues f := by
  cases r with
  | event e =>
    obtain ⟨_, he, rfl⟩ := Checked.map_eq_ok_iff.1 h
    exact .inl (update_of_apply he hroom)
  | replace q value =>
    obtain ⟨_, he, rfl⟩ := Checked.map_eq_ok_iff.1 h
    exact .inl (update_of_replaceHashed he)
  | write i value =>
    cases h
    exact .inl (.setValue i value)
  | mapValues f =>
    cases h
    exact .inr ⟨f, rfl⟩

theorem reserve_of_request {r : Request K V} (h : r.apply m = .ok m') {n : UInt32}
    (hroom : r.room? = some n) : m.reserve n = .ok m' := by
  cases r with
  | event e =>
    obtain ⟨_, he, rfl⟩ := Checked.map_eq_ok_iff.1 h
    exact reserve_of_apply he hroom
  | replace q value | write i value | mapValues f => cases hroom

theorem change_of_request {r : Request K V} (h : r.apply m = .ok m') :
    Change m m' ∨ ∃ f, m' = m.mapValues f := by
  cases hroom : r.room? with
  | none => exact (update_of_request h hroom).imp_left .update
  | some n => exact .inl (.reserve n (reserve_of_request h hroom))

theorem serve_preserves {P : OrderedMap threshold K V → Prop}
    (hchange : ∀ m m', Change m m' → P m → P m') (hvalues : ∀ m f, P m → P (m.mapValues f))
    {rs : List (Request K V)} (h : P m) (hm : m.serve rs = .ok m') : P m' := by
  induction rs generalizing m with
  | nil =>
    cases hm
    exact h
  | cons r rs ih =>
    obtain ⟨m₁, hm₁, hm⟩ := Checked.bind_eq_ok_iff.1 hm
    refine ih ?_ hm
    rcases change_of_request hm₁ with hc | ⟨f, rfl⟩
    · exact hchange m m₁ hc h
    · exact hvalues m f h

/-- The maps that requests lead to from the empty one, as long as they break no contract. -/
def Served (m : OrderedMap threshold K V) : Prop := ∃ rs, serve {} rs = .ok m

theorem Served.empty : Served ({} : OrderedMap threshold K V) := ⟨[], rfl⟩

theorem serve_append (m : OrderedMap threshold K V) (rs rs' : List (Request K V)) :
    m.serve (rs ++ rs') = m.serve rs >>= fun m' => m'.serve rs' := by
  induction rs generalizing m with
  | nil => rfl
  | cons r rs ih =>
    rw [List.cons_append, serve, serve, bind_assoc]
    exact bind_congr ih

theorem Served.request (h : m.Served) {r : Request K V} (hr : r.apply m = .ok m') :
    m'.Served := by
  obtain ⟨rs, hm⟩ := h
  refine ⟨rs ++ [r], ?_⟩
  rw [serve_append, hm, Checked.ok_bind, serve, hr]
  rfl

theorem Served.kept (h : m.Served) : m.Kept := by
  obtain ⟨rs, hm⟩ := h
  exact serve_preserves (fun _ _ hc => hc.kept) (fun _ f hk => hk.mapValues f) kept_empty hm

theorem distinct_mapValues (hd : m.buckets.Distinct) (f : V → V) :
    (m.mapValues f).buckets.Distinct := by
  rw [PlainMap.Distinct, buckets, OrderedMap.mapValues, BucketList.mapValues, Array.toList_map,
    List.map_map]
  exact hd

theorem Served.distinct [LawfulKey K] (h : m.Served) : m.buckets.Distinct := by
  obtain ⟨rs, hm⟩ := h
  have hempty : Kept ({} : OrderedMap threshold K V) ∧
      ({} : OrderedMap threshold K V).buckets.Distinct :=
    ⟨kept_empty, List.Pairwise.nil⟩
  refine (serve_preserves (P := fun m => m.Kept ∧ m.buckets.Distinct) ?_ ?_ hempty hm).2
  · rintro m m' hc ⟨hk, hd⟩
    exact ⟨hc.kept hk, hc.distinct hk hd⟩
  · rintro m f ⟨hk, hd⟩
    exact ⟨hk.mapValues f, distinct_mapValues hd f⟩

theorem Served.mirrors [LawfulKey K] (h : m.Served) (hb : m.size < IndexTable.maxEntries) :
    m.Mirrors m.buckets :=
  ⟨h.kept.sound hb, rfl, h.distinct⟩

end StackCode.OrderedMap
