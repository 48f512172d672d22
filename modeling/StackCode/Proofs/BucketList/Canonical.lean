import Mathlib
import StackCode.BucketList.Lemmas
import StackCode.BucketList.Order

/-! Buckets that keep the hashes of their own keys. No change to a bucket list touches a hash
without its key, so this holds of every list there is, and then no removal meets a hash that its
key does not have. -/
namespace StackCode.BucketList

variable {K V : Type}

theorem size_eq_length (l : BucketList K V) : l.size = l.buckets.toList.length :=
  Array.length_toList.symm

variable [HashKey K] {l : BucketList K V}

def Canonical (l : BucketList K V) : Prop := ∀ b ∈ l.buckets.toList, b.hash = hashOf b.key

theorem canonical_empty : Canonical ({} : BucketList K V) := by
  intro b hb
  cases hb

theorem Canonical.of_subset (h : l.Canonical) {l' : BucketList K V}
    (hsub : l'.buckets.toList ⊆ l.buckets.toList) : l'.Canonical :=
  fun b hb => h b (hsub hb)

theorem Canonical.push (h : l.Canonical) (key : Hashed K) (value : V) :
    (l.push key value).Canonical := by
  intro b hb
  rw [BucketList.push, Array.toList_push, List.mem_append, List.mem_singleton] at hb
  rcases hb with hb | rfl
  · exact h b hb
  · exact key.hash_eq

theorem Canonical.setValue (h : l.Canonical) (i : ℕ) (value : V) :
    (l.setValue i value).Canonical := by
  intro b hb
  rw [BucketList.setValue, Array.toList_modify] at hb
  obtain ⟨j, hj⟩ := List.getElem?_of_mem hb
  rw [List.getElem?_modify] at hj
  obtain ⟨c, hc, rfl⟩ := Option.map_eq_some_iff.1 hj
  have hcanonical := h c (List.mem_of_getElem? hc)
  by_cases hij : i = j
  · rw [if_pos hij]
    exact hcanonical
  · rw [if_neg hij]
    exact hcanonical

theorem Canonical.mapValues (h : l.Canonical) (f : V → V) : (l.mapValues f).Canonical := by
  intro b hb
  rw [BucketList.mapValues, Array.toList_map] at hb
  obtain ⟨c, hc, rfl⟩ := List.mem_map.1 hb
  exact h c hc

theorem Canonical.hashed_eq (h : l.Canonical) {b : Bucket K V} (hb : b ∈ l.buckets.toList) :
    b.hashed = .ok ⟨b.key, b.hash, h b hb⟩ := by
  simp [Bucket.hashed, Hashed.trust, h b hb]

theorem Canonical.removeAt_eq (h : l.Canonical) {i : ℕ} {b : Bucket K V}
    (hi : l.buckets.toList[i]? = some b) :
    ∃ (hb : b.hash = hashOf b.key) (rest : BucketList K V),
      l.removeAt i = .ok ((⟨b.key, b.hash, hb⟩, b.value), rest) ∧
      rest.buckets.toList = l.buckets.toList.eraseIdx i := by
  have hmem := List.mem_of_getElem? hi
  rw [Array.getElem?_toList] at hi
  refine ⟨h b hmem, { l with buckets := l.buckets.eraseIdxIfInBounds i }, ?_,
    Array.toList_eraseIdxIfInBounds⟩
  rw [removeAt, (bucketAt_eq_ok_iff l).2 hi, Checked.ok_bind, h.hashed_eq hmem]
  rfl

theorem bucket_of_removeAt {i : ℕ} {removed : Hashed K × V} {rest : BucketList K V}
    (h : l.removeAt i = .ok (removed, rest)) : ∃ b, l.buckets.toList[i]? = some b := by
  obtain ⟨b, hb, -⟩ := Checked.bind_eq_ok_iff.1 h
  exact ⟨b, by rwa [Array.getElem?_toList, ← bucketAt_eq_ok_iff]⟩

theorem Canonical.pop_eq (h : l.Canonical) {bs : List (Bucket K V)} {b : Bucket K V}
    (hbs : l.buckets.toList = bs ++ [b]) :
    ∃ (hb : b.hash = hashOf b.key) (rest : BucketList K V),
      l.pop = .ok (some (⟨b.key, b.hash, hb⟩, b.value), rest) ∧ rest.buckets.toList = bs := by
  have hmem : b ∈ l.buckets.toList := by simp [hbs]
  have hback : l.buckets.back? = some b := by
    rw [← Array.getLast?_toList, hbs, List.getLast?_concat]
  refine ⟨h b hmem, { l with buckets := l.buckets.pop }, ?_, ?_⟩
  · simp only [pop, hback]
    rw [h.hashed_eq hmem]
    rfl
  · rw [Array.toList_pop, hbs, List.dropLast_concat]

end StackCode.BucketList
