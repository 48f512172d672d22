import StackCode.BucketList.Basic

/-!
What the operations on a bucket list do to its size and its hashes, and where there is a bucket.
-/
namespace StackCode.BucketList

variable {K V : Type} (l : BucketList K V)

@[simp] theorem length_hashes : l.hashes.length = l.size := by
  simp [hashes, size]

theorem bucketAt_eq_ok_iff {i : Nat} {b : Bucket K V} :
    l.bucketAt i = .ok b ↔ l.buckets[i]? = some b := by
  unfold bucketAt
  split <;> simp_all

theorem bucketAt_eq_error_iff {i : Nat} :
    l.bucketAt i = .error .positionOutOfRange ↔ l.size ≤ i := by
  unfold bucketAt
  split
  · next b h =>
    obtain ⟨hi, _⟩ := Array.getElem?_eq_some_iff.1 h
    simp [size, hi]
  · next h =>
    simpa [size] using h

@[simp] theorem hashes_setValue (i : Nat) (value : V) :
    (l.setValue i value).hashes = l.hashes := by
  refine List.ext_getElem? fun j => ?_
  simp only [hashes, setValue, Array.toList_modify, List.getElem?_map, List.getElem?_modify]
  cases l.buckets.toList[j]? with
  | none => rfl
  | some b => by_cases h : i = j <;> simp [h]

@[simp] theorem hashes_mapValues (f : V → V) : (l.mapValues f).hashes = l.hashes := by
  simp [hashes, mapValues]

section Push

variable [HashKey K] (key : Hashed K) (value : V)

@[simp] theorem size_push : (l.push key value).size = l.size + 1 := by
  simp [size, push]

@[simp] theorem hashes_push : (l.push key value).hashes = l.hashes ++ [key.hash] := by
  simp [hashes, push]

end Push

end StackCode.BucketList
