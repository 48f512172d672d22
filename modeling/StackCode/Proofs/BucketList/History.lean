import Mathlib
import StackCode.Key.Number
import StackCode.Proofs.BucketList.Canonical

/-! Bucket lists through any run of changes, duplicates included. Every change moves a bucket as a
whole or alters its value only, so each keeps the hash of its key and no check of it fails. A query
finds the first bucket that answers it; taking that one out leaves the others in their order, and
then the query finds the next. Callers count in 32 bits, which is exact as long as there are fewer
than `2 ^ 32` buckets; each change adds one at most. -/
namespace StackCode.BucketList

variable {K V : Type}

theorem arranged_perm (l : BucketList K V) (s : Arrangement K V) :
    (l.arranged s).buckets.toList.Perm l.buckets.toList := s.perm l.buckets.toList

variable {l rest : BucketList K V}

section Queries

variable {Q : Type} [HashKey Q] [Equivalent Q K] {q : Hashed Q} {start i : ℕ}

/-- Position `i` is the first from `start` on whose bucket has the query's hash and a key that it
matches. -/
structure FirstFrom (l : BucketList K V) (q : Hashed Q) (start i : ℕ) : Prop where
  start_le : start ≤ i
  answers : ∃ b, l.buckets.toList[i]? = some b ∧ b.hash = q.hash ∧ equivalent q.key b.key = true
  least : ∀ j b, start ≤ j → j < i → l.buckets.toList[j]? = some b →
    ¬(b.hash = q.hash ∧ equivalent q.key b.key = true)

theorem holds_eq_true_iff {b : Bucket K V} :
    b.holds q = true ↔ b.hash = q.hash ∧ equivalent q.key b.key = true := by
  rw [Bucket.holds, Bool.and_eq_true, beq_iff_eq]

theorem indexOf?_eq_findIdx? (l : BucketList K V) (q : Hashed Q) :
    l.indexOf? q = l.buckets.toList.findIdx? (·.holds q) := by
  rw [indexOf?, ← List.findIdx?_toArray, Array.toArray_toList]

theorem indexOf?_eq_some_iff : l.indexOf? q = some i ↔ l.FirstFrom q 0 i := by
  rw [indexOf?_eq_findIdx?, List.findIdx?_eq_some_iff_getElem]
  constructor
  · rintro ⟨hi, hholds, hleast⟩
    refine ⟨Nat.zero_le i, ⟨_, List.getElem?_eq_getElem hi, holds_eq_true_iff.1 hholds⟩, ?_⟩
    intro j b _ hji hj
    obtain ⟨hjlt, rfl⟩ := List.getElem?_eq_some_iff.1 hj
    rw [← holds_eq_true_iff]
    exact hleast j hji
  · rintro ⟨-, ⟨b, hb, hanswers⟩, hleast⟩
    obtain ⟨hi, rfl⟩ := List.getElem?_eq_some_iff.1 hb
    refine ⟨hi, holds_eq_true_iff.2 hanswers, fun j hji hholds => ?_⟩
    exact hleast j _ (Nat.zero_le j) hji (List.getElem?_eq_getElem (hji.trans hi))
      (holds_eq_true_iff.1 hholds)

theorem indexOf?_eq_none_iff : l.indexOf? q = none ↔
    ∀ b ∈ l.buckets.toList, ¬(b.hash = q.hash ∧ equivalent q.key b.key = true) := by
  rw [indexOf?_eq_findIdx?, List.findIdx?_eq_none_iff]
  simp only [← holds_eq_true_iff, Bool.not_eq_true]

theorem getFull?_eq_some_iff {k : K} {v : V} :
    l.getFull? q = some (i, k, v) ↔ l.indexOf? q = some i ∧ l.getIndex? i = some (k, v) := by
  simp only [getFull?, getIndex?, Option.bind_eq_bind, Option.bind_eq_some_iff,
    Option.pure_def, Option.some.injEq, Prod.mk.injEq, Option.map_eq_some_iff]
  constructor
  · rintro ⟨j, hj, b, hb, rfl, hentry⟩
    exact ⟨hj, b, hb, hentry⟩
  · rintro ⟨hi, b, hb, hentry⟩
    exact ⟨i, hi, b, hb, rfl, hentry⟩

theorem getFull?_eq_none_iff : l.getFull? q = none ↔ l.indexOf? q = none := by
  rw [← not_iff_not, ← ne_eq, ← ne_eq, Option.ne_none_iff_exists', Option.ne_none_iff_exists']
  constructor
  · rintro ⟨⟨i, k, v⟩, h⟩
    exact ⟨i, (getFull?_eq_some_iff.1 h).1⟩
  · rintro ⟨i, hi⟩
    obtain ⟨b, hb, -⟩ := (indexOf?_eq_some_iff.1 hi).answers
    rw [Array.getElem?_toList] at hb
    refine ⟨(i, b.entry), getFull?_eq_some_iff.2 ⟨hi, ?_⟩⟩
    rw [getIndex?, hb]
    rfl

theorem FirstFrom.eraseIdx_iff (h : l.FirstFrom q 0 i)
    (hrest : rest.buckets.toList = l.buckets.toList.eraseIdx i) {k : ℕ} :
    rest.FirstFrom q 0 k ↔ l.FirstFrom q (i + 1) (k + 1) := by
  have hbefore : ∀ j < i, rest.buckets.toList[j]? = l.buckets.toList[j]? := fun j hj => by
    rw [hrest, List.getElem?_eraseIdx_of_lt hj]
  have hbehind : ∀ j, i ≤ j → rest.buckets.toList[j]? = l.buckets.toList[j + 1]? := fun j hj => by
    rw [hrest, List.getElem?_eraseIdx_of_ge hj]
  constructor
  · rintro ⟨-, ⟨b, hb, hanswers⟩, hleast⟩
    -- before the gap nothing answers, neither now nor then
    have hik : i ≤ k := by
      by_contra hlt
      have hki := Nat.lt_of_not_le hlt
      exact h.least k b (Nat.zero_le k) hki (hbefore k hki ▸ hb) hanswers
    refine ⟨Nat.succ_le_succ hik, ⟨b, hbehind k hik ▸ hb, hanswers⟩, fun j c hj hjk hc => ?_⟩
    obtain ⟨j, rfl⟩ := Nat.exists_eq_add_of_lt (Nat.lt_of_succ_le hj)
    exact hleast (i + j) c (Nat.zero_le _) (Nat.lt_of_succ_lt_succ hjk)
      ((hbehind _ (Nat.le_add_right i j)).trans hc)
  · rintro ⟨hik, ⟨b, hb, hanswers⟩, hleast⟩
    have hik := Nat.le_of_succ_le_succ hik
    refine ⟨Nat.zero_le k, ⟨b, (hbehind k hik).trans hb, hanswers⟩, fun j c _ hjk hc => ?_⟩
    rcases Nat.lt_or_ge j i with hji | hij
    · exact h.least j c (Nat.zero_le j) hji ((hbefore j hji).symm.trans hc)
    · exact hleast (j + 1) c (Nat.succ_le_succ hij) (Nat.succ_lt_succ hjk)
        ((hbehind j hij).symm.trans hc)

end Queries

variable [HashKey K]

theorem Canonical.getUnchecked_eq (h : l.Canonical) {i : ℕ} {b : Bucket K V}
    (hi : l.buckets.toList[i]? = some b) :
    ∃ hb : b.hash = hashOf b.key, l.getUnchecked i = .ok (⟨b.key, b.hash, hb⟩, b.value) := by
  have hmem := List.mem_of_getElem? hi
  rw [Array.getElem?_toList] at hi
  refine ⟨h b hmem, ?_⟩
  rw [getUnchecked, (bucketAt_eq_ok_iff l).2 hi, Checked.ok_bind, h.hashed_eq hmem]
  rfl

theorem removeAt_beyond {i : ℕ} (hi : l.size ≤ i) : l.removeAt i = .error .positionOutOfRange := by
  rw [removeAt, (bucketAt_eq_error_iff l).2 hi, Checked.error_bind]

theorem pop_empty (h : l.buckets.toList = []) : l.pop = .ok (none, l) := by
  have hback : l.buckets.back? = none := by rw [← Array.getLast?_toList, h, List.getLast?_nil]
  rw [pop, hback]

theorem removeEntry_none {Q : Type} [HashKey Q] [Equivalent Q K] {q : Hashed Q}
    (hi : l.indexOf? q = none) : l.removeEntry q = .ok (none, l) := by
  rw [removeEntry, hi]

theorem Canonical.removeEntry_eq {Q : Type} [HashKey Q] [Equivalent Q K] {q : Hashed Q} {i : ℕ}
    (h : l.Canonical) {b : Bucket K V} (hi : l.indexOf? q = some i)
    (hb : l.buckets.toList[i]? = some b) :
    ∃ rest, l.removeEntry q = .ok (some (b.key, b.value), rest) ∧
      rest.buckets.toList = l.buckets.toList.eraseIdx i := by
  obtain ⟨hhash, rest, hremove, hrest⟩ := h.removeAt_eq hb
  refine ⟨rest, ?_, hrest⟩
  rw [removeEntry, hi]
  simp only [hremove, Checked.ok_bind, Checked.pure_eq_ok]

/-- No hash that was kept is found wrong when its bucket is read or taken out. -/
structure Trusts (l : BucketList K V) : Prop where
  getUnchecked : ∀ i b, l.buckets.toList[i]? = some b → ∃ hb : b.hash = hashOf b.key,
    l.getUnchecked i = .ok (⟨b.key, b.hash, hb⟩, b.value)
  removeAt : ∀ i b, l.buckets.toList[i]? = some b → ∃ (hb : b.hash = hashOf b.key) (rest : _),
    l.removeAt i = .ok ((⟨b.key, b.hash, hb⟩, b.value), rest) ∧
      rest.buckets.toList = l.buckets.toList.eraseIdx i
  pop : ∀ bs b, l.buckets.toList = bs ++ [b] → ∃ (hb : b.hash = hashOf b.key) (rest : _),
    l.pop = .ok (some (⟨b.key, b.hash, hb⟩, b.value), rest) ∧ rest.buckets.toList = bs
  pop_empty : l.buckets.toList = [] → l.pop = .ok (none, l)

/-- What a query finds, at a position that 32 bits can tell, and what its removal takes out and
leaves. -/
structure Serves {Q : Type} [HashKey Q] [Equivalent Q K] (l : BucketList K V) (q : Hashed Q) :
    Prop where
  narrow : ∀ i, l.indexOf? q = some i → (UInt32.ofNat i).toNat = i
  found : ∀ i, l.indexOf? q = some i ↔ l.FirstFrom q 0 i
  absent : l.indexOf? q = none ↔
    ∀ b ∈ l.buckets.toList, ¬(b.hash = q.hash ∧ equivalent q.key b.key = true)
  full : ∀ i k v, l.getFull? q = some (i, k, v) ↔
    l.indexOf? q = some i ∧ l.getIndex? i = some (k, v)
  full_absent : l.getFull? q = none ↔ l.indexOf? q = none
  removed : ∀ i b, l.indexOf? q = some i → l.buckets.toList[i]? = some b → ∃ rest,
    l.removeEntry q = .ok (some (b.key, b.value), rest) ∧
      rest.buckets.toList = l.buckets.toList.eraseIdx i ∧
      ∀ k, rest.indexOf? q = some k ↔ l.FirstFrom q (i + 1) (k + 1)
  unchanged : l.indexOf? q = none → l.removeEntry q = .ok (none, l)

theorem Canonical.trusts (h : l.Canonical) : l.Trusts where
  getUnchecked _ _ hb := h.getUnchecked_eq hb
  removeAt _ _ hb := h.removeAt_eq hb
  pop _ _ hbs := h.pop_eq hbs
  pop_empty := BucketList.pop_empty

theorem Canonical.serves {Q : Type} [HashKey Q] [Equivalent Q K] (h : l.Canonical)
    (hsize : l.size < 2 ^ 32) (q : Hashed Q) : l.Serves q where
  narrow i hi := by
    obtain ⟨b, hb, -⟩ := (indexOf?_eq_some_iff.1 hi).answers
    obtain ⟨hlt, -⟩ := List.getElem?_eq_some_iff.1 hb
    rw [← size_eq_length] at hlt
    exact UInt32.toNat_ofNat_of_lt' (hlt.trans hsize)
  found _ := indexOf?_eq_some_iff
  absent := indexOf?_eq_none_iff
  full _ _ _ := getFull?_eq_some_iff
  full_absent := getFull?_eq_none_iff
  removed i b hi hb := by
    obtain ⟨rest, hremove, hrest⟩ := h.removeEntry_eq hi hb
    refine ⟨rest, hremove, hrest, fun k => ?_⟩
    rw [indexOf?_eq_some_iff, (indexOf?_eq_some_iff.1 hi).eraseIdx_iff hrest]
  unchanged := removeEntry_none

inductive Event (K V : Type) [HashKey K] : Type 1
  | push (key : Hashed K) (value : V)
  | removeAt (i : ℕ)
  | removeEntry {Q : Type} [HashKey Q] [Equivalent Q K] (q : Hashed Q)
  | pop
  | clear
  | reserve (additional : UInt32)
  | sortKeys (s : Arrangement K V)
  | setValue (i : ℕ) (value : V)
  | mapValues (f : V → V)

def Event.apply (l : BucketList K V) : Event K V → Checked (BucketList K V)
  | push key value => .ok (l.push key value)
  | removeAt i => do return (← l.removeAt i).2
  | removeEntry q => do return (← l.removeEntry q).2
  | pop => do return (← l.pop).2
  | clear => .ok l.clear
  | reserve additional => .ok (l.reserve additional)
  | sortKeys s => .ok (l.arranged s)
  | setValue i value => .ok (l.setValue i value)
  | mapValues f => .ok (l.mapValues f)

def run (l : BucketList K V) (es : List (Event K V)) : Checked (BucketList K V) :=
  es.foldlM Event.apply l

theorem Canonical.apply (h : l.Canonical) (e : Event K V) :
    (∃ l', e.apply l = .ok l' ∧ l'.Canonical) ∨
      ∃ i, e = .removeAt i ∧ l.size ≤ i ∧ e.apply l = .error .positionOutOfRange := by
  cases e with
  | push key value => exact .inl ⟨_, rfl, h.push key value⟩
  | clear => exact .inl ⟨_, rfl, canonical_empty⟩
  | reserve additional => exact .inl ⟨_, rfl, h⟩
  | setValue i value => exact .inl ⟨_, rfl, h.setValue i value⟩
  | mapValues f => exact .inl ⟨_, rfl, h.mapValues f⟩
  | sortKeys s => exact .inl ⟨_, rfl, h.of_subset (l.arranged_perm s).subset⟩
  | removeAt i =>
    cases hb : l.buckets.toList[i]? with
    | none =>
      have hi : l.size ≤ i := by
        rw [size_eq_length]
        exact List.getElem?_eq_none_iff.1 hb
      refine .inr ⟨i, rfl, hi, ?_⟩
      rw [Event.apply, removeAt_beyond hi, Checked.error_bind]
    | some b =>
      obtain ⟨_, rest, hremove, hrest⟩ := h.removeAt_eq hb
      refine .inl ⟨rest, ?_, h.of_subset ?_⟩
      · rw [Event.apply, hremove, Checked.ok_bind, Checked.pure_eq_ok]
      · rw [hrest]
        exact List.eraseIdx_subset
  | removeEntry q =>
    cases hi : l.indexOf? q with
    | none =>
      refine .inl ⟨l, ?_, h⟩
      rw [Event.apply, removeEntry_none hi, Checked.ok_bind, Checked.pure_eq_ok]
    | some i =>
      obtain ⟨b, hb, -⟩ := (indexOf?_eq_some_iff.1 hi).answers
      obtain ⟨rest, hremove, hrest⟩ := h.removeEntry_eq hi hb
      refine .inl ⟨rest, ?_, h.of_subset ?_⟩
      · rw [Event.apply, hremove, Checked.ok_bind, Checked.pure_eq_ok]
      · rw [hrest]
        exact List.eraseIdx_subset
  | pop =>
    rcases List.eq_nil_or_concat l.buckets.toList with hnil | ⟨bs, b, hbs⟩
    · refine .inl ⟨l, ?_, h⟩
      rw [Event.apply, pop_empty hnil, Checked.ok_bind, Checked.pure_eq_ok]
    · rw [List.concat_eq_append] at hbs
      obtain ⟨_, rest, hpop, hrest⟩ := h.pop_eq hbs
      refine .inl ⟨rest, ?_, h.of_subset ?_⟩
      · rw [Event.apply, hpop, Checked.ok_bind, Checked.pure_eq_ok]
      · rw [hrest, hbs]
        exact List.subset_append_left bs [b]

theorem Canonical.run (h : l.Canonical) (es : List (Event K V)) :
    (∃ l', l.run es = .ok l' ∧ l'.Canonical) ∨ l.run es = .error .positionOutOfRange := by
  induction es generalizing l with
  | nil => exact .inl ⟨l, rfl, h⟩
  | cons e es ih =>
    rw [BucketList.run, List.foldlM_cons]
    rcases h.apply e with ⟨l₁, he, h₁⟩ | ⟨i, -, -, he⟩
    · rw [he]
      exact ih h₁
    · rw [he]
      exact .inr rfl

theorem size_removeAt_le {i : ℕ} {removed : Hashed K × V}
    (h : l.removeAt i = .ok (removed, rest)) : rest.size ≤ l.size := by
  obtain ⟨_, -, h⟩ := Checked.bind_eq_ok_iff.1 h
  obtain ⟨_, -, h⟩ := Checked.bind_eq_ok_iff.1 h
  cases h
  rw [size_eq_length, size_eq_length, Array.toList_eraseIdxIfInBounds]
  exact (List.eraseIdx_sublist _ i).length_le

theorem size_removeEntry_le {Q : Type} [HashKey Q] [Equivalent Q K] {q : Hashed Q}
    {removed : Option (K × V)} (h : l.removeEntry q = .ok (removed, rest)) :
    rest.size ≤ l.size := by
  cases hi : l.indexOf? q with
  | none =>
    cases (removeEntry_none hi).symm.trans h
    exact Nat.le_refl _
  | some i =>
    rw [removeEntry, hi] at h
    obtain ⟨_, hremove, h⟩ := Checked.bind_eq_ok_iff.1 h
    cases h
    exact size_removeAt_le hremove

theorem size_pop_le {popped : Option (Hashed K × V)} (h : l.pop = .ok (popped, rest)) :
    rest.size ≤ l.size := by
  rw [pop] at h
  cases hback : l.buckets.back? with
  | none =>
    rw [hback] at h
    cases h
    exact Nat.le_refl _
  | some b =>
    rw [hback] at h
    obtain ⟨_, -, h⟩ := Checked.bind_eq_ok_iff.1 h
    cases h
    rw [BucketList.size, Array.size_pop]
    exact Nat.sub_le _ 1

theorem size_apply_le {l' : BucketList K V} {e : Event K V} (h : e.apply l = .ok l') :
    l'.size ≤ l.size + 1 := by
  cases e with
  | push key value =>
    cases h
    exact (l.size_push key value).le
  | clear =>
    cases h
    exact Nat.zero_le _
  | reserve additional =>
    cases h
    exact Nat.le_succ _
  | sortKeys s =>
    cases h
    rw [size_eq_length, (l.arranged_perm s).length_eq, ← size_eq_length]
    exact Nat.le_succ _
  | setValue i value =>
    cases h
    exact Nat.le_succ_of_le Array.size_modify.le
  | mapValues f =>
    cases h
    exact Nat.le_succ_of_le Array.size_map.le
  | removeAt i =>
    obtain ⟨_, hremove, h⟩ := Checked.bind_eq_ok_iff.1 h
    cases h
    exact Nat.le_succ_of_le (size_removeAt_le hremove)
  | removeEntry q =>
    obtain ⟨_, hremove, h⟩ := Checked.bind_eq_ok_iff.1 h
    cases h
    exact Nat.le_succ_of_le (size_removeEntry_le hremove)
  | pop =>
    obtain ⟨_, hpop, h⟩ := Checked.bind_eq_ok_iff.1 h
    cases h
    exact Nat.le_succ_of_le (size_pop_le hpop)

theorem size_run_le {l' : BucketList K V} {es : List (Event K V)} (h : l.run es = .ok l') :
    l'.size ≤ l.size + es.length := by
  induction es generalizing l with
  | nil =>
    cases h
    exact Nat.le_refl _
  | cons e es ih =>
    obtain ⟨l₁, he, h⟩ := Checked.bind_eq_ok_iff.1 h
    have hstep := size_apply_le he
    have hrest := ih h
    rw [List.length_cons]
    omega

/-- No list on the way has more buckets than 32 bits can count. -/
def Countable (es : List (Event K V)) : Prop :=
  ∀ n l, run {} (es.take n) = .ok l → l.size < 2 ^ 32

theorem countable_of_length_lt {es : List (Event K V)} (h : es.length < 2 ^ 32) :
    Countable es := by
  intro n l hl
  have hsize : l.size ≤ 0 + (es.take n).length := size_run_le hl
  have htake := es.length_take_le' n
  omega

theorem Countable.size_lt {es : List (Event K V)} (h : Countable es) (hl : run {} es = .ok l) :
    l.size < 2 ^ 32 :=
  h es.length l (by rwa [List.take_length])

/-- Whatever was done to a list, the hashes that it keeps are those of its keys; so the only check
a run can fail is that of a position to remove. While 32 bits count the buckets, queries find the
first bucket that answers them, or nothing when none does, and after its removal the next one, if
there is one. -/
theorem lookups_of_run (es : List (Event K V)) :
    (∀ f, run ({} : BucketList K V) es = .error f → f = .positionOutOfRange) ∧
      ∀ l, run {} es = .ok l → l.Canonical ∧ (Countable es → l.Trusts ∧
        ∀ {Q : Type} [HashKey Q] [Equivalent Q K] (q : Hashed Q), l.Serves q) := by
  rcases canonical_empty.run es with ⟨l', hrun, h⟩ | hrun
  · refine ⟨fun f hf => ?_, fun l hl => ?_⟩
    · cases hrun.symm.trans hf
    · cases hrun.symm.trans hl
      exact ⟨h, fun hcount => ⟨h.trusts, h.serves (hcount.size_lt hl)⟩⟩
  · refine ⟨fun f hf => ?_, fun l hl => ?_⟩
    · cases hrun.symm.trans hf
      rfl
    · cases hrun.symm.trans hl

theorem lookups_of_run_duplicate :
    let key : Int32 → String → Hashed TaggedKey := fun number tag => .of ⟨number, ⟨7⟩, ascii tag⟩
    let es : List (Event TaggedKey ℕ) := [.push (key 1 "a") 10, .push (key 1 "b") 20,
      .push (key 2 "c") 30, .sortKeys ⟨List.reverse, List.reverse_perm⟩]
    ∃ l rest, run {} es = .ok l ∧ l.values = [30, 20, 10] ∧
      l.removeEntry (key 1 "d") = .ok (some ((key 1 "b").key, 20), rest) ∧
      rest.indexOf? (key 1 "d") = some 1 := by
  intro key es
  have hexists : ∃ l, run {} es = .ok l ∧ l.values = [30, 20, 10] ∧
      l.buckets.toList[0]? = some ⟨⟨7⟩, (key 2 "c").key, 30⟩ ∧
      l.buckets.toList[1]? = some ⟨⟨7⟩, (key 1 "b").key, 20⟩ ∧
      l.buckets.toList[2]? = some ⟨⟨7⟩, (key 1 "a").key, 10⟩ :=
    ⟨_, rfl, rfl, rfl, rfl, rfl⟩
  obtain ⟨l, hrun, hvalues, hother, hfirst, hnext⟩ := hexists
  have hcount : Countable es := countable_of_length_lt (by decide)
  obtain ⟨-, hserves⟩ := ((lookups_of_run es).2 l hrun).2 hcount
  have hindex : l.indexOf? (key 1 "d") = some 1 := by
    refine ((hserves (key 1 "d")).found 1).2 ⟨Nat.zero_le 1, ⟨_, hfirst, rfl, rfl⟩, ?_⟩
    rintro j b - hj hb ⟨-, hequivalent⟩
    obtain rfl := Nat.lt_one_iff.1 hj
    cases hother.symm.trans hb
    cases hequivalent
  obtain ⟨rest, hremove, -, hrest⟩ := (hserves (key 1 "d")).removed 1 _ hindex hfirst
  refine ⟨l, rest, hrun, hvalues, hremove, (hrest 1).2 ⟨le_rfl, ⟨_, hnext, rfl, rfl⟩, ?_⟩⟩
  intro j b hj hj'
  exact absurd hj' (Nat.not_lt_of_le hj)

end StackCode.BucketList
