import Mathlib
import StackCode.Proofs.BucketList.History
import StackCode.Proofs.Key.Spelling
import StackCode.Proofs.OrderedMap.Sorted

/-! Lookups by spelling. A search sees nothing of a query but its hash and the keys that it matches,
so where the spelling settles both, a run answers as if every query were given by its bytes. What is
found is the entry with these bytes: in a map there is one at most, whether it is indexed or not,
and in a bucket list it is the first. -/
namespace StackCode

variable {threshold : UInt32} {Q Q' K V : Type}

section Congruence

variable [HashKey Q] [HashKey Q'] [Equivalent Q K] [Equivalent Q' K]
variable {q : Hashed Q} {q' : Hashed Q'}

theorem BucketList.indexOf?_congr (l : BucketList K V)
    (h : q.hash = q'.hash ∧ ∀ k : K, equivalent q.key k = equivalent q'.key k) :
    l.indexOf? q = l.indexOf? q' := by
  have hholds : ∀ b : Bucket K V, b.holds q = b.holds q' := by
    intro b
    rw [Bucket.holds, Bucket.holds, h.1, h.2]
  rw [indexOf?, indexOf?]
  simp only [hholds]

theorem OrderedMap.indexOfHashed?_congr (m : OrderedMap threshold K V)
    (h : q.hash = q'.hash ∧ ∀ k : K, equivalent q.key k = equivalent q'.key k) :
    m.indexOfHashed? q = m.indexOfHashed? q' := by
  rw [indexOfHashed?, indexOfHashed?, m.list.indexOf?_congr h, h.1]
  simp only [h.2]

end Congruence

namespace Event

variable [HashKey Q] [HashKey Q'] [HashKey K]

def recast (f : Q → Q') : Event Q K V → Event Q' K V
  | insert key value => insert key value
  | insertHashed key value => insertHashed key value
  | tryInsert key value => tryInsert key value
  | insertUnchecked key value => insertUnchecked key value
  | remove q => remove (f q)
  | removeEntry q => removeEntry (f q)
  | removeHashed q => removeHashed (.of (f q.key))
  | removeAt i => removeAt i
  | pop => pop
  | clear => clear
  | reserve additional => reserve additional
  | sortKeys s => sortKeys s
  | get q => get (f q)
  | getHashed q => getHashed (.of (f q.key))
  | getFull q => getFull (f q)
  | indexOf q => indexOf (f q)
  | indexOfHashed q => indexOfHashed (.of (f q.key))
  | contains q => contains (f q)
  | containsHashed q => containsHashed (.of (f q.key))
  | find q => find (f q)
  | valueAt q => valueAt (f q)
  | getIndex i => getIndex i
  | first => first
  | last => last

variable [ByteHash] [BEq K] [Equivalent Q K] [Equivalent Q' K] [Spelled Q] [Spelled Q'] [Spelled K]
variable [SpelledQuery Q K] [SpelledQuery Q' K] {f : Q → Q'}

theorem apply_recast (hf : ∀ q, spelling (f q) = spelling q) (m : OrderedMap threshold K V)
    (e : Event Q K V) : (e.recast f).apply m = e.apply m := by
  have hindex : ∀ q : Hashed Q, m.indexOfHashed? (.of (f q.key)) = m.indexOfHashed? q :=
    fun q => m.indexOfHashed?_congr (SpelledQuery.interchangeable (hf q.key))
  have hof : ∀ q : Q, m.indexOfHashed? (.of (f q)) = m.indexOfHashed? (.of q) :=
    fun q => hindex (.of q)
  cases e with
  | remove q =>
    simp only [recast, apply, OrderedMap.remove, OrderedMap.removeEntry, OrderedMap.removeHashed,
      hof]
  | removeEntry q =>
    simp only [recast, apply, OrderedMap.removeEntry, OrderedMap.removeHashed, hof]
  | removeHashed q => simp only [recast, apply, OrderedMap.removeHashed, hindex]
  | get q => simp only [recast, apply, OrderedMap.get?, OrderedMap.getHashed?, hof]
  | getHashed q => simp only [recast, apply, OrderedMap.getHashed?, hindex]
  | getFull q => simp only [recast, apply, OrderedMap.getFull?, OrderedMap.indexOf?, hof]
  | indexOf q => simp only [recast, apply, OrderedMap.indexOf?, hof]
  | indexOfHashed q => simp only [recast, apply, hindex]
  | contains q => simp only [recast, apply, OrderedMap.contains, OrderedMap.containsHashed, hof]
  | containsHashed q => simp only [recast, apply, OrderedMap.containsHashed, hindex]
  | find q => simp only [recast, apply, OrderedMap.find, OrderedMap.indexOf?, hof]
  | valueAt q =>
    simp only [recast, apply, OrderedMap.valueAt, OrderedMap.get?, OrderedMap.getHashed?, hof]
  | _ => rfl

end Event

theorem OrderedMap.run_recast [ByteHash] [HashKey Q] [HashKey Q'] [HashKey K] [BEq K]
    [Equivalent Q K] [Equivalent Q' K] [Spelled Q] [Spelled Q'] [Spelled K] [SpelledQuery Q K]
    [SpelledQuery Q' K] {f : Q → Q'} (hf : ∀ q, spelling (f q) = spelling q)
    (m : OrderedMap threshold K V) (es : List (Event Q K V)) :
    m.run (es.map (.recast f)) = m.run es := by
  induction es generalizing m with
  | nil => rfl
  | cons e es ih => simp only [List.map_cons, run, Event.apply_recast hf, ih]

theorem Bucket.answers_iff [ByteHash] [HashKey Q] [HashKey K] [Equivalent Q K] [Spelled Q]
    [Spelled K] [SpelledQuery Q K] {b : Bucket K V} (hb : b.hash = hashOf b.key) (q : Hashed Q) :
    b.hash = q.hash ∧ equivalent q.key b.key = true ↔ spelling b.key = spelling q.key := by
  rw [← BucketList.holds_eq_true_iff, Bucket.holds_iff hb, SpelledQuery.matches_iff, eq_comm]

namespace BucketList

variable [HashKey Q] [Equivalent Q K] {l : BucketList K V}

structure Answers (l : BucketList K V) (q : Hashed Q) (found : Option (ℕ × Bucket K V)) : Prop where
  indexOf : l.indexOf? q = found.map Prod.fst
  getFull : l.getFull? q = found.map fun e => (e.1, e.2.entry)

/-- A query finds the first of the buckets with this spelling, at a position that 32 bits can tell,
or none where there are none. -/
structure Retrieves [Spelled K] (l : BucketList K V) (q : Q) (s : ByteString) : Prop where
  narrow : ∀ i, l.indexOf? (.of q) = some i → (UInt32.ofNat i).toNat = i
  present : ∀ i b, l.buckets.toList[i]? = some b → spelling b.key = s →
    (∀ j c, j < i → l.buckets.toList[j]? = some c → spelling c.key ≠ s) →
      l.Answers (.of q) (some (i, b))
  absent : (∀ b ∈ l.buckets.toList, spelling b.key ≠ s) → l.Answers (.of q) none

theorem Canonical.retrieves [ByteHash] [HashKey K] [Spelled Q] [Spelled K] [SpelledQuery Q K]
    (h : l.Canonical) (hsize : l.size < 2 ^ 32) (q : Q) : l.Retrieves q (spelling q) := by
  refine ⟨(h.serves hsize (.of q)).narrow, ?_, ?_⟩
  · intro i b hi hs hleast
    have hindex : l.indexOf? (.of q) = some i := by
      refine indexOf?_eq_some_iff.2 ⟨Nat.zero_le i, ⟨b, hi, ?_⟩, fun j c _ hji hj => ?_⟩
      · exact (Bucket.answers_iff (h b (List.mem_of_getElem? hi)) (.of q)).2 hs
      · rw [Bucket.answers_iff (h c (List.mem_of_getElem? hj))]
        exact hleast j c hji hj
    refine ⟨hindex, getFull?_eq_some_iff.2 ⟨hindex, ?_⟩⟩
    rw [getIndex?, ← Array.getElem?_toList, hi]
    rfl
  · intro hnone
    have hindex : l.indexOf? (.of q) = none := by
      refine indexOf?_eq_none_iff.2 fun b hb => ?_
      rw [Bucket.answers_iff (h b hb)]
      exact hnone b hb
    exact ⟨hindex, getFull?_eq_none_iff.2 hindex⟩

end BucketList

namespace OrderedMap

variable [HashKey Q] [Equivalent Q K] {m : OrderedMap threshold K V} {q : Q}

structure Answers (m : OrderedMap threshold K V) (q : Q) (found : Option (ℕ × Bucket K V)) :
    Prop where
  indexOf : m.indexOf? q = .ok (found.map Prod.fst)
  get : m.get? q = .ok (found.map fun e => e.2.value)
  getFull : m.getFull? q = .ok (found.map fun e => (e.1, e.2.entry))
  contains : m.contains q = .ok found.isSome
  find : m.find q = .ok (found.elim m.endCursor fun e => ⟨e.1⟩)
  valueAt : m.valueAt q = .ok (found.elim (.error .key) fun e => .ok e.2.value)

theorem answers_of_indexOf {found : Option (ℕ × Bucket K V)}
    (hi : m.indexOf? q = .ok (found.map Prod.fst))
    (hfound : ∀ e ∈ found, m.buckets[e.1]? = some e.2) : m.Answers q found := by
  have hhashed : m.indexOfHashed? (.of q) = .ok (found.map Prod.fst) := hi
  have hget : m.get? q = .ok (found.map fun e => e.2.value) := by
    rw [get?, getHashed?, hhashed]
    cases found with
    | none => rfl
    | some e => simp [bucketAt_of_getElem? rfl (hfound e rfl)]
  refine ⟨hi, hget, ?_, ?_, ?_, ?_⟩
  · rw [getFull?, hi]
    cases found with
    | none => rfl
    | some e => simp [bucketAt_of_getElem? rfl (hfound e rfl)]
  · rw [contains, containsHashed, hhashed, Checked.map_ok, Option.isSome_map]
  · rw [find, hi]
    cases found with
    | none => rfl
    | some e => simp [Cursor.start, Cursor.move]
  · rw [valueAt, hget]
    cases found <;> rfl

/-- A query finds the entry with this spelling, the only one, and no other. It finds none where
there is none, and the position that a search of the buckets from the front finds; only an index
without a vacancy may be searched without an end. -/
structure Retrieves [Spelled K] (m : OrderedMap threshold K V) (q : Q) (s : ByteString) :
    Prop where
  present : ∀ i b, m.buckets[i]? = some b → spelling b.key = s → m.Answers q (some (i, b))
  spelled : ∀ i, m.indexOf? q = .ok (some i) → ∃ b, m.buckets[i]? = some b ∧ spelling b.key = s
  absent : (∀ b ∈ m.buckets, spelling b.key ≠ s) → (m.isIndexed = true → m.size < 2 ^ 31) →
    m.Answers q none
  listed : (m.isIndexed = true → m.size < 2 ^ 31) →
    m.indexOf? q = .ok (m.list.indexOf? (.of q))

variable [ByteHash] [HashKey K] [Spelled Q] [Spelled K] [SpelledQuery Q K]

theorem Kept.spelled_of_indexOf (h : m.Kept) {i : ℕ} (hi : m.indexOf? q = .ok (some i)) :
    ∃ b, m.buckets[i]? = some b ∧ spelling b.key = spelling q := by
  rcases h.indexOf (.of q) with ⟨j, b, hj, hb, hheld⟩ | ⟨hmissed, -⟩
  · cases hj.symm.trans hi
    have hcanonical := h.canonical b (List.mem_of_getElem? hb)
    exact ⟨b, hb, (Bucket.answers_iff hcanonical _).1 (BucketList.holds_eq_true_iff.1 hheld)⟩
  · exact absurd hi (hmissed i)

theorem Kept.indexOf_of_spelled [BEq K] [SpelledQuery K K] (h : m.Kept) (hd : m.buckets.Distinct)
    {i : ℕ} {b : Bucket K V} (hi : m.buckets[i]? = some b) (hs : spelling b.key = spelling q) :
    m.indexOf? q = .ok (some i) := by
  have hlawful : LawfulQuery Q K := SpelledQuery.lawful
  have hmem := List.mem_of_getElem? hi
  have hb : b.holds (.of q) = true :=
    BucketList.holds_eq_true_iff.2 ((Bucket.answers_iff (h.canonical b hmem) _).2 hs)
  rcases h.indexOf (.of q) with ⟨j, c, hj, hc, hheld⟩ | ⟨-, hnone⟩
  · obtain rfl := hd.eq_of_holds h.canonical hi hc hb hheld
    exact hj
  · rw [hnone b hmem] at hb
    cases hb

theorem Kept.indexOf_of_not_spelled (h : m.Kept)
    (hnone : ∀ b ∈ m.buckets, spelling b.key ≠ spelling q)
    (hroom : m.isIndexed = true → m.size < 2 ^ 31) : m.indexOf? q = .ok none := by
  obtain ⟨found, hfound⟩ := h.exists_indexOf hroom (.of q)
  cases found with
  | none => exact hfound
  | some i =>
    obtain ⟨b, hb, hs⟩ := h.spelled_of_indexOf hfound
    exact absurd hs (hnone b (List.mem_of_getElem? hb))

theorem Kept.indexOf_eq_list [BEq K] [SpelledQuery K K] (h : m.Kept) (hd : m.buckets.Distinct)
    (hroom : m.isIndexed = true → m.size < 2 ^ 31) (q : Q) :
    m.indexOf? q = .ok (m.list.indexOf? (.of q)) := by
  cases hf : m.list.indexOf? (.of q) with
  | none =>
    refine h.indexOf_of_not_spelled (fun b hb => ?_) hroom
    rw [← Hashed.key_of q, ne_eq, ← Bucket.answers_iff (h.canonical b hb)]
    exact BucketList.indexOf?_eq_none_iff.1 hf b hb
  | some i =>
    obtain ⟨b, hi, hanswers⟩ := (BucketList.indexOf?_eq_some_iff.1 hf).answers
    have hcanonical := h.canonical b (List.mem_of_getElem? hi)
    exact h.indexOf_of_spelled hd hi ((Bucket.answers_iff hcanonical _).1 hanswers)

theorem Served.retrieves [BEq K] [SpelledQuery K K] (h : m.Served) (q : Q) :
    m.Retrieves q (spelling q) := by
  have hlawful : LawfulKey K := SpelledQuery.lawfulKey
  constructor
  · intro i b hi hs
    refine answers_of_indexOf (h.kept.indexOf_of_spelled h.distinct hi hs) ?_
    rintro e ⟨⟩
    exact hi
  · exact fun i hi => h.kept.spelled_of_indexOf hi
  · intro hnone hroom
    refine answers_of_indexOf (h.kept.indexOf_of_not_spelled hnone hroom) ?_
    rintro e ⟨⟩
  · exact fun hroom => h.kept.indexOf_eq_list h.distinct hroom q

end OrderedMap

/-- A byte string asked for in every form: as one that is owned, as a view, and as one that ends at
its first zero. -/
structure TextQuery.EveryForm (R : TextQuery → ByteString → Prop) (s : ByteString) : Prop where
  owned : R (.owned s) s
  view : R (.view s) s
  terminated : R (.terminated s) (untilZero s)
  whole : 0 ∉ s → R (.terminated s) s

theorem TextQuery.everyForm {R : TextQuery → ByteString → Prop} (h : ∀ q, R q (spelling q))
    (s : ByteString) : EveryForm R s where
  owned := h (.owned s)
  view := h (.view s)
  terminated := h (.terminated s)
  whole hzero := by
    have hs : spelling (terminated s) = s := untilZero_eq_self hzero
    have hr := h (.terminated s)
    rwa [hs] at hr

theorem BucketList.canonical_of_run [HashKey K] {es : List (BucketList.Event K V)}
    {l : BucketList K V} (h : run {} es = .ok l) : l.Canonical := by
  rcases canonical_empty.run es with ⟨l', hl', hc⟩ | hfault
  · cases hl'.symm.trans h
    exact hc
  · cases hfault.symm.trans h

/-- Symbols are found by their names and by themselves alike, in maps and in bucket lists; runs that
ask by symbols answer as if they asked by names. -/
structure NamesDecide [ByteHash] (threshold : UInt32) (S V : Type) [HashKey S] [BEq S] [Spelled S]
    [Equivalent ByteString S] (make : ByteString → S) : Prop where
  maps : ∀ m : OrderedMap threshold S V, m.Served →
    ∀ s : ByteString, m.Retrieves s s ∧ m.Retrieves (make s) s
  lists : ∀ (es : List (BucketList.Event S V)) (l : BucketList S V),
    BucketList.Countable es → BucketList.run {} es = .ok l →
      ∀ s : ByteString, l.Retrieves s s ∧ l.Retrieves (make s) s
  runs : ∀ (m : OrderedMap threshold S V) (es : List (Event S S V)),
    m.run (es.map (.recast spelling)) = m.run es
  nameHashes : ∀ (q : ByteString) (k : S), equivalent q k = true → hashOf q = hashOf k
  hashes : ∀ q k : S, equivalent q k = true → hashOf q = hashOf k

theorem namesDecide [ByteHash] {S : Type} [HashKey S] [BEq S] [Spelled S] [Equivalent ByteString S]
    [SpelledQuery ByteString S] [SpelledQuery S S] {make : ByteString → S}
    (hmake : ∀ s, spelling (make s) = s) : NamesDecide threshold S V make where
  maps m h s := by
    have hmade := h.retrieves (make s)
    rw [hmake] at hmade
    exact ⟨h.retrieves s, hmade⟩
  lists es l hcount h s := by
    have hcanonical := BucketList.canonical_of_run h
    have hmade := hcanonical.retrieves (hcount.size_lt h) (make s)
    rw [hmake] at hmade
    exact ⟨hcanonical.retrieves (hcount.size_lt h) s, hmade⟩
  runs := OrderedMap.run_recast fun _ => rfl
  nameHashes _ _ := SpelledQuery.hashOf_eq_of_equivalent
  hashes _ _ := SpelledQuery.hashOf_eq_of_equivalent

/-- Keys that are texts or symbols are found by their bytes, however a query gives these and
wherever the keys are kept; and symbols are the same whether they keep their hash or not. -/
structure SpellingDecides [ByteHash] (threshold : UInt32) (V : Type) : Prop where
  texts : ∀ m : OrderedMap threshold ByteString V, m.Served →
    ∀ s, TextQuery.EveryForm m.Retrieves s
  listedTexts : ∀ (es : List (BucketList.Event ByteString V)) (l : BucketList ByteString V),
    BucketList.Countable es → BucketList.run {} es = .ok l →
      ∀ s, TextQuery.EveryForm l.Retrieves s
  textRuns : ∀ (m : OrderedMap threshold ByteString V) (es : List (Event TextQuery ByteString V)),
    m.run (es.map (.recast spelling)) = m.run es
  textHashes : ∀ (q : TextQuery) (k : ByteString), equivalent q k = true → hashOf q = hashOf k
  symbols : NamesDecide threshold Symbol V Symbol.mk
  hashedSymbols : NamesDecide threshold HashedSymbol V Hashed.of
  mixedRuns : ∀ (m : OrderedMap threshold Symbol V) (es : List (Event SymbolQuery Symbol V)),
    m.run (es.map (.recast spelling)) = m.run es
  equality : ∀ s s' : Symbol, ((.of s.name : HashedSymbol) == .of s'.name) = (s == s')

end StackCode
