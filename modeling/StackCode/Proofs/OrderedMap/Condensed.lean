import Mathlib
import StackCode.Proofs.OrderedMap.Plain

/-! Maps made of lists. A list may name a key more than once: the first time it brings an entry, the
other times a new value for it. So the map has one entry for each class of keys that are the same,
in the order in which the classes first occur in the list, with the key as it first occurs and the
value that comes last, wherever on the way the index comes into being. -/
namespace StackCode

variable {threshold : UInt32} {K V : Type} [HashKey K] [BEq K]

def firsts (entries : List (K × V)) : List (K × V) :=
  (entries.zipIdx.filter fun (e, i) => (entries.take i).all fun e' => ¬Matches e'.1 e.1).map
    Prod.fst

def lastValue (entries : List (K × V)) (e : K × V) : V :=
  ((entries.filter fun e' => Matches e.1 e'.1).getLastD e).2

/-- Each key as it first occurs, in that order, with the value that it has last. -/
def condensed (entries : List (K × V)) : List (K × V) :=
  (firsts entries).map fun e => (e.1, lastValue entries e)

variable {es : List (K × V)} {e : K × V} {k : K}

theorem firsts_append_singleton (es : List (K × V)) (e : K × V) :
    firsts (es ++ [e]) = firsts es ++ if ∀ e' ∈ es, ¬Matches e'.1 e.1 then [e] else [] := by
  have hbefore : es.zipIdx.filter (fun (x, i) =>
        ((es ++ [e]).take i).all fun e' => ¬Matches e'.1 x.1) =
      es.zipIdx.filter fun (x, i) => (es.take i).all fun e' => ¬Matches e'.1 x.1 := by
    refine List.filter_congr ?_
    rintro ⟨x, i⟩ hmem
    have hi : i < es.length := by simpa using List.snd_lt_of_mem_zipIdx hmem
    dsimp only
    rw [List.take_append_of_le_length hi.le]
  have hlast : (([e].zipIdx (0 + es.length)).filter fun (x, i) =>
        ((es ++ [e]).take i).all fun e' => ¬Matches e'.1 x.1) =
      if ∀ e' ∈ es, ¬Matches e'.1 e.1 then [(e, es.length)] else [] := by
    rw [Nat.zero_add, List.zipIdx_singleton, List.filter_singleton]
    dsimp only
    rw [List.take_left, cond_eq_ite]
    simp only [List.all_eq_true, decide_eq_true_eq]
  rw [firsts, firsts, List.zipIdx_append, List.filter_append, hbefore, hlast, List.map_append]
  split <;> rfl

theorem lastValue_append_singleton (es : List (K × V)) (e e' : K × V) :
    lastValue (es ++ [e']) e = if Matches e.1 e'.1 then e'.2 else lastValue es e := by
  rw [lastValue, lastValue, List.filter_append, List.filter_singleton]
  by_cases h : Matches e.1 e'.1 <;> simp [h]

theorem mem_of_mem_firsts (h : e ∈ firsts es) : e ∈ es := by
  obtain ⟨⟨x, i⟩, hmem, rfl⟩ := List.mem_map.1 h
  exact List.fst_mem_of_mem_zipIdx (List.mem_filter.1 hmem).1

theorem length_condensed_le (es : List (K × V)) : (condensed es).length ≤ es.length := by
  rw [condensed, List.length_map, firsts, List.length_map]
  exact (List.length_filter_le _ _).trans_eq List.length_zipIdx

theorem condensed_of_mem (h : ∃ e ∈ es, Matches e.1 k) (v : V) :
    condensed (es ++ [(k, v)]) =
      (condensed es).map fun e => if Matches e.1 k then (e.1, v) else e := by
  have hfirsts : firsts (es ++ [(k, v)]) = firsts es := by
    obtain ⟨e, he, hk⟩ := h
    rw [firsts_append_singleton, if_neg fun hnew => hnew e he hk, List.append_nil]
  rw [condensed, condensed, hfirsts, List.map_map]
  refine List.map_congr_left fun e _ => ?_
  rw [lastValue_append_singleton, Function.comp_apply]
  by_cases hk : Matches e.1 k
  · rw [if_pos hk, if_pos hk]
  · rw [if_neg hk, if_neg hk]

section Lawful

variable [LawfulKey K]

theorem condensed_of_not_mem (h : ∀ e ∈ es, ¬Matches e.1 k) (v : V) :
    condensed (es ++ [(k, v)]) = condensed es ++ [(k, v)] := by
  rw [condensed, firsts_append_singleton, if_pos h, List.map_append, condensed]
  congr 1
  · refine List.map_congr_left fun e he => ?_
    rw [lastValue_append_singleton, if_neg (h e (mem_of_mem_firsts he))]
  · rw [List.map_singleton, lastValue_append_singleton,
      if_pos (LawfulKey.equivalence.refl k)]

theorem exists_mem_firsts (h : e ∈ es) : ∃ e' ∈ firsts es, Matches e'.1 e.1 := by
  induction es using List.reverseRecOn generalizing e with
  | nil => cases h
  | append_singleton es x ih =>
    rw [firsts_append_singleton]
    rcases List.mem_append.1 h with he | he
    · obtain ⟨e', he', hmatches⟩ := ih he
      exact ⟨e', List.mem_append_left _ he', hmatches⟩
    · obtain rfl := List.mem_singleton.1 he
      by_cases hnew : ∀ e' ∈ es, ¬Matches e'.1 e.1
      · rw [if_pos hnew]
        exact ⟨e, List.mem_append_right _ he, LawfulKey.equivalence.refl e.1⟩
      · obtain ⟨e₁, he₁, hmatches₁⟩ : ∃ e' ∈ es, Matches e'.1 e.1 := by
          simpa using hnew
        obtain ⟨e', he', hmatches⟩ := ih he₁
        exact ⟨e', List.mem_append_left _ he',
          LawfulKey.equivalence.trans hmatches hmatches₁⟩

theorem exists_mem_condensed_iff :
    (∃ e ∈ condensed es, Matches e.1 k) ↔ ∃ e ∈ es, Matches e.1 k := by
  constructor
  · rintro ⟨e', he', hk⟩
    obtain ⟨e, he, rfl⟩ := List.mem_map.1 he'
    exact ⟨e, mem_of_mem_firsts he, hk⟩
  · rintro ⟨e, he, hk⟩
    obtain ⟨e', he', hmatches⟩ := exists_mem_firsts he
    exact ⟨_, List.mem_map_of_mem he', LawfulKey.equivalence.trans hmatches hk⟩

end Lawful

namespace PlainMap

variable {l : PlainMap K V}

theorem Distinct.put_eq_map [LawfulKey K] (h : l.Distinct) (hc : l.Canonical) {key : Hashed K}
    {b : Bucket K V} (hb : b ∈ l) (hk : Matches b.key key.key) (value : V) :
    (l.put key value).2 =
      l.map fun b => if Matches b.key key.key then { b with value := value } else b := by
  obtain ⟨i, hi⟩ := List.getElem?_of_mem hb
  have hfind : ∀ {j}, l.find key = some j ↔ ∃ c, l[j]? = some c ∧ Matches c.key key.key := by
    intro j
    rw [h.find_eq_some_iff hc]
    exact exists_congr fun c => and_congr_right' ⟨Matches.symm, Matches.symm⟩
  have hf := hfind.2 ⟨b, hi, hk⟩
  rw [put, hf]
  apply List.ext_getElem?
  intro j
  rw [List.getElem?_modify, List.getElem?_map]
  cases hj : l[j]? with
  | none => rfl
  | some c =>
    rw [Option.map_eq_map, Option.map_some, Option.map_some, Option.some_inj]
    by_cases hij : i = j
    · subst hij
      obtain rfl : b = c := Option.some_inj.1 (hi.symm.trans hj)
      rw [if_pos rfl, if_pos hk]
    · have hne : ¬Matches c.key key.key := fun hmatches =>
        hij (Option.some_inj.1 (hf.symm.trans (hfind.2 ⟨c, hj, hmatches⟩)))
      rw [if_neg hij, if_neg hne]

theorem Canonical.put_eq_append [LawfulKey K] (hc : l.Canonical) {key : Hashed K}
    (hnew : ∀ b ∈ l, ¬Matches b.key key.key) (value : V) :
    (l.put key value).2 = l.append key value := by
  have hf : l.find key = none :=
    hc.find_eq_none_iff.2 fun b hb hmatches => hnew b hb hmatches.symm
  rw [put, hf]

theorem entries_put [LawfulKey K] (h : l.Distinct) (hc : l.Canonical)
    (hl : l.map Bucket.entry = condensed es) (k : K) (v : V) :
    (l.put (.of k) v).2.map Bucket.entry = condensed (es ++ [(k, v)]) := by
  have hbuckets : (∃ b ∈ l, Matches b.key k) ↔ ∃ e ∈ es, Matches e.1 k := by
    rw [← exists_mem_condensed_iff, ← hl]
    constructor
    · rintro ⟨b, hb, hk⟩
      exact ⟨b.entry, List.mem_map_of_mem hb, hk⟩
    · rintro ⟨_, he, hk⟩
      obtain ⟨b, hb, rfl⟩ := List.mem_map.1 he
      exact ⟨b, hb, hk⟩
  by_cases hmem : ∃ b ∈ l, Matches b.key k
  · rw [condensed_of_mem (hbuckets.1 hmem), ← hl, List.map_map]
    obtain ⟨b, hb, hk⟩ := hmem
    rw [h.put_eq_map hc hb hk, List.map_map]
    exact List.map_congr_left fun c _ => apply_ite Bucket.entry _ _ _
  · have hnew : ∀ b ∈ l, ¬Matches b.key k := fun b hb hk => hmem ⟨b, hb, hk⟩
    rw [condensed_of_not_mem fun e he hk => hmem (hbuckets.2 ⟨e, he, hk⟩),
      hc.put_eq_append hnew, append, List.map_append, hl]
    rfl

end PlainMap

namespace OrderedMap

variable [LawfulKey K] {m : OrderedMap threshold K V} {l : PlainMap K V}

theorem Mirrors.insertAll (h : m.Mirrors l) (hl : l.map Bucket.entry = condensed es)
    (rest : List (K × V)) (hlen : es.length + rest.length < IndexTable.maxEntries) :
    ∃ m' l', m.insertAll rest = .ok m' ∧ m'.Mirrors l' ∧
      l'.map Bucket.entry = condensed (es ++ rest) := by
  -- On what is left of the list; `es` is what has been read, and the map holds it condensed.
  induction rest generalizing m l es with
  | nil => exact ⟨m, l, rfl, h, by rwa [List.append_nil]⟩
  | cons e rest ih =>
    obtain ⟨k, v⟩ := e
    rw [List.length_cons] at hlen
    have hput := PlainMap.entries_put h.distinct (h.buckets ▸ h.sound.canonical) hl k v
    have hroom : (l.put (.of k) v).2.length < IndexTable.maxEntries := by
      have hle := length_condensed_le (es ++ [(k, v)])
      rw [← hput, List.length_map, List.length_append, List.length_singleton] at hle
      omega
    obtain ⟨m₁, hm₁, h₁⟩ := h.put (.of k) v hroom
    have hrest : (es ++ [(k, v)]).length + rest.length < IndexTable.maxEntries := by
      rw [List.length_append, List.length_singleton]
      omega
    obtain ⟨m', l', hm', h', hl'⟩ := ih h₁ hput hrest
    refine ⟨m', l', ?_, h', by rwa [List.append_assoc, List.singleton_append] at hl'⟩
    rw [OrderedMap.insertAll, OrderedMap.insert, hm₁]
    exact hm'

theorem Mirrors.existsUnique (h : m.Mirrors l) (hl : l.map Bucket.entry = condensed es)
    (he : e ∈ es) : ∃! i : ℕ, ∃ e' : K × V, (condensed es)[i]? = some e' ∧ Matches e'.1 e.1 := by
  have hfind : ∀ i, (∃ e' : K × V, (condensed es)[i]? = some e' ∧ Matches e'.1 e.1) ↔
      l.find (.of e.1) = some i := by
    intro i
    rw [h.distinct.find_eq_some_iff (h.buckets ▸ h.sound.canonical), ← hl, List.getElem?_map]
    constructor
    · rintro ⟨_, hentry, hk⟩
      obtain ⟨b, hi, rfl⟩ := Option.map_eq_some_iff.1 hentry
      exact ⟨b, hi, hk.symm⟩
    · rintro ⟨b, hi, hk⟩
      exact ⟨b.entry, by rw [hi, Option.map_some], hk.symm⟩
  obtain ⟨e', he', hk⟩ := exists_mem_condensed_iff.2 ⟨e, he, LawfulKey.equivalence.refl e.1⟩
  obtain ⟨i, hi⟩ := List.getElem?_of_mem he'
  refine ⟨i, ⟨e', hi, hk⟩, fun j hj => ?_⟩
  have hf := (hfind i).1 ⟨e', hi, hk⟩
  exact Option.some_inj.1 (((hfind j).1 hj).symm.trans hf)

/-- A map made of a list, whether room is made first or not, has the entries of the condensed list:
one for each class of keys that are the same, and none besides. -/
theorem ofList_eq_condensed (threshold : UInt32) {es : List (K × V)}
    (hlen : es.length < IndexTable.maxEntries) :
    ∃ m m' : OrderedMap threshold K V, ofList es = .ok m ∧ ofSizedList es = .ok m' ∧
      m.entries = condensed es ∧ m'.entries = condensed es ∧
      (∀ e ∈ es, ∃! i : ℕ, ∃ e' : K × V, (condensed es)[i]? = some e' ∧ Matches e'.1 e.1) ∧
      ∀ e' ∈ condensed es, ∃ e ∈ es, Matches e'.1 e.1 := by
  have hempty : Mirrors ({} : OrderedMap threshold K V) [] := mirrors_empty
  have hroom : ([] : List (K × V)).length + es.length < IndexTable.maxEntries := by
    rwa [List.length_nil, Nat.zero_add]
  obtain ⟨m, l, hm, h, hl⟩ := hempty.insertAll rfl es hroom
  obtain ⟨m₀, hm₀, h₀⟩ := hempty.reserve (.ofNat es.length)
  obtain ⟨m', l', hm', h', hl'⟩ := h₀.insertAll rfl es hroom
  refine ⟨m, m', hm, ?_, h.entries_eq.trans hl, h'.entries_eq.trans hl',
    fun e he => h.existsUnique hl he, fun e' he' => ?_⟩
  · rw [ofSizedList, withCapacity, hm₀]
    exact hm'
  · obtain ⟨e, he, hk⟩ := exists_mem_condensed_iff.1 ⟨e', he', LawfulKey.equivalence.refl e'.1⟩
    exact ⟨e, he, hk.symm⟩

theorem ofList_eq_condensed_past_threshold :
    ∃ m m' : OrderedMap 2 TaggedKey UInt32,
      ofList [(⟨1, ⟨8⟩, [97]⟩, 5), (⟨2, ⟨8⟩, [98]⟩, 6), (⟨1, ⟨8⟩, [99]⟩, 7), (⟨3, ⟨8⟩, []⟩, 8),
        (⟨2, ⟨8⟩, []⟩, 9), (⟨1, ⟨9⟩, []⟩, 10)] = .ok m ∧
      ofSizedList [(⟨1, ⟨8⟩, [97]⟩, 5), (⟨2, ⟨8⟩, [98]⟩, 6), (⟨1, ⟨8⟩, [99]⟩, 7),
        (⟨3, ⟨8⟩, []⟩, 8), (⟨2, ⟨8⟩, []⟩, 9), (⟨1, ⟨9⟩, []⟩, 10)] = .ok m' ∧
      m.entries = [(⟨1, ⟨8⟩, [97]⟩, 7), (⟨2, ⟨8⟩, [98]⟩, 9), (⟨3, ⟨8⟩, []⟩, 8),
        (⟨1, ⟨9⟩, []⟩, 10)] ∧ m'.entries = m.entries := by
  have hlen : ([(⟨1, ⟨8⟩, [97]⟩, 5), (⟨2, ⟨8⟩, [98]⟩, 6), (⟨1, ⟨8⟩, [99]⟩, 7), (⟨3, ⟨8⟩, []⟩, 8),
      (⟨2, ⟨8⟩, []⟩, 9), (⟨1, ⟨9⟩, []⟩, 10)] : List (TaggedKey × UInt32)).length <
        IndexTable.maxEntries := by decide
  obtain ⟨m, m', hm, hm', hentries, hentries', -⟩ := ofList_eq_condensed 2 hlen
  exact ⟨m, m', hm, hm', hentries.trans rfl, hentries'.trans hentries.symm⟩

end OrderedMap

end StackCode
