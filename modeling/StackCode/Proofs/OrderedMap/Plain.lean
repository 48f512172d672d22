import Mathlib
import StackCode.Proofs.OrderedMap.Lookup

/-! Maps and plain maps. Each operation takes a map and the plain map of its buckets to a map and
the plain map of its buckets, with the same answer; so a run of events has the answers of the same
run on the plain map, however early or late the index comes into being. -/
namespace StackCode

variable {threshold : UInt32} {Q K V : Type} [HashKey K] [BEq K]

namespace PlainMap

variable {l : PlainMap K V}

theorem Distinct.of_sublist (h : l.Distinct) {l' : PlainMap K V} (hs : l'.Sublist l) :
    Distinct l' :=
  List.Pairwise.sublist (hs.map Bucket.key) h

theorem Distinct.of_perm [LawfulKey K] (h : l.Distinct) {l' : PlainMap K V} (hp : l'.Perm l) :
    Distinct l' := by
  refine ((hp.map Bucket.key).pairwise_iff ?_).2 h
  intro k k' hk hk'
  exact hk hk'.symm

omit [HashKey K] [BEq K] in
theorem keys_modify (l : PlainMap K V) (i : ℕ) (value : V) :
    (l.modify i ({ · with value })).map Bucket.key = l.map Bucket.key := by
  apply List.ext_getElem?
  intro j
  rw [List.getElem?_map, List.getElem?_map, List.getElem?_modify]
  cases l[j]? with
  | none => rfl
  | some b => by_cases hij : i = j <;> simp [hij]

theorem Distinct.modify (h : l.Distinct) (i : ℕ) (value : V) :
    Distinct (l.modify i ({ · with value })) := by
  rw [Distinct, keys_modify]
  exact h

theorem Distinct.append (h : l.Distinct) {key : Hashed K} {value : V}
    (hnew : ∀ b ∈ l, ¬Matches b.key key.key) : (l.append key value).Distinct := by
  rw [Distinct, PlainMap.append, List.map_append, List.pairwise_append]
  refine ⟨h, List.pairwise_singleton _ _, ?_⟩
  intro k hk k' hk'
  obtain ⟨b, hb, rfl⟩ := List.mem_map.1 hk
  rw [List.map_singleton, List.mem_singleton] at hk'
  rw [hk']
  exact hnew b hb

end PlainMap

namespace OrderedMap

variable {m : OrderedMap threshold K V} {l : PlainMap K V}

theorem mirrors_empty : Mirrors ({} : OrderedMap threshold K V) [] :=
  ⟨sound_empty, rfl, List.Pairwise.nil⟩

namespace Mirrors

theorem setValue (h : Mirrors m l) (i : ℕ) (value : V) :
    Mirrors (m.setValue i value) (l.modify i ({ · with value })) := by
  refine ⟨setValue_sound h.sound i value, ?_, h.distinct.modify i value⟩
  rw [OrderedMap.setValue, BucketList.setValue, Array.toList_modify, h.buckets]

theorem removeAt (h : Mirrors m l) {i : ℕ} {b : Bucket K V} (hi : l[i]? = some b) :
    ∃ hb m', m.removeAt i = .ok ((⟨b.key, b.hash, hb⟩, b.value), m') ∧
      Mirrors m' (l.eraseIdx i) := by
  rw [← h.buckets] at hi
  obtain ⟨hb, m', hm', hl, hs⟩ := removeAt_sound h.sound hi
  rw [h.buckets] at hl
  exact ⟨hb, m', hm', hs, hl, h.distinct.of_sublist (List.eraseIdx_sublist l i)⟩

theorem pop (h : Mirrors m l) :
    ∃ m', m.pop = .ok (l.getLast?.map Bucket.entry, m') ∧ Mirrors m' l.dropLast := by
  rcases List.eq_nil_or_concat l with rfl | ⟨bs, b, rfl⟩
  · exact ⟨m, pop_empty h.buckets, h⟩
  · rw [List.concat_eq_append] at h ⊢
    obtain ⟨m', hm', hl, hs⟩ := pop_sound h.sound h.buckets
    rw [List.getLast?_concat, List.dropLast_concat]
    exact ⟨m', hm', hs, hl, h.distinct.of_sublist (List.sublist_append_left bs [b])⟩

theorem clear (h : Mirrors m l) : Mirrors m.clear [] :=
  ⟨clear_sound h.sound, rfl, List.Pairwise.nil⟩

theorem reserve (h : Mirrors m l) (additional : UInt32) :
    ∃ m', m.reserve additional = .ok m' ∧ Mirrors m' l := by
  obtain ⟨m', hm', hl, hs⟩ := reserve_sound h.sound additional
  exact ⟨m', hm', hs, by rw [hl, h.buckets], h.distinct⟩

section Lawful

variable [LawfulKey K]

theorem arranged (h : Mirrors m l) (s : BucketList.Arrangement K V) :
    ∃ m', m.arranged s = .ok m' ∧ Mirrors m' (s.arrange l) := by
  obtain ⟨m', hm', hl, hs⟩ := arranged_sound h.sound s
  refine ⟨m', hm', hs, ?_, h.distinct.of_perm (s.perm l)⟩
  rw [hl, BucketList.arranged, h.buckets]

theorem append (h : Mirrors m l) {key : Hashed K} (value : V) (hf : l.find key = none)
    (hlen : l.length + 1 < IndexTable.maxEntries) :
    ∃ m', m.append key value = .ok m' ∧ Mirrors m' (l.append key value) := by
  rw [← h.size_eq] at hlen
  obtain ⟨m', hm', hl, hs⟩ := append_sound h.sound key value hlen
  refine ⟨m', hm', hs, ?_, h.distinct.append ?_⟩
  · rw [hl, BucketList.push, Array.toList_push, h.buckets, PlainMap.append]
  · intro b hb hsame
    have hheld := (h.holds_iff hb key).2 hsame.symm
    rw [PlainMap.not_holds_of_find hf b hb] at hheld
    cases hheld

theorem insertUnchecked (h : Mirrors m l) {key : Hashed K} (value : V) (hf : l.find key = none)
    (hlen : l.length + 1 < IndexTable.maxEntries) :
    ∃ m', m.insertUnchecked key value = .ok m' ∧ Mirrors m' (l.append key value) := by
  obtain ⟨m', hm', hmirrors⟩ := h.append value hf hlen
  refine ⟨m', ?_, hmirrors⟩
  rw [OrderedMap.insertUnchecked, h.contains key, hf]
  exact hm'

theorem put (h : Mirrors m l) (key : Hashed K) (value : V)
    (hlen : (l.put key value).2.length < IndexTable.maxEntries) :
    ∃ m', m.insertHashed key value = .ok ((l.put key value).1, m') ∧
      Mirrors m' (l.put key value).2 := by
  rw [PlainMap.put] at hlen ⊢
  rw [insertHashed, h.indexOf key]
  cases hf : l.find key with
  | none =>
    rw [hf, PlainMap.append, List.length_append, List.length_singleton] at hlen
    obtain ⟨m', hm', hmirrors⟩ := h.insertUnchecked value hf hlen
    refine ⟨m', ?_, hmirrors⟩
    simp only [Checked.ok_bind, hm', Checked.pure_eq_ok]
  | some i =>
    obtain ⟨b, hi, -⟩ := PlainMap.getElem?_of_find hf
    refine ⟨m.setValue i value, ?_, h.setValue i value⟩
    simp only [Checked.ok_bind, bucketAt_of_getElem? h.buckets hi, hi, Checked.pure_eq_ok,
      Option.map_some]
    rfl

theorem offer (h : Mirrors m l) (key : K) (value : V)
    (hlen : (l.offer (.of key) value).2.length < IndexTable.maxEntries) :
    ∃ i v inserted m', m.tryInsert key value = .ok ((i, v, inserted), m') ∧
      (l.offer (.of key) value).1 = .offered i v inserted ∧
      Mirrors m' (l.offer (.of key) value).2 := by
  rw [PlainMap.offer] at hlen ⊢
  rw [tryInsert, h.indexOf (.of key)]
  cases hf : l.find (.of key) with
  | none =>
    rw [hf, PlainMap.append, List.length_append, List.length_singleton] at hlen
    obtain ⟨m', hm', hmirrors⟩ := h.insertUnchecked value hf hlen
    have hlast : m'.size - 1 = l.length := by
      rw [hmirrors.size_eq, PlainMap.append, List.length_append, List.length_singleton,
        Nat.add_sub_cancel]
    have hat : m'.list.bucketAt l.length = .ok ⟨(Hashed.of key).hash, key, value⟩ :=
      bucketAt_of_getElem? hmirrors.buckets List.getElem?_concat_length
    refine ⟨l.length, value, true, m', ?_, rfl, hmirrors⟩
    simp only [Checked.ok_bind, hm', hlast, hat, Checked.pure_eq_ok]
  | some i =>
    obtain ⟨b, hi, -⟩ := PlainMap.getElem?_of_find hf
    refine ⟨i, b.value, false, m, ?_, ?_, h⟩
    · simp only [Checked.ok_bind, bucketAt_of_getElem? h.buckets hi, Checked.pure_eq_ok]
    · simp only [hi, Option.map_some, Option.getD_some]

end Lawful

theorem take [HashKey Q] [Equivalent Q K] [LawfulQuery Q K] (h : Mirrors m l) (q : Hashed Q) :
    ∃ m', m.removeHashed q = .ok ((l.take q).1, m') ∧ Mirrors m' (l.take q).2 := by
  rw [removeHashed, h.indexOf q, PlainMap.take]
  cases hf : l.find q with
  | none => exact ⟨m, rfl, h⟩
  | some i =>
    obtain ⟨b, hi, -⟩ := PlainMap.getElem?_of_find hf
    obtain ⟨hb, m', hm', hmirrors⟩ := h.removeAt hi
    refine ⟨m', ?_, hmirrors⟩
    simp only [Checked.ok_bind, hm', hi, Checked.pure_eq_ok, Option.map_some, Bucket.entry]

end Mirrors

end OrderedMap

namespace Event

variable [HashKey Q] [Equivalent Q K]

/-- Keys said to be absent are absent, and positions are those of entries. -/
def Valid (l : PlainMap K V) : Event Q K V → Prop
  | insertUnchecked key _ => l.find key = none
  | removeAt i => i < l.length
  | _ => True

variable {m : OrderedMap threshold K V} {l : PlainMap K V}

theorem apply_mirrors [LawfulKey K] [LawfulQuery Q K] (h : m.Mirrors l) {e : Event Q K V}
    (hv : e.Valid l) (hlen : (e.plain l).2.length < IndexTable.maxEntries) :
    ∃ m', e.apply m = .ok ((e.plain l).1, m') ∧ m'.Mirrors (e.plain l).2 := by
  cases e with
  | insert key value =>
    obtain ⟨m', hm', hmirrors⟩ := h.put (.of key) value hlen
    exact ⟨m', by rw [apply, OrderedMap.insert, hm']; rfl, hmirrors⟩
  | insertHashed key value =>
    obtain ⟨m', hm', hmirrors⟩ := h.put key value hlen
    exact ⟨m', by rw [apply, hm']; rfl, hmirrors⟩
  | tryInsert key value =>
    obtain ⟨i, v, inserted, m', hm', hanswer, hmirrors⟩ := h.offer key value hlen
    exact ⟨m', by rw [apply, hm', plain, hanswer]; rfl, hmirrors⟩
  | insertUnchecked key value =>
    have hroom : l.length + 1 < IndexTable.maxEntries := by
      rwa [plain, PlainMap.append, List.length_append, List.length_singleton] at hlen
    obtain ⟨m', hm', hmirrors⟩ := h.insertUnchecked value hv hroom
    exact ⟨m', by rw [apply, hm']; rfl, hmirrors⟩
  | remove q =>
    obtain ⟨m', hm', hmirrors⟩ := h.take (.of q)
    exact ⟨m', by rw [apply, OrderedMap.remove, OrderedMap.removeEntry, hm']; rfl, hmirrors⟩
  | removeEntry q =>
    obtain ⟨m', hm', hmirrors⟩ := h.take (.of q)
    exact ⟨m', by rw [apply, OrderedMap.removeEntry, hm']; rfl, hmirrors⟩
  | removeHashed q =>
    obtain ⟨m', hm', hmirrors⟩ := h.take q
    exact ⟨m', by rw [apply, hm']; rfl, hmirrors⟩
  | removeAt i =>
    have hi : l[i]? = some l[i] := List.getElem?_eq_getElem hv
    obtain ⟨hb, m', hm', hmirrors⟩ := h.removeAt hi
    exact ⟨m', by rw [apply, hm', plain, hi]; rfl, hmirrors⟩
  | pop =>
    obtain ⟨m', hm', hmirrors⟩ := h.pop
    exact ⟨m', by rw [apply, hm']; rfl, hmirrors⟩
  | clear => exact ⟨m.clear, rfl, h.clear⟩
  | reserve additional =>
    obtain ⟨m', hm', hmirrors⟩ := h.reserve additional
    exact ⟨m', by rw [apply, hm']; rfl, hmirrors⟩
  | sortKeys s =>
    obtain ⟨m', hm', hmirrors⟩ := h.arranged s
    exact ⟨m', by rw [apply, hm']; rfl, hmirrors⟩
  | get q => exact ⟨m, by rw [apply, OrderedMap.get?, h.get]; rfl, h⟩
  | getHashed q => exact ⟨m, by rw [apply, h.get]; rfl, h⟩
  | getFull q => exact ⟨m, by rw [apply, h.getFull]; rfl, h⟩
  | indexOf q => exact ⟨m, by rw [apply, OrderedMap.indexOf?, h.indexOf]; rfl, h⟩
  | indexOfHashed q => exact ⟨m, by rw [apply, h.indexOf]; rfl, h⟩
  | contains q => exact ⟨m, by rw [apply, OrderedMap.contains, h.contains]; rfl, h⟩
  | containsHashed q => exact ⟨m, by rw [apply, h.contains]; rfl, h⟩
  | find q => exact ⟨m, by rw [apply, h.find]; rfl, h⟩
  | valueAt q => exact ⟨m, by rw [apply, h.valueAt]; rfl, h⟩
  | getIndex i => exact ⟨m, by rw [apply, h.getIndex]; rfl, h⟩
  | first => exact ⟨m, by rw [apply, h.first]; rfl, h⟩
  | last => exact ⟨m, by rw [apply, h.last]; rfl, h⟩

end Event

section Runs

variable [HashKey Q] [Equivalent Q K]

def OrderedMap.run (m : OrderedMap threshold K V) :
    List (Event Q K V) → Checked (List (Answer K V) × OrderedMap threshold K V)
  | [] => .ok ([], m)
  | e :: es => do
    let (answer, m) ← e.apply m
    let (answers, m) ← m.run es
    return (answer :: answers, m)

def PlainMap.run (l : PlainMap K V) : List (Event Q K V) → List (Answer K V) × PlainMap K V
  | [] => ([], l)
  | e :: es =>
    let (answer, l) := e.plain l
    let (answers, l) := PlainMap.run l es
    (answer :: answers, l)

def PlainMap.ValidRun (l : PlainMap K V) : List (Event Q K V) → Prop
  | [] => True
  | e :: es => e.Valid l ∧ (e.plain l).2.length < IndexTable.maxEntries ∧
      PlainMap.ValidRun (e.plain l).2 es

variable [LawfulKey K] [LawfulQuery Q K]

theorem OrderedMap.Mirrors.run {m : OrderedMap threshold K V} {l : PlainMap K V}
    (h : m.Mirrors l) {es : List (Event Q K V)} (hv : l.ValidRun es) :
    ∃ m', m.run es = .ok ((l.run es).1, m') ∧ m'.Mirrors (l.run es).2 := by
  induction es generalizing m l with
  | nil => exact ⟨m, rfl, h⟩
  | cons e es ih =>
    obtain ⟨he, hlen, hrest⟩ := hv
    obtain ⟨m₁, hm₁, h₁⟩ := Event.apply_mirrors h he hlen
    obtain ⟨m', hm', hmirrors⟩ := ih h₁ hrest
    refine ⟨m', ?_, hmirrors⟩
    rw [OrderedMap.run, hm₁]
    simp only [Checked.ok_bind, hm', Checked.pure_eq_ok, PlainMap.run]

/-- A run has the answers and the entries of the plain run, whatever the threshold. -/
theorem OrderedMap.run_eq_plain_run (threshold : UInt32) {es : List (Event Q K V)}
    (h : PlainMap.ValidRun [] es) :
    ∃ m : OrderedMap threshold K V,
      OrderedMap.run {} es = .ok ((PlainMap.run [] es).1, m) ∧
      m.list.buckets.toList = (PlainMap.run [] es).2 ∧
      m.entries = (PlainMap.run [] es).2.map Bucket.entry ∧
      PlainMap.Distinct (PlainMap.run [] es).2 := by
  have hempty : Mirrors ({} : OrderedMap threshold K V) [] := mirrors_empty
  obtain ⟨m, hm, hmirrors⟩ := hempty.run h
  refine ⟨m, hm, hmirrors.buckets, ?_, hmirrors.distinct⟩
  rw [entries, BucketList.entries, hmirrors.buckets]

theorem OrderedMap.run_eq_plain_run_past_threshold :
    ∃ m : OrderedMap 1 TaggedKey UInt32,
      OrderedMap.run {} [.insert ⟨1, ⟨8⟩, [97]⟩ 5, .insert ⟨1, ⟨8⟩, [98]⟩ 6,
          .insert ⟨2, ⟨8⟩, [99]⟩ 7, .getFull ⟨2, ⟨8⟩, []⟩, .removeEntry ⟨1, ⟨8⟩, []⟩,
          .indexOf (⟨2, ⟨8⟩, []⟩ : TaggedKey)] =
        .ok ([.value none, .value (some 5), .value none, .full (some (1, ⟨2, ⟨8⟩, [99]⟩, 7)),
          .entry (some (⟨1, ⟨8⟩, [97]⟩, 6)), .position (some 0)], m) ∧
      m.entries = [(⟨2, ⟨8⟩, [99]⟩, 7)] := by
  have hv : PlainMap.ValidRun [] ([.insert ⟨1, ⟨8⟩, [97]⟩ 5, .insert ⟨1, ⟨8⟩, [98]⟩ 6,
      .insert ⟨2, ⟨8⟩, [99]⟩ 7, .getFull ⟨2, ⟨8⟩, []⟩, .removeEntry ⟨1, ⟨8⟩, []⟩,
      .indexOf ⟨2, ⟨8⟩, []⟩] : List (Event TaggedKey TaggedKey UInt32)) := by
    refine ⟨trivial, ?_, trivial, ?_, trivial, ?_, trivial, ?_, trivial, ?_, trivial, ?_, trivial⟩
    all_goals decide
  obtain ⟨m, hm, -, hentries, -⟩ := OrderedMap.run_eq_plain_run 1 hv
  exact ⟨m, hm, hentries⟩

end Runs

end StackCode
