import Mathlib
import StackCode.Proofs.BucketList.History
import StackCode.Proofs.IndexTable.Order
import StackCode.Proofs.OrderedMap.Switch

/-! Which of the accepted positions a search finds in a table that was filled one entry after the
other. It is the first one placed. That is the lowest, as in a scan from the front or in a table
built anew, until growth finds the marks of a hash on both sides of the end of the slots: growth
places those beyond the end first, and from then on a search asks about them before the lower
positions. -/
namespace StackCode.IndexTable

variable {slots : Array Slot} {t t' : IndexTable} {hs : List HashCode} {hash hash' : HashCode}

def positions (hs : List HashCode) (hash : HashCode) : List UInt32 :=
  ((entriesOf hs).filter (·.hash = hash)).map Slot.position

def lowest (hs : List HashCode) (hash : HashCode) (good : UInt32 → Bool) : Option UInt32 :=
  (positions hs hash).find? good

theorem mem_positions (hlen : hs.length < 2 ^ 32) {i : UInt32} :
    i ∈ positions hs hash ↔ hs[i.toNat]? = some hash := by
  rw [← exists_mem_entriesOf_iff hlen]
  simp [positions, and_assoc]

theorem pairwise_positions (hlen : hs.length < 2 ^ 32) :
    (positions hs hash).Pairwise (· < ·) := by
  have hall : (entriesOf hs).map Slot.position = (List.range hs.length).map UInt32.ofNat := by
    apply List.ext_getElem (by simp [length_entriesOf])
    intro i hi _
    simp [entriesOf]
  refine List.Pairwise.sublist (List.filter_sublist.map Slot.position) ?_
  rw [hall, List.pairwise_map]
  refine List.pairwise_lt_range.imp_of_mem fun {i j} hi hj hij => ?_
  rw [List.mem_range] at hi hj
  rwa [UInt32.lt_iff_toNat_lt, UInt32.toNat_ofNat_of_lt' (hi.trans hlen),
    UInt32.toNat_ofNat_of_lt' (hj.trans hlen)]

theorem positions_append_singleton (hs : List HashCode) (hash hash' : HashCode) :
    positions (hs ++ [hash]) hash' = positions hs hash' ++
      ([Slot.entry hash (.ofNat hs.length)].filter (·.hash = hash')).map Slot.position := by
  rw [positions, entriesOf_append_singleton, List.filter_append, List.map_append, positions]

theorem find?_eq_lowest (hlen : hs.length < 2 ^ 32) {is : List UInt32}
    (hsorted : is.Pairwise (· ≤ ·)) (hmem : ∀ i : UInt32, i ∈ is ↔ hs[i.toNat]? = some hash)
    (good : UInt32 → Bool) : is.find? good = lowest hs hash good := by
  have hsame : ∀ i, i ∈ is ↔ i ∈ positions hs hash := fun i =>
    (hmem i).trans (mem_positions hlen).symm
  have hpos : (positions hs hash).Pairwise (· ≤ ·) :=
    (pairwise_positions hlen).imp fun hlt => UInt32.le_of_lt hlt
  cases hf : is.find? good with
  | none =>
    rw [List.find?_eq_none] at hf
    exact (List.find?_eq_none.2 fun i hi => hf i ((hsame i).2 hi)).symm
  | some i =>
    have hi : i ∈ positions hs hash := (hsame i).1 (List.mem_of_find?_eq_some hf)
    cases hl : lowest hs hash good with
    | none => exact absurd (List.find?_some hf) (List.find?_eq_none.1 hl i hi)
    | some j =>
      have hj : j ∈ is := (hsame j).2 (List.mem_of_find?_eq_some hl)
      have hij := le_of_find?_of_pairwise hsorted hf hj (List.find?_some hl)
      have hji := le_of_find?_of_pairwise hpos hl hi (List.find?_some hf)
      rw [UInt32.le_antisymm hij hji]

theorem eq_of_find?_eq {is js : List UInt32} (hi : is.Nodup) (hj : js.Nodup)
    (h : ∀ good, is.find? good = js.find? good) : is = js := by
  induction is generalizing js with
  | nil =>
    cases js with
    | nil => rfl
    | cons j js => simpa using h fun _ => true
  | cons i is ih =>
    cases js with
    | nil => simpa using h fun _ => true
    | cons j js =>
      obtain rfl : i = j := by simpa using h fun _ => true
      rw [List.nodup_cons] at hi hj
      rw [ih hi.2 hj.2 fun good => ?_]
      have htail : ∀ {ks : List UInt32}, i ∉ ks →
          (i :: ks).find? (fun k => good k && k != i) = ks.find? good := by
        intro ks hks
        rw [List.find?_cons_of_neg (by simp)]
        refine List.find?_congr fun k hk => ?_
        rw [bne_iff_ne.2 (ne_of_mem_of_not_mem hk hks), Bool.and_true]
      rw [← htail hi.1, ← htail hj.1]
      exact h _

/-- A search for `hash` finds the lowest of the accepted positions with it, whichever these are. -/
def FindsLowest (t : IndexTable) (hs : List HashCode) (hash : HashCode) : Prop :=
  ∀ good : UInt32 → Bool, t.find hash (fun i => .ok (good i)) = .ok (lowest hs hash good)

/-- The positions with `hash` that a search asks about, in turn. -/
def asked (slots : Array Slot) (hash : HashCode) : List UInt32 :=
  (probed slots hash).map Slot.position

theorem find_eq_asked (hc : Chained t.slots) (hv : HasVacancy t.slots) (hash : HashCode)
    (good : UInt32 → Bool) :
    t.find hash (fun i => .ok (good i)) = .ok ((asked t.slots hash).find? good) := by
  have hhome := home_lt hv.size_pos hash
  obtain ⟨k, hk, hr⟩ := exists_run hv hhome
  rw [find, search_eq_searchFrom hv.size_pos, searchFrom_eq hr hk hhome fun _ _ => rfl,
    Checked.map_ok, Search.among_found, candidates_eq_probed hc hr hk.le, asked]

theorem searchFrom_of_none_vacant (hfull : ∀ p < slots.size, Taken slots p) {fuel a : ℕ}
    (ha : a < slots.size) :
    searchFrom slots hash (fun _ => .ok false) fuel a = .error .endlessProbe := by
  induction fuel generalizing a with
  | zero => rfl
  | succ fuel ih =>
    have hrest := ih (next_lt (Nat.zero_lt_of_lt ha) a)
    by_cases hh : (look slots a).hash = hash
    · subst hh
      rw [searchFrom_of_hash (hfull a ha), hrest]
      rfl
    · rw [searchFrom_of_ne_hash (hfull a ha) hh, hrest]

theorem FindsLowest.hasVacancy (h : t.FindsLowest hs hash) (hpos : 0 < t.slots.size) :
    HasVacancy t.slots := by
  by_contra hno
  have hnone := h fun _ => false
  rw [find, search_eq_searchFrom hpos,
    searchFrom_of_none_vacant (taken_of_not_hasVacancy hno) (home_lt hpos hash)] at hnone
  cases hnone

theorem Indexes.asked_nil (h : t.Indexes []) (hash : HashCode) : asked t.slots hash = [] := by
  rw [asked, probed_of_marks_nil (List.perm_nil.1 h.marks_perm), List.map_nil]

theorem nodup_asked (h : t.Keeps (entriesOf hs)) (hv : HasVacancy t.slots)
    (hlen : hs.length < 2 ^ 32) : (asked t.slots hash).Nodup := by
  have hhome := home_lt h.size_pos hash
  have hn : ((marks t.slots).map Slot.tag).Nodup :=
    (h.marks_perm.map Slot.tag).nodup_iff.2 (nodup_tags_entriesOf hlen)
  obtain ⟨k, hk, hr⟩ := exists_run hv hhome
  rw [asked, ← candidates_eq_probed h.chained hr hk.le]
  exact nodup_candidates hn hhome hk hr

theorem Indexes.findsLowest_iff (h : t.Indexes hs) (hlen : hs.length < 2 ^ 31) :
    t.FindsLowest hs hash ↔ asked t.slots hash = positions hs hash := by
  rcases h with ⟨hslots, hzero, rfl⟩ | h
  · refine iff_of_true (fun good => ?_) (Indexes.asked_nil (.inl ⟨hslots, hzero, rfl⟩) hash)
    simp [find, search, hslots, lowest, positions, entriesOf]
  · have hv := h.hasVacancy hlen
    have hfind : t.FindsLowest hs hash ↔
        ∀ good, (asked t.slots hash).find? good = (positions hs hash).find? good := by
      refine forall_congr' fun good => ?_
      rw [find_eq_asked h.keeps.chained hv, Except.ok.injEq, lowest]
    rw [hfind]
    constructor
    · exact eq_of_find?_eq (nodup_asked h.keeps hv (by omega))
        ((pairwise_positions (by omega)).imp fun hlt => UInt32.ne_of_lt hlt)
    · intro heq good
      rw [heq]

theorem append_comm_iff {α : Type} {l l' : List α} (h : (l ++ l').Nodup) :
    l' ++ l = l ++ l' ↔ l = [] ∨ l' = [] := by
  constructor
  · intro heq
    cases l with
    | nil => exact .inl rfl
    | cons a l =>
      cases l' with
      | nil => exact .inr rfl
      | cons b l' =>
        obtain rfl := (List.cons.inj heq).1
        simp at h
  · rintro (rfl | rfl) <;> simp

section Insertion

variable (h : t.Indexes hs) (hi : t.insert hash (.ofNat hs.length) = .ok t')

include h hi

theorem Indexes.asked_of_insert (hg : t.needsGrowth = false) :
    asked t'.slots hash' = positions (hs ++ [hash]) hash' ↔
      asked t.slots hash' = positions hs hash' := by
  have hlen := h.length_le
  rw [asked, probed_of_insert h.chained (ofNat_add_one_ne_zero (by omega)) hg hi, List.map_append,
    positions_append_singleton, asked]
  exact List.append_left_inj _

theorem Indexes.asked_of_insert_of_grows (hg : t.needsGrowth = true)
    (hasked : asked t.slots hash' = positions hs hash') :
    asked t'.slots hash' = positions (hs ++ [hash]) hash' ↔ ¬Straddles t.slots hash' := by
  have hlen := h.length_le
  have hpos : (asked t.slots hash').Nodup := by
    rw [hasked]
    exact (pairwise_positions (by omega)).imp fun hlt => UInt32.ne_of_lt hlt
  rw [asked, probed_eq_append, List.map_append] at hasked hpos
  -- growth swaps the marks on both sides of the end, which is no change just if one side is empty
  rw [asked, probed_of_insert_of_grows (ofNat_add_one_ne_zero (by omega)) hg hi, List.map_append,
    positions_append_singleton, List.append_left_inj, List.map_append, ← hasked,
    append_comm_iff hpos, List.map_eq_nil_iff, List.map_eq_nil_iff, not_straddles_iff]

end Insertion

def inserts (hs : List HashCode) : List Event := hs.mapIdx fun i hash => .insert hash (.ofNat i)

theorem inserts_append_singleton (hs : List HashCode) (hash : HashCode) :
    inserts (hs ++ [hash]) = inserts hs ++ [.insert hash (.ofNat hs.length)] := by
  simp [inserts, List.mapIdx_append]

theorem run_append_singleton (t : IndexTable) (es : List Event) (e : Event) :
    run t (es ++ [e]) = run t es >>= e.apply := by
  induction es generalizing t with
  | nil => exact bind_pure (e.apply t)
  | cons e' es ih =>
    rw [List.cons_append, run, run, bind_assoc]
    exact bind_congr fun t' => ih t'

variable {start : Option UInt32}

theorem run_inserts_append_singleton (start : Option UInt32) (hs : List HashCode)
    (hash : HashCode) :
    run (fresh start) (inserts (hs ++ [hash])) =
      run (fresh start) (inserts hs) >>= (·.insert hash (.ofNat hs.length)) := by
  rw [inserts_append_singleton, run_append_singleton]
  rfl

theorem indexes_of_inserts (h : run (fresh start) (inserts hs) = .ok t) : t.Indexes hs := by
  induction hs using List.reverseRecOn generalizing t with
  | nil =>
    cases h
    exact fresh_indexes start
  | append_singleton hs hash ih =>
    rw [run_inserts_append_singleton] at h
    obtain ⟨t₁, ht₁, hi⟩ := Checked.bind_eq_ok_iff.1 h
    exact .inr ((ih ht₁).of_insert hi)

theorem exists_run_inserts_iff (start : Option UInt32) (hs : List HashCode) :
    (∃ t, run (fresh start) (inserts hs) = .ok t) ↔ hs.length ≤ 2 ^ 31 := by
  refine ⟨fun ⟨t, ht⟩ => (indexes_of_inserts ht).length_le, fun hlen => ?_⟩
  induction hs using List.reverseRecOn with
  | nil => exact ⟨_, rfl⟩
  | append_singleton hs hash ih =>
    rw [List.length_append, List.length_singleton] at hlen
    obtain ⟨t, ht⟩ := ih (by omega)
    obtain ⟨t', ht'⟩ := (indexes_of_inserts ht).insert (by omega) hash
    exact ⟨t', by rw [run_inserts_append_singleton, ht]; exact ht'⟩

/-- Of the tables that these insertions go through, each that grows has the marks with `hash` on one
side of the end of its slots. -/
def GrowsUnsplit (start : Option UInt32) (hs : List HashCode) (hash : HashCode) : Prop :=
  ∀ hs' next t, hs' ++ [next] <+: hs → run (fresh start) (inserts hs') = .ok t →
    t.needsGrowth = true → ¬Straddles t.slots hash

theorem asked_of_inserts (hg : GrowsUnsplit start hs hash)
    (h : run (fresh start) (inserts hs) = .ok t) : asked t.slots hash = positions hs hash := by
  induction hs using List.reverseRecOn generalizing t with
  | nil =>
    cases h
    exact (fresh_indexes start).asked_nil hash
  | append_singleton hs next ih =>
    rw [run_inserts_append_singleton] at h
    obtain ⟨t₁, ht₁, hi⟩ := Checked.bind_eq_ok_iff.1 h
    have hprefix : hs <+: hs ++ [next] := List.prefix_append hs [next]
    have hasked := ih (fun hs' next' t hp => hg hs' next' t (hp.trans hprefix)) ht₁
    have hindexes := indexes_of_inserts ht₁
    cases hgrows : t₁.needsGrowth with
    | false => exact (hindexes.asked_of_insert hi hgrows).2 hasked
    | true =>
      exact (hindexes.asked_of_insert_of_grows hi hgrows hasked).2
        (hg hs next t₁ List.prefix_rfl ht₁ hgrows)

theorem growsUnsplit_of_asked (hlen : hs.length < 2 ^ 31)
    (h : ∀ hs' t, hs' <+: hs → run (fresh start) (inserts hs') = .ok t →
      asked t.slots hash = positions hs' hash) : GrowsUnsplit start hs hash := by
  intro hs' next t hp ht hgrows
  have hindexes := indexes_of_inserts ht
  have hle := hp.length_le
  rw [List.length_append, List.length_singleton] at hle
  obtain ⟨t', hi⟩ := hindexes.insert (by omega) next
  have ht' : run (fresh start) (inserts (hs' ++ [next])) = .ok t' := by
    rw [run_inserts_append_singleton, ht]
    exact hi
  exact (hindexes.asked_of_insert_of_grows hi hgrows
    (h hs' t ((List.prefix_append hs' [next]).trans hp) ht)).1 (h _ t' hp ht')

theorem length_lt_of_findsLowest
    (h : ∀ hs' t, hs' <+: hs → run (fresh start) (inserts hs') = .ok t →
      t.FindsLowest hs' hash) : hs.length < 2 ^ 31 := by
  by_contra hlen
  have htake : (hs.take (2 ^ 31)).length = 2 ^ 31 :=
    List.length_take_of_le (Nat.le_of_not_lt hlen)
  obtain ⟨t, ht⟩ := (exists_run_inserts_iff start (hs.take (2 ^ 31))).2 htake.le
  rcases indexes_of_inserts ht with ⟨-, -, hnil⟩ | hample
  · rw [hnil] at htake
    cases htake
  · have hv := (h _ t (List.take_prefix _ _) ht).hasVacancy hample.keeps.size_pos
    exact absurd (hample.hasVacancy_iff.1 hv) htake.not_lt

theorem findsLowest_of_rebuild {count : UInt32} (h : t.rebuild hs count = .ok t')
    (hash : HashCode) : t'.FindsLowest hs hash := by
  intro good
  obtain ⟨is, his, hsorted, hmem⟩ := search_of_rebuild h hash good fun _ _ => rfl
  have hlen := (length_lt_of_rebuild h).trans (show maxEntries < 2 ^ 32 by decide)
  rw [find, his, Checked.map_ok, Search.among_found, find?_eq_lowest hlen hsorted hmem]

theorem scan_eq_lowest {Q K V : Type} [HashKey Q] [HashKey K] [Equivalent Q K]
    (l : BucketList K V) (q : Hashed Q) (hlen : l.hashes.length < 2 ^ 32) :
    l.indexOf? q =
      (lowest l.hashes q.hash (OrderedMap.accepts l.buckets.toList q)).map UInt32.toNat := by
  have hbuckets : l.buckets.toList.length < 2 ^ 32 := by
    rwa [BucketList.hashes, List.length_map] at hlen
  have hscan := OrderedMap.find_of_pairwise hbuckets (q := q)
    ((pairwise_positions hlen).imp fun hlt => UInt32.le_of_lt hlt)
    fun i => (mem_positions hlen).trans (by
      rw [BucketList.hashes, List.getElem?_map, Option.map_eq_some_iff])
  rw [BucketList.indexOf?_eq_findIdx?]
  exact hscan.symm

/-- Filled one entry after the other, the table finds the lowest position at every length, as a scan
and a table built anew do, just if a slot is left in the end and no growth on the way has split the
marks of the hash. -/
theorem findsLowest_iff_growsUnsplit (start : Option UInt32) (hs : List HashCode)
    (hash : HashCode) :
    ((∃ t, run (fresh start) (inserts hs) = .ok t) ↔ hs.length ≤ 2 ^ 31) ∧
      ((∀ hs' t, hs' <+: hs → run (fresh start) (inserts hs') = .ok t → t.FindsLowest hs' hash) ↔
        hs.length < 2 ^ 31 ∧ GrowsUnsplit start hs hash) ∧
      (∀ t t' count, rebuild t hs count = .ok t' → t'.FindsLowest hs hash) ∧
      ∀ {Q K V : Type} [HashKey Q] [HashKey K] [Equivalent Q K] (l : BucketList K V)
        (q : Hashed Q), l.hashes = hs → q.hash = hash → hs.length < 2 ^ 32 →
          l.indexOf? q =
            (lowest hs hash (OrderedMap.accepts l.buckets.toList q)).map UInt32.toNat := by
  refine ⟨exists_run_inserts_iff start hs, ⟨fun h => ?_, fun ⟨hlen, hg⟩ hs' t hp ht => ?_⟩,
    fun t t' count ht => findsLowest_of_rebuild ht hash, ?_⟩
  · have hlen := length_lt_of_findsLowest h
    refine ⟨hlen, growsUnsplit_of_asked hlen fun hs' t hp ht => ?_⟩
    exact ((indexes_of_inserts ht).findsLowest_iff (hp.length_le.trans_lt hlen)).1 (h hs' t hp ht)
  · refine ((indexes_of_inserts ht).findsLowest_iff (hp.length_le.trans_lt hlen)).2 ?_
    exact asked_of_inserts (fun hs'' next t hp' => hg hs'' next t (hp'.trans hp)) ht
  · rintro Q K V _ _ _ l q rfl rfl hlen
    exact scan_eq_lowest l q hlen

/-- Fourteen entries of one hash, whose home is the last of sixteen slots: the second to the
thirteenth have gone round the end when the table grows, and the first is asked about after them. -/
theorem findsLowest_lost :
    ∃ t, run (fresh none) (inserts (List.replicate 14 ⟨8⟩)) = .ok t ∧
      t.find ⟨8⟩ (fun _ => .ok true) = .ok (some 1) ∧
      lowest (List.replicate 14 ⟨8⟩) ⟨8⟩ (fun _ => true) = some 0 ∧
      ¬t.FindsLowest (List.replicate 14 ⟨8⟩) ⟨8⟩ := by
  have hsecond : (run (fresh none) (inserts (List.replicate 14 ⟨8⟩)) >>= fun t =>
      t.find ⟨8⟩ fun _ => .ok true) = .ok (some 1) := by decide +kernel
  obtain ⟨t, ht, hfind⟩ := Checked.bind_eq_ok_iff.1 hsecond
  have hlowest : lowest (List.replicate 14 ⟨8⟩) ⟨8⟩ (fun _ => true) = some 0 := by decide
  refine ⟨t, ht, hfind, hlowest, fun hlaw => ?_⟩
  have hfirst := hlaw fun _ => true
  rw [hlowest, hfind] at hfirst
  cases hfirst

end StackCode.IndexTable
