import Mathlib
import StackCode.Proofs.IndexTable.Lookup

/-! Tables with a past. A run of events starts from a table without entries; the hashes that the
table should hold follow the events on a list of their own, and after the run the table answers
every search from that list. -/
namespace StackCode.IndexTable

variable {t : IndexTable} {hs : List HashCode}

inductive Event
  | insert (hash : HashCode) (position : UInt32)
  | eraseLast (hash : HashCode) (position : UInt32)
  | rebuild (hashes : List HashCode) (count : UInt32)
  | clear

def Event.apply (t : IndexTable) : Event → Checked IndexTable
  | .insert hash position => t.insert hash position
  | .eraseLast hash position => t.eraseLast hash position
  | .rebuild hashes count => t.rebuild hashes count
  | .clear => .ok t.clear

def Event.hashes (hs : List HashCode) : Event → List HashCode
  | .insert hash _ => hs ++ [hash]
  | .eraseLast _ _ => hs.dropLast
  | .rebuild hashes _ => hashes
  | .clear => []

/-- New entries come last, only the last one is erased, and counts are true. -/
def Event.Valid (hs : List HashCode) : Event → Prop
  | .insert _ position => position.toNat = hs.length
  | .eraseLast hash position => hs.getLast? = some hash ∧ position.toNat + 1 = hs.length
  | .rebuild hashes count => count.toNat = hashes.length
  | .clear => True

def run (t : IndexTable) : List Event → Checked IndexTable
  | [] => .ok t
  | e :: es => do run (← e.apply t) es

def hashesAfter (hs : List HashCode) : List Event → List HashCode
  | [] => hs
  | e :: es => hashesAfter (e.hashes hs) es

def ValidRun (hs : List HashCode) : List Event → Prop
  | [] => True
  | e :: es => e.Valid hs ∧ (e.hashes hs).length < maxEntries ∧ ValidRun (e.hashes hs) es

def fresh : Option UInt32 → IndexTable
  | none => {}
  | some count => withCapacity count

theorem fresh_records (start : Option UInt32) : (fresh start).Records (entriesOf []) := by
  cases start with
  | none => exact Or.inl ⟨rfl, rfl, rfl⟩
  | some count => exact Or.inr (reset_holds {} count)

theorem Records.represents {hash : HashCode} (h : t.Records (entriesOf (hs ++ [hash]))) :
    t.Represents (hs ++ [hash]) := by
  rcases h with ⟨-, -, hnil⟩ | h
  · simp [entriesOf] at hnil
  · exact h

theorem Event.apply_records {e : Event} (h : t.Records (entriesOf hs)) (hv : e.Valid hs)
    (hlen : (e.hashes hs).length < maxEntries) :
    ∃ t', e.apply t = .ok t' ∧ t'.Records (entriesOf (e.hashes hs)) := by
  cases e with
  | insert hash position =>
    simp only [Event.hashes, List.length_append, List.length_singleton] at hlen
    obtain rfl : position = .ofNat hs.length := by rw [← hv, UInt32.ofNat_toNat]
    obtain ⟨t', ht', hh⟩ := h.insert hash (ofNat_add_one_ne_zero (hlen.trans (by decide)))
      (by rwa [length_entriesOf])
    exact ⟨t', ht', Or.inr (by rwa [Event.hashes, entriesOf_append_singleton])⟩
  | eraseLast hash position =>
    obtain ⟨hlast, hpos⟩ := hv
    obtain ⟨hs, rfl⟩ := List.getLast?_eq_some_iff.1 hlast
    simp only [Event.hashes, List.dropLast_concat] at hlen ⊢
    rw [List.length_append, List.length_singleton, Nat.add_right_cancel_iff] at hpos
    obtain rfl : position = .ofNat hs.length := by rw [← hpos, UInt32.ofNat_toNat]
    obtain ⟨t', ht', hh⟩ := h.represents.eraseLast (by rw [maxEntries] at hlen; omega)
    exact ⟨t', ht', Or.inr hh⟩
  | rebuild hashes count =>
    obtain rfl : count = .ofNat hashes.length := by
      rw [← show count.toNat = hashes.length from hv, UInt32.ofNat_toNat]
    obtain ⟨t', ht', hh⟩ := rebuild_represents t hlen
    exact ⟨t', ht', Or.inr hh⟩
  | clear => exact ⟨t.clear, rfl, h.clear⟩

theorem run_records {es : List Event} (h : t.Records (entriesOf hs)) (hv : ValidRun hs es) :
    ∃ t', run t es = .ok t' ∧ t'.Records (entriesOf (hashesAfter hs es)) := by
  induction es generalizing t hs with
  | nil => exact ⟨t, rfl, h⟩
  | cons e es ih =>
    obtain ⟨he, hlen, hrest⟩ := hv
    obtain ⟨t₁, ht₁, hh₁⟩ := Event.apply_records h he hlen
    obtain ⟨t', ht', hh⟩ := ih hh₁ hrest
    refine ⟨t', ?_, hh⟩
    simpa [run, ht₁] using ht'

theorem hashesAfter_length_lt {es : List Event} (hlen : hs.length < maxEntries)
    (hv : ValidRun hs es) : (hashesAfter hs es).length < maxEntries := by
  induction es generalizing hs with
  | nil => exact hlen
  | cons e es ih => exact ih hv.2.1 hv.2.2

theorem Records.search (h : t.Records (entriesOf hs)) (hlen : hs.length < 2 ^ 32)
    (hash : HashCode) {accepts : UInt32 → Checked Bool} (good : UInt32 → Bool)
    (hacc : ∀ i : UInt32, hs[i.toNat]? = some hash → accepts i = .ok (good i)) :
    ∃ is : List UInt32, t.search hash accepts = .ok (.among good is) ∧ is.Nodup ∧
      ∀ i : UInt32, i ∈ is ↔ hs[i.toNat]? = some hash := by
  rcases h with ⟨hslots, -, hnil⟩ | h
  · obtain rfl : hs = [] := by simpa [entriesOf] using hnil
    exact ⟨[], by simp [IndexTable.search, hslots, Search.among], List.nodup_nil, by simp⟩
  · exact Represents.search h hlen hash good hacc

/-- After every run a search finds an accepted position with its hash if there is one, and asks
about no other positions and about none of them twice. -/
theorem search_after_run (start : Option UInt32) {es : List Event} (h : ValidRun [] es) :
    ∃ t, run (fresh start) es = .ok t ∧
      t.size.toNat = (hashesAfter [] es).length ∧
      ∀ (hash : HashCode) (good : UInt32 → Bool), ∃ answer : Search,
        t.search hash (fun i => .ok (good i)) = .ok answer ∧
        t.find hash (fun i => .ok (good i)) = .ok answer.found ∧
        (answer.found = none ↔
          ∀ i : UInt32, (hashesAfter [] es)[i.toNat]? = some hash → good i = false) ∧
        (∀ i, answer.found = some i →
          (hashesAfter [] es)[i.toNat]? = some hash ∧ good i = true) ∧
        (∀ i ∈ answer.asked, (hashesAfter [] es)[i.toNat]? = some hash) ∧
        answer.asked.Nodup := by
  obtain ⟨t, ht, hh⟩ := run_records (fresh_records start) h
  have hlen := hashesAfter_length_lt (show ([] : List HashCode).length < maxEntries by decide) h
  refine ⟨t, ht, by rw [hh.size_eq, length_entriesOf], fun hash good => ?_⟩
  obtain ⟨is, his, hnodup, hmem⟩ :=
    hh.search (hlen.trans (by decide)) hash good fun _ _ => rfl
  have hfound := Search.among_found good is
  have hasked := Search.among_asked_prefix good is
  refine ⟨_, his, by rw [IndexTable.find, his]; rfl, ?_, ?_, ?_, ?_⟩
  · rw [hfound, List.find?_eq_none]
    constructor
    · intro hnone i hi
      exact Bool.eq_false_iff.2 (hnone i ((hmem i).2 hi))
    · intro hnone i hi
      exact Bool.eq_false_iff.1 (hnone i ((hmem i).1 hi))
  · intro i hi
    rw [hfound] at hi
    exact ⟨(hmem i).1 (List.mem_of_find?_eq_some hi), List.find?_some hi⟩
  · intro i hi
    exact (hmem i).1 (hasked.subset hi)
  · exact hnodup.sublist hasked.sublist

theorem search_after_run_round_the_end :
    ValidRun [] [.insert ⟨8⟩ 0, .insert ⟨8⟩ 1, .insert ⟨21⟩ 2, .eraseLast ⟨21⟩ 2] ∧
    ∃ t, run (fresh none) [.insert ⟨8⟩ 0, .insert ⟨8⟩ 1, .insert ⟨21⟩ 2, .eraseLast ⟨21⟩ 2] =
        .ok t ∧ t.size.toNat = 2 ∧
      ∃ answer : Search, t.search ⟨8⟩ (fun i => .ok (i == 1)) = .ok answer ∧
        answer.found = some 1 ∧ answer.asked.Nodup := by
  -- the home of all three entries is the last of sixteen slots
  have hv : ValidRun [] [.insert ⟨8⟩ 0, .insert ⟨8⟩ 1, .insert ⟨21⟩ 2, .eraseLast ⟨21⟩ 2] :=
    ⟨rfl, by decide, rfl, by decide, rfl, by decide, ⟨rfl, rfl⟩, by decide, trivial⟩
  obtain ⟨t, ht, hsize, hsearch⟩ := search_after_run none hv
  obtain ⟨answer, hanswer, -, hnone, hsome, -, hnodup⟩ := hsearch ⟨8⟩ (· == 1)
  refine ⟨hv, t, ht, hsize, answer, hanswer, ?_, hnodup⟩
  cases hf : answer.found with
  | none => exact absurd (hnone.1 hf 1 rfl) (by decide)
  | some i =>
    have hi := (hsome i hf).2
    rw [beq_iff_eq.1 hi]

end StackCode.IndexTable
