import Mathlib
import StackCode.Proofs.Code.Run
import StackCode.Value.Object

/-! Spans of finished programs. The table of spans is in the order of the addresses, for every
instruction has a size and no address wraps; so halving the table finds the span of each address
that has one, and nothing for any other address. -/
namespace StackCode

namespace SpanTable

variable {t : SpanTable} {a : Addr} {first count : ℕ}

def Ascending (t : SpanTable) : Prop := t.toList.Pairwise fun x y => x.1.value < y.1.value

def Below (t : SpanTable) (a : Addr) (n : ℕ) : Prop :=
  ∀ i x, i < n → t[i]? = some x → x.1.value < a.value

def NotBelow (t : SpanTable) (a : Addr) (n : ℕ) : Prop :=
  ∀ i x, n ≤ i → t[i]? = some x → a.value ≤ x.1.value

theorem Ascending.lt (h : t.Ascending) {i j : ℕ} {x y : Addr × CodeSpan} (hij : i < j)
    (hi : t[i]? = some x) (hj : t[j]? = some y) : x.1.value < y.1.value := by
  rw [← Array.getElem?_toList] at hi hj
  obtain ⟨hilt, rfl⟩ := List.getElem?_eq_some_iff.1 hi
  obtain ⟨hjlt, rfl⟩ := List.getElem?_eq_some_iff.1 hj
  exact List.pairwise_iff_getElem.1 h i j hilt hjlt hij

theorem Ascending.below (h : t.Ascending) {n : ℕ} {x : Addr × CodeSpan} (hn : t[n]? = some x)
    (hx : x.1.value < a.value) : t.Below a (n + 1) := by
  intro i y hi hy
  rcases Nat.lt_succ_iff_lt_or_eq.1 hi with hlt | rfl
  · exact UInt32.lt_trans (h.lt hlt hy hn) hx
  · cases hn.symm.trans hy
    exact hx

theorem Ascending.notBelow (h : t.Ascending) {n : ℕ} {x : Addr × CodeSpan} (hn : t[n]? = some x)
    (hx : a.value ≤ x.1.value) : t.NotBelow a n := by
  intro i y hi hy
  rcases Nat.lt_or_eq_of_le hi with hlt | rfl
  · exact UInt32.le_trans hx (UInt32.le_of_lt (h.lt hlt hn hy))
  · cases hn.symm.trans hy
    exact hx

/-- What is known of the entries around the part searched is known at the end around one
position. -/
theorem lowerBound_spec (h : t.Ascending) (hlow : t.Below a first)
    (hhigh : t.NotBelow a (first + count)) :
    t.Below a (lowerBound t a first count) ∧ t.NotBelow a (lowerBound t a first count) := by
  fun_induction lowerBound t a first count with
  | case1 first => exact ⟨hlow, hhigh⟩
  | case2 first count hcount half entry hentry hlt ih =>
    have hsum : first + half + 1 + (count - half - 1) = first + count := by omega
    exact ih (h.below hentry hlt) (by rwa [hsum])
  | case3 first count hcount half entry hentry hlt ih =>
    exact ih hlow (h.notBelow hentry (UInt32.not_lt.1 hlt))
  | case4 first count hcount half hnone ih =>
    refine ih hlow fun i x hi hx => ?_
    rw [Array.getElem?_eq_none_iff] at hnone
    rw [Array.getElem?_eq_none (hnone.trans hi)] at hx
    cases hx

theorem Ascending.find?_eq_some_iff (h : t.Ascending) {s : CodeSpan} :
    t.find? a = some s ↔ (a, s) ∈ t.toList := by
  have hnone : t.Below a 0 := fun i x hi => absurd hi (Nat.not_lt_zero i)
  have hend : t.NotBelow a (0 + t.size) := by
    intro i x hi hx
    rw [Nat.zero_add] at hi
    rw [Array.getElem?_eq_none hi] at hx
    cases hx
  obtain ⟨hlow, hhigh⟩ := lowerBound_spec h hnone hend
  rw [find?]
  generalize lowerBound t a 0 t.size = r at hlow hhigh
  constructor
  · intro hf
    obtain ⟨⟨b, s'⟩, hr, hf⟩ := Option.bind_eq_some_iff.1 hf
    by_cases hb : b = a
    · cases (if_pos hb).symm.trans hf
      rw [← hb, Array.mem_toList_iff]
      exact Array.mem_of_getElem? hr
    · cases (if_neg hb).symm.trans hf
  · intro hmem
    obtain ⟨i, hi⟩ := List.getElem?_of_mem hmem
    rw [Array.getElem?_toList] at hi
    -- the entry of `a` is neither before the position found nor behind it
    have hri : r ≤ i := by
      by_contra hlt
      exact UInt32.lt_irrefl _ (hlow i _ (Nat.lt_of_not_le hlt) hi)
    obtain rfl : r = i := by
      by_contra hne
      obtain ⟨hlt, -⟩ := Array.getElem?_eq_some_iff.1 hi
      have hr : t[r]? = some t[r] := Array.getElem?_eq_getElem (hri.trans_lt hlt)
      have hlt := h.lt (Nat.lt_of_le_of_ne hri hne) hr hi
      exact UInt32.lt_irrefl _ (UInt32.lt_of_lt_of_le hlt (hhigh r _ le_rfl hr))
    rw [hi, Option.bind_eq_bind, Option.bind_some]
    exact if_pos rfl

theorem Ascending.find?_eq_none (h : t.Ascending) (ha : ∀ s, (a, s) ∉ t.toList) :
    t.find? a = none := by
  cases hf : t.find? a with
  | none => rfl
  | some s => exact absurd (h.find?_eq_some_iff.1 hf) (ha s)

end SpanTable

namespace Writer

open Words

variable {O : Type} [ValueObject O] {w w' : Writer O} {es : List (Event O)} {addrs : List Addr}
variable {p : Program O} {a : Addr}

def Event.span? : Event O → Option (Option CodeSpan)
  | .write _ span => some span
  | _ => none

def givenSpans (es : List (Event O)) : List (Option CodeSpan) := es.filterMap Event.span?

def spanEntries (addrs : List Addr) (spans : List (Option CodeSpan)) : List (Addr × CodeSpan) :=
  (addrs.zip spans).filterMap fun x => x.2.map (x.1, ·)

theorem mem_spanEntries {spans : List (Option CodeSpan)} {s : CodeSpan} :
    (a, s) ∈ spanEntries addrs spans ↔ (a, some s) ∈ addrs.zip spans := by
  rw [spanEntries, List.mem_filterMap]
  constructor
  · rintro ⟨⟨b, span⟩, hmem, hspan⟩
    obtain ⟨s', rfl, heq⟩ := Option.map_eq_some_iff.1 hspan
    cases heq
    exact hmem
  · intro hmem
    exact ⟨(a, some s), hmem, rfl⟩

theorem Event.spans_of_apply {e : Event O} {x : Option Addr} (he : e.apply w = .ok (x, w')) :
    x.toList.length = e.span?.toList.length ∧
      w'.spans.toList = w.spans.toList ++ spanEntries x.toList e.span?.toList := by
  obtain ⟨i, span, b, rfl, rfl, hw⟩ | ⟨b, target, rfl, rfl, hw⟩ |
    ⟨target, code, rfl, rfl, -, rfl⟩ := cases_of_apply he
  · obtain ⟨-, code, -, rfl⟩ := write_eq_ok_iff.1 hw
    refine ⟨rfl, ?_⟩
    cases span with
    | none => exact (List.append_nil _).symm
    | some s => exact Array.toList_push
  · obtain ⟨i, -, -, -, rfl⟩ := patch_eq_ok_iff.1 hw
    exact ⟨rfl, (List.append_nil _).symm⟩
  · exact ⟨rfl, (List.append_nil _).symm⟩

theorem spans_of_run (hrun : w.run es = .ok (addrs, w')) :
    addrs.length = (givenSpans es).length ∧
      w'.spans.toList = w.spans.toList ++ spanEntries addrs (givenSpans es) := by
  induction es generalizing w addrs with
  | nil =>
    cases hrun
    exact ⟨rfl, (List.append_nil _).symm⟩
  | cons e es ih =>
    obtain ⟨x, w₁, rest, he, hrest, rfl⟩ := run_cons_eq_ok_iff.1 hrun
    obtain ⟨hlen₁, hspans₁⟩ := Event.spans_of_apply he
    obtain ⟨hlen, hspans⟩ := ih hrest
    have hgiven : givenSpans (e :: es) = e.span?.toList ++ givenSpans es := by
      rw [givenSpans, givenSpans, List.filterMap_cons]
      cases e.span? <;> rfl
    refine ⟨?_, ?_⟩
    · rw [hgiven, List.length_append, List.length_append, hlen₁, hlen]
    · rw [hspans, hspans₁, hgiven, List.append_assoc, spanEntries, spanEntries, spanEntries,
        List.zip_append hlen₁, List.filterMap_append]

theorem pairwise_addrs_of_finish (hrun : run {} es = .ok (addrs, w)) (hfinish : w.finish = .ok p) :
    (addrs ++ [p.endAddr]).Pairwise fun a b => a.value < b.value := by
  obtain ⟨is, hcode, -, haddrs⟩ := run_encodes CodeBuffer.encodes_empty hrun
  obtain ⟨hend, hp⟩ := finish_encodes hcode hfinish
  have hplaced : ((placed (is ++ [.endOfCode w.spans])).map Prod.fst).Pairwise
      fun a b => a.value < b.value :=
    List.pairwise_map.2 (pairwise_placed hp.fits)
  rw [placed_append_singleton, List.map_append, haddrs, ← hend] at hplaced
  exact hplaced

theorem pairwise_spanEntries {spans : List (Option CodeSpan)} (hlen : addrs.length = spans.length)
    (h : addrs.Pairwise fun a b => a.value < b.value) :
    (spanEntries addrs spans).Pairwise fun x y => x.1.value < y.1.value := by
  have hfst : ((addrs.zip spans).map Prod.fst).Pairwise fun a b => a.value < b.value := by
    rwa [List.map_fst_zip hlen.le]
  refine (List.pairwise_map.1 hfst).filterMap _ ?_
  rintro ⟨a, span⟩ ⟨b, span'⟩ hab x hx y hy
  obtain ⟨s, rfl, rfl⟩ := Option.map_eq_some_iff.1 hx
  obtain ⟨s', rfl, rfl⟩ := Option.map_eq_some_iff.1 hy
  exact hab

theorem spans_of_finish (hrun : run {} es = .ok (addrs, w)) (hfinish : w.finish = .ok p) :
    p.spans = .ok w.spans := by
  obtain ⟨is, hcode, -, -⟩ := run_encodes CodeBuffer.encodes_empty hrun
  obtain ⟨hend, hp⟩ := finish_encodes hcode hfinish
  rw [Program.spans, Program.instrAt, hend, hp.instrAt, Checked.ok_bind]
  rfl

/-- A finished program has, for the address that a write returned, the span that the write was
given or none if it was given none; and it has none for any other address, be it the end of the
code, inside an instruction or past the buffer. -/
theorem spanAt_of_finished (hrun : run {} es = .ok (addrs, w)) (hfinish : w.finish = .ok p) :
    addrs.length = (givenSpans es).length ∧ p.endAddr ∉ addrs ∧
      (∀ x ∈ addrs.zip (givenSpans es), p.spanAt x.1 = .ok x.2) ∧
      ∀ a ∉ addrs, p.spanAt a = .ok none := by
  obtain ⟨hlength, hspans⟩ := spans_of_run hrun
  obtain ⟨hrising, -, hend⟩ := List.pairwise_append.1 (pairwise_addrs_of_finish hrun hfinish)
  have htable : w.spans.toList = spanEntries addrs (givenSpans es) := hspans
  have hascending : w.spans.Ascending := by
    rw [SpanTable.Ascending, htable]
    exact pairwise_spanEntries hlength hrising
  have hat : ∀ a, p.spanAt a = .ok (w.spans.find? a) := by
    intro a
    rw [Program.spanAt, spans_of_finish hrun hfinish, Checked.ok_bind, Checked.pure_eq_ok]
  refine ⟨hlength, ?_, ?_, ?_⟩
  · intro hmem
    exact UInt32.lt_irrefl _ (hend _ hmem _ (List.mem_singleton_self _))
  · rintro ⟨a, span⟩ hmem
    rw [hat]
    cases span with
    | some s =>
      rw [hascending.find?_eq_some_iff.2]
      rwa [htable, mem_spanEntries]
    | none =>
      rw [hascending.find?_eq_none]
      intro s hs
      rw [htable, mem_spanEntries] at hs
      -- an address is returned once only
      have hnodup : ((addrs.zip (givenSpans es)).map Prod.fst).Nodup := by
        rw [List.map_fst_zip hlength.le]
        refine hrising.imp ?_
        rintro a b hab rfl
        exact UInt32.lt_irrefl _ hab
      have hsame := List.inj_on_of_nodup_map hnodup hmem hs rfl
      cases hsame
  · intro a ha
    rw [hat, hascending.find?_eq_none]
    intro s hs
    rw [htable, mem_spanEntries] at hs
    exact ha (List.of_mem_zip hs).1

theorem spanAt_of_finished_call :
    let es : List (Event Object) := [.write (.loadLocal ⟨3⟩) (some ⟨0, 1, by decide⟩),
      .write .dup none, .grow 1000, .write (.call {} {}) (some ⟨2, 5, by decide⟩)]
    ∃ addrs w p, run {} es = .ok (addrs, w) ∧ w.finish = .ok p ∧ p.endAddr = ⟨72⟩ ∧
      p.spanAt ⟨0⟩ = .ok (some ⟨0, 1, by decide⟩) ∧ p.spanAt ⟨8⟩ = .ok none ∧
      p.spanAt ⟨16⟩ = .ok (some ⟨2, 5, by decide⟩) ∧ p.spanAt ⟨24⟩ = .ok none ∧
      p.spanAt ⟨72⟩ = .ok none ∧ p.spanAt ⟨4294967295⟩ = .ok none := by
  intro es
  have hexists : ∃ addrs w p, run {} es = .ok (addrs, w) ∧ w.finish = .ok p ∧
      addrs = [⟨0⟩, ⟨8⟩, ⟨16⟩] ∧ p.endAddr = ⟨72⟩ :=
    ⟨_, _, _, rfl, rfl, rfl, rfl⟩
  obtain ⟨addrs, w, p, hrun, hfinish, haddrs, hend⟩ := hexists
  -- asked for are the three instructions, one address inside the call, the end, and one behind it
  obtain ⟨-, -, hgiven, hnone⟩ := spanAt_of_finished hrun hfinish
  rw [haddrs] at hgiven hnone
  refine ⟨addrs, w, p, hrun, hfinish, hend, hgiven _ (.head _), hgiven _ (.tail _ (.head _)),
    hgiven _ (.tail _ (.tail _ (.head _))), hnone _ ?_, hnone _ ?_, hnone _ ?_⟩ <;> decide

end Writer

end StackCode
