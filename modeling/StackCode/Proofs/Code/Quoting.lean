import Mathlib
import StackCode.Code.Arg
import StackCode.Proofs.Digits
import StackCode.Value.Object

/-! Quoted byte strings are read back. A quoted string is read byte by byte up to its closing
quotation mark, wherever it stands in a text, so it cannot be mistaken for another one or for the
beginning of another one. It is printable, and only the marks at its two ends are not escaped. -/
namespace StackCode.Quoted

def backslash : UInt8 := 0x5C

def letters : List (UInt8 × UInt8) :=
  [(mark, mark), (backslash, backslash), (0x6E, 0x0A), (0x72, 0x0D), (0x74, 0x09), (0x30, 0)]

theorem lookup_of_mem_letters {letter b : UInt8} (h : (letter, b) ∈ letters) :
    letters.lookup letter = some b ∧ letter ≠ 0x75 ∧ isControl letter = false := by
  simp only [letters, List.mem_cons, Prod.mk.injEq, List.not_mem_nil, or_false] at h
  rcases h with ⟨rfl, rfl⟩ | ⟨rfl, rfl⟩ | ⟨rfl, rfl⟩ | ⟨rfl, rfl⟩ | ⟨rfl, rfl⟩ | ⟨rfl, rfl⟩ <;>
    decide

theorem encodeByte_cases (b : UInt8) :
    (∃ letter, (letter, b) ∈ letters ∧ encodeByte b = [backslash, letter]) ∨
      encodeByte b = backslash :: 0x75 :: 0x7B :: (hexadecimal b.toNat ++ [0x7D]) ∨
      b ≠ mark ∧ b ≠ backslash ∧ isControl b = false ∧ encodeByte b = [b] := by
  rw [encodeByte]
  split
  · next h => exact .inl ⟨mark, by rw [h]; decide, rfl⟩
  split
  · next h => exact .inl ⟨backslash, by rw [h]; decide, rfl⟩
  split
  · next h => exact .inl ⟨0x6E, by rw [h]; decide, rfl⟩
  split
  · next h => exact .inl ⟨0x72, by rw [h]; decide, rfl⟩
  split
  · next h => exact .inl ⟨0x74, by rw [h]; decide, rfl⟩
  split
  · next h => exact .inl ⟨0x30, by rw [h]; decide, rfl⟩
  split
  · exact .inr (.inl rfl)
  · next hmark hback _ _ _ _ hcontrol =>
    exact .inr (.inr ⟨hmark, hback, Bool.eq_false_iff.2 hcontrol, rfl⟩)

theorem isDigit_of_mem_hexadecimal {n : ℕ} : ∀ b ∈ hexadecimal n, isDigit b = true :=
  isDigit_of_mem_toDigits 16 (by decide) (by decide) n

theorem ne_of_isDigit {b c : UInt8} (hb : isDigit b = true) (hc : isDigit c = false) : b ≠ c := by
  rintro rfl
  rw [hb] at hc
  cases hc

/-- Where a reader stands: between two bytes, behind a backslash, before the brace of a number, or
inside a number that has been read so far. -/
inductive Reading
  | plain
  | escape
  | brace
  | number (n : ℕ)

def readFrom : Reading → ByteString → Option (ByteString × ByteString)
  | _, [] => none
  | .plain, b :: rest =>
    if b = mark then some ([], rest)
    else if b = backslash then readFrom .escape rest
    else (readFrom .plain rest).map (Prod.map (b :: ·) id)
  | .escape, letter :: rest =>
    if letter = 0x75 then readFrom .brace rest
    else (letters.lookup letter).bind fun b => (readFrom .plain rest).map (Prod.map (b :: ·) id)
  | .brace, b :: rest => if b = 0x7B then readFrom (.number 0) rest else none
  | .number n, b :: rest =>
    if b = 0x7D then (readFrom .plain rest).map (Prod.map (n.toUInt8 :: ·) id)
    else readFrom (.number (16 * n + digitValue b)) rest

def decode : ByteString → Option (ByteString × ByteString)
  | [] => none
  | b :: rest => if b = mark then readFrom .plain rest else none

theorem readFrom_number (n : ℕ) {ds : ByteString} (hds : ∀ d ∈ ds, isDigit d = true)
    (rest : ByteString) :
    readFrom (.number n) (ds ++ 0x7D :: rest) =
      (readFrom .plain rest).map (Prod.map ((readDigits 16 n ds).toUInt8 :: ·) id) := by
  induction ds generalizing n with
  | nil => rfl
  | cons d ds ih =>
    rw [List.forall_mem_cons] at hds
    rw [List.cons_append, readFrom, if_neg (ne_of_isDigit hds.1 (by decide)), ih _ hds.2]
    rfl

theorem readFrom_encodeByte (b : UInt8) (rest : ByteString) :
    readFrom .plain (encodeByte b ++ rest) =
      (readFrom .plain rest).map (Prod.map (b :: ·) id) := by
  obtain ⟨letter, hmem, hb⟩ | hb | ⟨hmark, hback, -, hb⟩ := encodeByte_cases b
  · obtain ⟨hlookup, hletter, -⟩ := lookup_of_mem_letters hmem
    rw [hb, List.cons_append, List.singleton_append, readFrom, if_neg (by decide), if_pos rfl,
      readFrom, if_neg hletter, hlookup, Option.bind_some]
  · have hread : readDigits 16 0 (hexadecimal b.toNat) = b.toNat :=
      readDigits_toDigits 16 (by decide) (by decide) b.toNat
    have hnumber := readFrom_number 0 (isDigit_of_mem_hexadecimal (n := b.toNat)) rest
    rw [hread] at hnumber
    simp only [hb, List.cons_append, List.append_assoc, List.nil_append]
    rw [readFrom, if_neg (by decide), if_pos rfl, readFrom, if_pos rfl, readFrom, if_pos rfl,
      hnumber]
    simp
  · rw [hb, List.singleton_append, readFrom, if_neg hmark, if_neg hback]

theorem decode_encode_append (s t : ByteString) : decode (encode s ++ t) = some (s, t) := by
  rw [encode, List.cons_append, decode, if_pos rfl]
  induction s with
  | nil => rfl
  | cons b s ih =>
    rw [List.flatMap_cons, List.append_assoc, List.append_assoc, readFrom_encodeByte,
      ← List.append_assoc, ih]
    rfl

theorem encode_append_inj {s s' t t' : ByteString} (h : encode s ++ t = encode s' ++ t') :
    s = s' ∧ t = t' := by
  have hread := decode_encode_append s t
  rw [h, decode_encode_append] at hread
  cases hread
  exact ⟨rfl, rfl⟩

theorem isControl_of_isDigit {b : UInt8} (h : isDigit b = true) : isControl b = false := by
  simp only [isDigit, isControl, Bool.or_eq_true, Bool.and_eq_true, decide_eq_true_eq,
    UInt8.le_iff_toNat_le, Bool.or_eq_false_iff, decide_eq_false_iff_not, UInt8.lt_iff_toNat_lt,
    beq_eq_false_iff_ne, ne_eq, ← UInt8.toNat_inj, UInt8.reduceToNat] at h ⊢
  omega

theorem isControl_of_mem_encodeByte (b : UInt8) : ∀ c ∈ encodeByte b, isControl c = false := by
  obtain ⟨letter, hmem, hb⟩ | hb | ⟨-, -, hcontrol, hb⟩ := encodeByte_cases b
  · rw [hb, List.forall_mem_cons, List.forall_mem_singleton]
    exact ⟨rfl, (lookup_of_mem_letters hmem).2.2⟩
  · rw [hb, List.forall_mem_cons, List.forall_mem_cons, List.forall_mem_cons,
      List.forall_mem_append, List.forall_mem_singleton]
    exact ⟨rfl, rfl, rfl, fun c hc => isControl_of_isDigit (isDigit_of_mem_hexadecimal c hc), rfl⟩
  · rw [hb, List.forall_mem_singleton]
    exact hcontrol

theorem isControl_of_mem_encode (s : ByteString) : ∀ c ∈ encode s, isControl c = false := by
  rw [encode, List.forall_mem_cons, List.forall_mem_append, List.forall_mem_singleton]
  refine ⟨rfl, fun c hc => ?_, rfl⟩
  obtain ⟨b, -, hb⟩ := List.mem_flatMap.1 hc
  exact isControl_of_mem_encodeByte b c hb

/-- Whether a text ends with a backslash that escapes what comes next. A backslash that is itself
escaped does not. -/
def endsEscaping (x : ByteString) : Bool :=
  x.foldl (fun escaping b => b == backslash && !escaping) false

theorem endsEscaping_concat (x : ByteString) (b : UInt8) :
    endsEscaping (x ++ [b]) = (b == backslash && !endsEscaping x) := by
  rw [endsEscaping, List.foldl_append]
  rfl

theorem endsEscaping_append {x : ByteString} (h : endsEscaping x = false) (y : ByteString) :
    endsEscaping (x ++ y) = endsEscaping y := by
  rw [endsEscaping, List.foldl_append, ← endsEscaping, h, ← endsEscaping]

theorem exists_of_endsEscaping {x : ByteString} (h : endsEscaping x = true) :
    ∃ lead, x = lead ++ [backslash] ∧ endsEscaping lead = false := by
  obtain rfl | ⟨lead, b, rfl⟩ := x.eq_nil_or_concat
  · cases h
  · rw [List.concat_eq_append, endsEscaping_concat, Bool.and_eq_true, beq_iff_eq,
      Bool.not_eq_true'] at h
    obtain ⟨rfl, hlead⟩ := h
    exact ⟨lead, List.concat_eq_append, hlead⟩

theorem endsEscaping_encodeByte (b : UInt8) : endsEscaping (encodeByte b) = false := by
  obtain ⟨letter, -, hb⟩ | hb | ⟨-, hback, -, hb⟩ := encodeByte_cases b
  · rw [hb]
    exact Bool.and_false (letter == backslash)
  · rw [hb]
    exact endsEscaping_concat (_ :: _ :: _ :: _) 0x7D
  · rw [hb]
    exact (endsEscaping_concat [] b).trans (by simp [hback])

theorem endsEscaping_of_encodeByte_eq {b : UInt8} {pre post : ByteString}
    (h : encodeByte b = pre ++ mark :: post) : endsEscaping pre = true := by
  obtain ⟨letter, -, hb⟩ | hb | ⟨hmark, -, -, hb⟩ := encodeByte_cases b
  · rw [hb, List.cons_eq_append_iff] at h
    obtain ⟨-, heq⟩ | ⟨pre, rfl, h⟩ := h
    · cases heq
    -- the mark is the letter behind the backslash, since nothing follows that letter
    · obtain ⟨rfl, -⟩ | ⟨_, -, h⟩ := List.cons_eq_append_iff.1 h
      · rfl
      · simp at h
  · have hmem : mark ∈ hexadecimal b.toNat := by
      have hmem : mark ∈ encodeByte b := by simp [h]
      simpa [hb, mark, backslash] using hmem
    exact absurd rfl (ne_of_isDigit (isDigit_of_mem_hexadecimal _ hmem) (by decide))
  · rw [hb, List.cons_eq_append_iff] at h
    obtain ⟨-, heq⟩ | ⟨_, -, h⟩ := h
    · cases heq
      exact absurd rfl hmark
    · simp at h

theorem endsEscaping_of_flatMap_eq {s pre post : ByteString}
    (h : s.flatMap encodeByte = pre ++ mark :: post) : endsEscaping pre = true := by
  induction s generalizing pre with
  | nil => simp at h
  | cons b s ih =>
    rw [List.flatMap_cons] at h
    -- the mark stands behind the text for the first byte, or inside it
    obtain ⟨pre', rfl, hrest⟩ | ⟨post', hb, hpost⟩ := List.append_eq_append_iff.1 h
    · rw [endsEscaping_append (endsEscaping_encodeByte b)]
      exact ih hrest
    · cases post' with
      | nil => cases (ih hpost.symm : endsEscaping [] = true)
      | cons c post' =>
        cases hpost
        exact endsEscaping_of_encodeByte_eq hb

theorem endsEscaping_of_encode_eq {s pre post : ByteString} (h : encode s = pre ++ mark :: post)
    (hpre : pre ≠ []) (hpost : post ≠ []) : endsEscaping pre = true := by
  obtain ⟨c, pre, rfl⟩ := List.exists_cons_of_ne_nil hpre
  obtain ⟨post, d, rfl⟩ := post.eq_nil_or_concat.resolve_left hpost
  rw [encode, List.cons_append, List.cons.injEq] at h
  obtain ⟨rfl, h⟩ := h
  rw [List.concat_eq_append, ← List.cons_append, ← List.append_assoc] at h
  have hbody := endsEscaping_of_flatMap_eq (List.append_inj_left' h rfl)
  rw [← List.singleton_append, endsEscaping_append rfl, hbody]

/-- A string is written behind a blank, in quotation marks. It is read back from there, whatever
follows; so two strings are written differently, and none as the beginning of another. What is
written is printable, and inside it each mark has a backslash before it that escapes it. -/
theorem decode_of_render {O : Type} [ValueObject O] (s : ByteString) :
    (∀ out, (Leaf.text s : Leaf O).render out = .ok (out ++ ascii " " ++ encode s)) ∧
      (∀ t, decode (encode s ++ t) = some (s, t)) ∧
      (∀ s', encode s = encode s' → s = s') ∧ (∀ s', encode s <+: encode s' → s = s') ∧
      (∀ b ∈ encode s, 0x20 ≤ b ∧ b ≠ 0x7F) ∧
      ∀ pre post, encode s = pre ++ mark :: post → pre ≠ [] → post ≠ [] →
        ∃ lead, pre = lead ++ [backslash] ∧ endsEscaping lead = false := by
  refine ⟨fun _ => rfl, decode_encode_append s, fun s' h => ?_, fun s' ⟨t, ht⟩ => ?_,
    fun b hb => ?_, fun pre post h hpre hpost => ?_⟩
  · exact (encode_append_inj (congrArg (· ++ []) h)).1
  · exact (encode_append_inj (ht.trans (List.append_nil _).symm)).1
  · have hcontrol := isControl_of_mem_encode s b hb
    rw [isControl, Bool.or_eq_false_iff, decide_eq_false_iff_not, UInt8.not_lt,
      beq_eq_false_iff_ne] at hcontrol
    exact hcontrol
  · exact exists_of_endsEscaping (endsEscaping_of_encode_eq h hpre hpost)

theorem decode_of_render_escaped :
    let s : ByteString := [mark, backslash, 0x1F, 0x31, 0xFF]
    let post := ascii "\\\\\\u\x7b1f\x7d1" ++ [0xFF, mark]
    decode (encode s ++ [mark]) = some (s, [mark]) ∧ ¬encode [mark, backslash] <+: encode s ∧
      encode s = [mark, backslash] ++ mark :: post ∧ post ≠ [] ∧
      ∃ lead, [mark, backslash] = lead ++ [backslash] ∧ endsEscaping lead = false := by
  intro s post
  have hencode : encode s = [mark, backslash] ++ mark :: post := by decide
  have hpost : post ≠ [] := by decide
  obtain ⟨-, hread, -, -, -, hescaped⟩ := decode_of_render (O := Object) s
  obtain ⟨-, -, -, hfirst, -⟩ := decode_of_render (O := Object) [mark, backslash]
  exact ⟨hread _, fun h => absurd (hfirst s h) (by decide), hencode, hpost,
    hescaped _ _ hencode (by decide) hpost⟩

end StackCode.Quoted
