import Mathlib
import StackCode.Proofs.Code.Buffer
import StackCode.Value.Object

/-! The room in a buffer. It is kept in words and told in bytes, and from `2 ^ 29` words on 32 bits
do not hold the number of bytes. A target close to the greatest that is accepted is rounded up to
so many words, and twice `2 ^ 28` words are as many; in every run without such a growth, the room
told is enough for what was asked for and for what the buffer holds, and never less than before.
After one, the doubling may wrap to nothing, and the words have no room in the new block. -/
namespace StackCode.CodeBuffer

open Words

variable {O : Type} [ValueObject O] {b b' : CodeBuffer O} {is : List (Instr O)} {n : ℕ}

/-- The bytes of all words can be counted. -/
def Counted (b : CodeBuffer O) : Prop := Opcode.wordBytes * b.capacityWords.toNat < 2 ^ 32

theorem Counted.toNat_capacityBytes (h : b.Counted) :
    b.capacityBytes.toNat = Opcode.wordBytes * b.capacityWords.toNat := by
  rw [CodeBuffer.toNat_capacityBytes, Nat.mod_eq_of_lt h]

theorem Counted.size_le (hc : b.Counted) (h : b.Encodes is) : b.sizeBytes ≤ b.capacityBytes := by
  rw [UInt32.le_iff_toNat_le, h.toNat_sizeBytes, hc.toNat_capacityBytes]
  exact Nat.mul_le_mul_left _ h.held

theorem capacityBytes_congr (h : b'.capacityWords = b.capacityWords) :
    b'.capacityBytes = b.capacityBytes := by
  rw [capacityBytes, h, capacityBytes]

theorem reserve_of_le (h : n ≤ b.capacityBytes.toNat) : b.reserve n = .ok b := by
  rw [CodeBuffer.reserve, if_pos h]
  rfl

theorem Encodes.words_of_reserve (h : b.Encodes is) (hr : b.reserve n = .ok b') :
    b'.words = b.words :=
  (h.reserve hr).1.words_eq.trans h.words_eq.symm

theorem Encodes.cases_of_reserve (h : b.Encodes is) (hr : b.reserve n = .ok b') :
    n ≤ b.capacityBytes.toNat ∧ b' = b ∨
      b.capacityBytes.toNat < n ∧ n ≤ maxBytes ∧
        b' = { b with capacityWords := b.grownWords n } := by
  rw [h.reserve_eq] at hr
  split_ifs at hr with hroom hmax hheld
  · cases hr
    exact .inl ⟨hroom, rfl⟩
  · cases hr
    exact .inr ⟨Nat.lt_of_not_le hroom, hmax, rfl⟩

theorem Counted.grownWords_cases (h : b.Counted) (hn : n ≤ maxBytes) :
    b.capacityWords.toNat * 2 ≤ (b.grownWords n).toNat ∧
      ((b.grownWords n).toNat = (n + 7) / 8 ∨
        (b.grownWords n).toNat = b.capacityWords.toNat * 2 ∨ (b.grownWords n).toNat = 32) := by
  rw [Counted, Opcode.wordBytes] at h
  rw [maxBytes] at hn
  have hasked : (UInt32.ofNat ((n + 7) / 8)).toNat = (n + 7) / 8 :=
    UInt32.toNat_ofNat_of_lt' (by rw [UInt32.size]; omega)
  have htwice : (b.capacityWords * 2).toNat = b.capacityWords.toNat * 2 := by
    rw [UInt32.toNat_mul]
    exact Nat.mod_eq_of_lt (by change b.capacityWords.toNat * 2 < 2 ^ 32; omega)
  have hleast : minCapacityWords.toNat = 32 := rfl
  rw [grownWords, UInt32.toNat_max, UInt32.toNat_max, hasked, htwice, hleast]
  omega

/-- What is told after a call is enough, and no less than before. -/
def Follows (b : CodeBuffer O) (target : ℕ) (b' : CodeBuffer O) : Prop :=
  target ≤ b'.capacityBytes.toNat ∧ b.capacityBytes ≤ b'.capacityBytes

/-- A call within the room there is, or one for which the room can grow and still be counted. -/
def Moderate (b : CodeBuffer O) (target : ℕ) : Prop :=
  target ≤ b.capacityBytes.toNat ∨ target ≤ 2 ^ 32 - 8 ∧ b.capacityWords.toNat < 2 ^ 28

structure Sound (b : CodeBuffer O) : Prop where
  encodes : ∃ is, b.Encodes is
  counted : b.Counted

theorem sound_empty : Sound ({} : CodeBuffer O) := ⟨⟨[], encodes_empty⟩, Nat.two_pow_pos 32⟩

namespace Sound

theorem counted_iff_moderate (h : b.Sound) (hr : b.reserve n = .ok b') :
    b'.Counted ↔ b.Moderate n := by
  obtain ⟨is, his⟩ := h.encodes
  rcases his.cases_of_reserve hr with ⟨hle, rfl⟩ | ⟨hlt, hmax, rfl⟩
  · exact iff_of_true h.counted (.inl hle)
  · have hasked := b.le_grownWords hmax
    obtain ⟨htwice, hgrown⟩ := h.counted.grownWords_cases hmax
    rw [Counted, Moderate, Opcode.wordBytes]
    simp only
    omega

theorem follows_iff (h : b.Sound) (hr : b.reserve n = .ok b') : b.Follows n b' ↔ b'.Counted := by
  obtain ⟨is, his⟩ := h.encodes
  rcases his.cases_of_reserve hr with ⟨hle, rfl⟩ | ⟨hlt, hmax, rfl⟩
  · exact iff_of_true ⟨hle, UInt32.le_refl _⟩ h.counted
  · have hasked := b.le_grownWords hmax
    obtain ⟨htwice, hgrown⟩ := h.counted.grownWords_cases hmax
    have hbefore := h.counted.toNat_capacityBytes
    have hafter := CodeBuffer.toNat_capacityBytes { b with capacityWords := b.grownWords n }
    have hcounted := h.counted
    rw [Counted, Opcode.wordBytes] at hcounted
    rw [maxBytes] at hmax
    rw [Opcode.wordBytes] at hbefore hafter
    rw [Follows, Counted, UInt32.le_iff_toNat_le, hbefore, hafter, Opcode.wordBytes]
    -- words that cannot be counted are 2 ^ 29, of which nothing is told, or twice those before
    simp only
    omega

theorem reserve_ok_or (h : b.Sound) (n : ℕ) :
    (∃ b', b.reserve n = .ok b') ∨ b.reserve n = .error .bufferTooLarge := by
  obtain ⟨is, his⟩ := h.encodes
  rw [his.reserve_eq]
  split_ifs with hroom hmax hheld
  · exact .inl ⟨_, rfl⟩
  · exact .inl ⟨_, rfl⟩
  · -- twice as many words as there are hold those that there are
    have htwice := (h.counted.grownWords_cases hmax).1
    have hless := his.held
    omega
  · exact .inr rfl

theorem moderate_of_le (h : b.Sound) (ht : n ≤ 2 ^ 31) : b.Moderate n := by
  have hcap := h.counted.toNat_capacityBytes
  rw [Opcode.wordBytes] at hcap
  by_cases hle : n ≤ b.capacityBytes.toNat
  · exact .inl hle
  · exact .inr ⟨by omega, by omega⟩

end Sound

inductive Event (O : Type) [ValueObject O]
  | emplace (i : Instr O)
  | reserve (target : ℕ)

namespace Event

def apply (b : CodeBuffer O) : Event O → Checked (CodeBuffer O)
  | emplace i => do return (← b.emplace i).2
  | reserve target => b.reserve target

def target (b : CodeBuffer O) : Event O → ℕ
  | emplace i => b.sizeBytes.toNat + i.size.toNat
  | reserve target => target

end Event

def emplaced : List (Event O) → List (Instr O)
  | [] => []
  | .emplace i :: es => i :: emplaced es
  | .reserve _ :: es => emplaced es

theorem emplaced_cons (e : Event O) (es : List (Event O)) :
    emplaced (e :: es) = emplaced [e] ++ emplaced es := by
  cases e <;> rfl

def run (b : CodeBuffer O) : List (Event O) → Checked (CodeBuffer O)
  | [] => .ok b
  | e :: es => do run (← e.apply b) es

/-- What holds of every call: of the buffer before, the target, and the outcome. -/
def Throughout (P : CodeBuffer O → ℕ → Checked (CodeBuffer O) → Prop) (b : CodeBuffer O) :
    List (Event O) → Prop
  | [] => True
  | e :: es => P b (e.target b) (e.apply b) ∧ ∀ b', e.apply b = .ok b' → Throughout P b' es

/-- A call that is not refused comes to an end within its block, leaves room as asked and no less
than before, and what is told covers what is held. -/
def Roomy (b : CodeBuffer O) (target : ℕ) (outcome : Checked (CodeBuffer O)) : Prop :=
  outcome ≠ .error .bufferTooLarge →
    ∃ b', outcome = .ok b' ∧ b.Follows target b' ∧ b'.sizeBytes ≤ b'.capacityBytes

def Modest (b : CodeBuffer O) (target : ℕ) (outcome : Checked (CodeBuffer O)) : Prop :=
  outcome ≠ .error .bufferTooLarge → b.Moderate target

theorem Encodes.apply (h : b.Encodes is) (e : Event O) :
    (∃ roomy b', b.reserve (e.target b) = .ok roomy ∧ e.apply b = .ok b' ∧
      b'.capacityWords = roomy.capacityWords ∧ b'.Encodes (is ++ emplaced [e])) ∨
    ∃ f, b.reserve (e.target b) = .error f ∧ e.apply b = .error f := by
  cases hr : b.reserve (e.target b) with
  | error f =>
    refine .inr ⟨f, rfl, ?_⟩
    cases e with
    | emplace i =>
      change b.reserve (b.sizeBytes.toNat + i.size.toNat) = .error f at hr
      rw [Event.apply, CodeBuffer.emplace, hr]
      rfl
    | reserve target => exact hr
  | ok roomy =>
    cases e with
    | emplace i =>
      change b.reserve (b.sizeBytes.toNat + i.size.toNat) = .ok roomy at hr
      have he : b.emplace i =
          .ok (⟨b.sizeBytes⟩, { roomy with words := roomy.words ++ ofInstr i }) := by
        rw [CodeBuffer.emplace, hr]
        rfl
      exact .inl ⟨roomy, { roomy with words := roomy.words ++ ofInstr i }, rfl,
        by rw [Event.apply, he]; rfl, rfl, (h.emplace he).2⟩
    | reserve target =>
      refine .inl ⟨roomy, roomy, rfl, hr, rfl, ?_⟩
      rw [emplaced, emplaced, List.append_nil]
      exact (h.reserve hr).1

theorem Sound.apply (h : b.Sound) (e : Event O) :
    e.apply b = .error .bufferTooLarge ∨
      ∃ b', e.apply b = .ok b' ∧ (b.Follows (e.target b) b' ↔ b'.Counted) ∧
        (b'.Counted ↔ b.Moderate (e.target b)) ∧ ∃ is, b'.Encodes is := by
  obtain ⟨is, his⟩ := h.encodes
  rcases his.apply e with ⟨roomy, b', hroomy, he, hwords, hcode⟩ | ⟨f, hrefused, he⟩
  · have hfollows := h.follows_iff hroomy
    have hmoderate := h.counted_iff_moderate hroomy
    rw [Follows, ← capacityBytes_congr hwords] at hfollows
    rw [Counted, ← hwords] at hfollows hmoderate
    exact .inr ⟨b', he, hfollows, hmoderate, _, hcode⟩
  · rcases h.reserve_ok_or (e.target b) with ⟨roomy, hroomy⟩ | htoolarge
    · cases hroomy.symm.trans hrefused
    · cases htoolarge.symm.trans hrefused
      exact .inl he

theorem Sound.throughout_imp {P Q : CodeBuffer O → ℕ → Checked (CodeBuffer O) → Prop}
    {es : List (Event O)} (h : b.Sound)
    (hstep : ∀ (b : CodeBuffer O) e, b.Sound → P b (e.target b) (Event.apply b e) →
      Q b (e.target b) (e.apply b) ∧ ∀ b', e.apply b = .ok b' → b'.Sound)
    (hp : Throughout P b es) : Throughout Q b es := by
  induction es generalizing b with
  | nil => trivial
  | cons e es ih =>
    obtain ⟨hhead, hrest⟩ := hp
    obtain ⟨hq, hsound⟩ := hstep b e h hhead
    exact ⟨hq, fun b' he => ih (hsound b' he) (hrest b' he)⟩

theorem Sound.modest_of_roomy (h : b.Sound) {e : Event O}
    (hr : b.Roomy (e.target b) (e.apply b)) :
    b.Modest (e.target b) (e.apply b) ∧ ∀ b', e.apply b = .ok b' → b'.Sound := by
  rcases h.apply e with he | ⟨b', he, hfollows, hmoderate, hcode⟩
  · rw [he]
    exact ⟨fun hne => absurd rfl hne, fun b' hb' => by cases hb'⟩
  · rw [Roomy, he] at hr
    obtain ⟨_, heq, hroom, -⟩ := hr (by simp)
    cases heq
    have hcounted := hfollows.1 hroom
    refine ⟨fun _ => hmoderate.1 hcounted, fun b'' hb'' => ?_⟩
    cases he.symm.trans hb''
    exact ⟨hcode, hcounted⟩

theorem Sound.roomy_of_modest (h : b.Sound) {e : Event O}
    (hm : b.Modest (e.target b) (e.apply b)) :
    b.Roomy (e.target b) (e.apply b) ∧ ∀ b', e.apply b = .ok b' → b'.Sound := by
  rcases h.apply e with he | ⟨b', he, hfollows, hmoderate, is, hcode⟩
  · rw [he]
    exact ⟨fun hne => absurd rfl hne, fun b' hb' => by cases hb'⟩
  · rw [Modest, he] at hm
    have hcounted := hmoderate.2 (hm (by simp))
    refine ⟨fun _ => ⟨b', he, hfollows.2 hcounted, hcounted.size_le hcode⟩, fun b'' hb'' => ?_⟩
    cases he.symm.trans hb''
    exact ⟨⟨is, hcode⟩, hcounted⟩

theorem encodes_of_run {es : List (Event O)} (h : b.Encodes is) (hrun : run b es = .ok b') :
    b'.Encodes (is ++ emplaced es) := by
  induction es generalizing b is with
  | nil =>
    cases hrun
    rwa [emplaced, List.append_nil]
  | cons e es ih =>
    obtain ⟨b₁, he, hrest⟩ := Checked.bind_eq_ok_iff.1 hrun
    rcases h.apply e with ⟨-, b₂, -, he', -, hcode⟩ | ⟨f, -, he'⟩
    · cases he.symm.trans he'
      have hcode := ih hcode hrest
      rwa [List.append_assoc, ← emplaced_cons] at hcode
    · cases he.symm.trans he'

/-- Every call of a run leaves room as asked, no less than before and enough for what is held, just
if each is within the room that there is or one for which the room can be counted when it has grown;
targets of up to `2 ^ 31` bytes always are. Whatever calls have come to an end, one more that does
changes none of the instructions emplaced, and one for no more than the room told changes nothing
at all. -/
theorem roomy_iff_moderate (es : List (Event O)) :
    (Throughout Roomy {} es ↔ Throughout Modest {} es) ∧
      (Throughout (fun _ target _ => target ≤ 2 ^ 31) {} es → Throughout Roomy {} es) ∧
      ∀ b, run {} es = .ok b → b.instrs = .ok (placed (emplaced es)) ∧
        (∀ target b', b.reserve target = .ok b' →
          b'.sizeBytes = b.sizeBytes ∧ b'.words = b.words ∧ b'.instrs = b.instrs) ∧
        ∀ target ≤ b.capacityBytes.toNat, b.reserve target = .ok b := by
  refine ⟨⟨?_, ?_⟩, ?_, fun b hrun => ?_⟩
  · exact sound_empty.throughout_imp fun b e h => h.modest_of_roomy
  · exact sound_empty.throughout_imp fun b e h => h.roomy_of_modest
  · exact sound_empty.throughout_imp fun b e h ht =>
      h.roomy_of_modest fun _ => h.moderate_of_le ht
  · have hcode : b.Encodes (emplaced es) := encodes_of_run encodes_empty hrun
    refine ⟨hcode.instrs, fun target b' hr => ?_, fun target => reserve_of_le⟩
    have hwords := hcode.words_of_reserve hr
    rw [sizeBytes, CodeBuffer.instrs, hwords]
    exact ⟨rfl, rfl, rfl⟩

theorem roomy_iff_moderate_grown :
    let es : List (Event Object) := [.emplace (.loadLocal ⟨3⟩), .reserve 1000]
    ∃ b, run {} es = .ok b ∧ b.capacityBytes = 1000 ∧ Throughout Roomy {} es ∧
      b.instrs = .ok [(⟨0⟩, .loadLocal ⟨3⟩)] ∧ b.reserve 900 = .ok b := by
  intro es
  have hexists : ∃ b, run {} es = .ok b ∧ b.capacityBytes = 1000 := ⟨_, rfl, rfl⟩
  obtain ⟨b, hrun, hcap⟩ := hexists
  obtain ⟨-, hroomy, hheld⟩ := roomy_iff_moderate es
  obtain ⟨hinstrs, -, hkeeps⟩ := hheld b hrun
  have hsmall : Throughout (fun _ target _ => target ≤ 2 ^ 31) {} es :=
    ⟨by decide, fun b₁ _ => ⟨Nat.le_of_ble_eq_true rfl, fun _ _ => trivial⟩⟩
  exact ⟨b, hrun, hcap, hroomy hsmall, hinstrs, hkeeps 900 (by rw [hcap]; decide)⟩

/-- The greatest target that is accepted leaves room of which nothing is told, and so does one byte
more than `2 ^ 31` where there is room for these. With thirty-three instructions in the buffer, the
third call after it would move them to a block of thirty-two words. -/
theorem capacityBytes_lost :
    let es : List (Event Object) := List.replicate 33 (.emplace (.loadLocal ⟨0⟩)) ++
      [.reserve 4294967295, .reserve 1, .reserve 1, .reserve 1]
    (∃ b, run ({} : CodeBuffer Object) [.reserve 4294967295] = .ok b ∧ b.capacityBytes = 0) ∧
      (∃ b, run ({} : CodeBuffer Object) [.reserve 2147483648, .reserve 2147483649] = .ok b ∧
        b.capacityBytes = 0) ∧
      ¬Throughout Roomy ({} : CodeBuffer Object) [.reserve 4294967295] ∧
      run {} es = .error .outsideBlock := by
  intro es
  refine ⟨⟨_, rfl, rfl⟩, ⟨_, rfl, rfl⟩, fun h => ?_, ?_⟩
  · obtain ⟨b, hb, ⟨htarget, -⟩, -⟩ := h.1 (by rintro ⟨⟩)
    cases hb
    exact absurd htarget (by decide)
  · cbv

end StackCode.CodeBuffer
