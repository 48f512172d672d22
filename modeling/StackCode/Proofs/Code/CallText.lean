import Mathlib
import StackCode.Code.CallArgs
import StackCode.Proofs.Digits

/-! Texts of call shapes. A text shows where the count of positional values ends, whether names
follow and where their list ends, and which of the two collections are passed. So it determines the
shape, unless a name holds a comma or the bracket that closes the list. -/
namespace StackCode.CallArgs

variable {c c' : CallArgs}

def comma : UInt8 := 0x2C

def bracket : UInt8 := 0x5D

/-- No name can be taken for several, or for the end of the list. -/
def Separable (names : List Symbol) : Prop := ∀ s ∈ names, comma ∉ s.name ∧ bracket ∉ s.name

theorem append_cons_inj {b : UInt8} {x x' r r' : ByteString} (hx : b ∉ x) (hx' : b ∉ x')
    (h : x ++ b :: r = x' ++ b :: r') : x = x' ∧ r = r' := by
  have hne : ∀ {y : ByteString}, b ∉ y → ∀ c ∈ y, (c != b) = true := fun hy c hc =>
    bne_iff_ne.2 fun hcb => hy (hcb ▸ hc)
  obtain ⟨hxx', hr⟩ := append_inj_of_takeWhile (hne hx) (hne hx') (by simp) (by simp) h
  exact ⟨hxx', (List.cons.inj hr).2⟩

theorem joinNames_cons_cons (s u : Symbol) (names : List Symbol) :
    joinNames (s :: u :: names) = s.name ++ comma :: 0x20 :: joinNames (u :: names) :=
  List.append_assoc _ _ _

theorem bracket_notMem_joinNames {names : List Symbol} (h : Separable names) :
    bracket ∉ joinNames names := by
  induction names with
  | nil => exact List.not_mem_nil
  | cons s names ih =>
    obtain ⟨hs, hnames⟩ := List.forall_mem_cons.1 h
    cases names with
    | nil => exact hs.2
    | cons u names =>
      rw [joinNames_cons_cons, List.mem_append, List.mem_cons, List.mem_cons]
      rintro (hmem | hcomma | hblank | hmem)
      · exact hs.2 hmem
      · cases hcomma
      · cases hblank
      · exact ih hnames hmem

theorem joinNames_inj {names names' : List Symbol} {s s' : Symbol} (h : Separable (s :: names))
    (h' : Separable (s' :: names')) (heq : joinNames (s :: names) = joinNames (s' :: names')) :
    s :: names = s' :: names' := by
  -- one list cannot end where the other goes on: its last name would hold the other's comma
  induction names generalizing s s' names' with
  | nil =>
    cases names' with
    | nil => exact congrArg (fun name => [Symbol.mk name]) heq
    | cons u' names' =>
      have hcomma : comma ∈ s.name := by
        change s.name = _ at heq
        rw [heq, joinNames_cons_cons]
        simp
      exact absurd hcomma (h s List.mem_cons_self).1
  | cons u names ih =>
    cases names' with
    | nil =>
      have hcomma : comma ∈ s'.name := by
        change _ = s'.name at heq
        rw [← heq, joinNames_cons_cons]
        simp
      exact absurd hcomma (h' s' List.mem_cons_self).1
    | cons u' names' =>
      obtain ⟨hs, hnames⟩ := List.forall_mem_cons.1 h
      obtain ⟨hs', hnames'⟩ := List.forall_mem_cons.1 h'
      rw [joinNames_cons_cons, joinNames_cons_cons] at heq
      obtain ⟨hname, hrest⟩ := append_cons_inj hs.1 hs'.1 heq
      have hs : s = s' := congrArg Symbol.mk hname
      rw [hs, ih hnames hnames' (List.cons.inj hrest).2]

def namesText (names : List Symbol) : ByteString :=
  if names.isEmpty then [] else ascii ", named=[" ++ joinNames names ++ ascii "]"

def flagsText (args kwargs : Bool) : ByteString :=
  (if args then ascii ", *args" else []) ++ (if kwargs then ascii ", **kwargs" else []) ++
    ascii "\x7d"

theorem text_eq (c : CallArgs) :
    c.text = ascii " \x7bpos=" ++ (decimal c.positional.toNat ++ (namesText c.names ++
      flagsText c.args c.kwargs)) := by
  simp only [text, namesText, flagsText, List.append_assoc]

theorem namesText_cons_append (s : Symbol) (names : List Symbol) (r : ByteString) :
    namesText (s :: names) ++ r =
      ascii ", named=[" ++ (joinNames (s :: names) ++ bracket :: r) := by
  change ascii ", named=[" ++ joinNames (s :: names) ++ [bracket] ++ r = _
  simp only [List.append_assoc, List.singleton_append]

theorem flagsText_append_inj {args kwargs args' kwargs' : Bool} {t t' : ByteString}
    (h : flagsText args kwargs ++ t = flagsText args' kwargs' ++ t') :
    args = args' ∧ kwargs = kwargs' ∧ t = t' := by
  cases args <;> cases kwargs <;> cases args' <;> cases kwargs' <;>
    simp_all [flagsText, ascii, bytesOf]

theorem namesText_cons_append_ne (s : Symbol) (names : List Symbol) (r : ByteString)
    (args kwargs : Bool) (t : ByteString) :
    namesText (s :: names) ++ r ≠ flagsText args kwargs ++ t := by
  rw [namesText_cons_append]
  cases args <;> cases kwargs <;> simp [flagsText, ascii, bytesOf]

theorem namesText_append_inj {names names' : List Symbol} {args kwargs args' kwargs' : Bool}
    {t t' : ByteString} (hnames : Separable names) (hnames' : Separable names')
    (h : namesText names ++ (flagsText args kwargs ++ t) =
      namesText names' ++ (flagsText args' kwargs' ++ t')) :
    names = names' ∧ flagsText args kwargs ++ t = flagsText args' kwargs' ++ t' := by
  cases names with
  | nil =>
    cases names' with
    | nil => exact ⟨rfl, h⟩
    | cons s' names' => exact absurd h.symm (namesText_cons_append_ne s' names' _ _ _ _)
  | cons s names =>
    cases names' with
    | nil => exact absurd h (namesText_cons_append_ne s names _ _ _ _)
    | cons s' names' =>
      rw [namesText_cons_append, namesText_cons_append] at h
      obtain ⟨hjoined, hrest⟩ := append_cons_inj (bracket_notMem_joinNames hnames)
        (bracket_notMem_joinNames hnames') (List.append_cancel_left h)
      exact ⟨joinNames_inj hnames hnames' hjoined, hrest⟩

theorem isDigit_head_of_text (names : List Symbol) (args kwargs : Bool) (t : ByteString) :
    ∀ b ∈ (namesText names ++ (flagsText args kwargs ++ t)).head?, isDigit b = false := by
  cases names with
  | nil => cases args <;> cases kwargs <;> rintro b ⟨⟩ <;> rfl
  | cons s names =>
    rintro b ⟨⟩
    rfl

theorem eq_of_positional_eq (hpositional : c.positional = c'.positional)
    (hnames : c.names = c'.names) (hargs : c.args = c'.args) (hkwargs : c.kwargs = c'.kwargs) :
    c = c' := by
  have hcount : c.posNamed = c'.posNamed := by
    rw [positional, positional, hnames] at hpositional
    exact (UInt32.sub_left_inj _).1 hpositional
  cases c
  cases c'
  simp_all

theorem text_append_inj (hc : Separable c.names) (hc' : Separable c'.names) {t t' : ByteString}
    (h : c.text ++ t = c'.text ++ t') : c = c' ∧ t = t' := by
  simp only [text_eq, List.append_assoc] at h
  obtain ⟨hpositional, hrest⟩ := decimal_append_inj (isDigit_head_of_text _ _ _ _)
    (isDigit_head_of_text _ _ _ _) (List.append_cancel_left h)
  obtain ⟨hnames, hflags⟩ := namesText_append_inj hc hc' hrest
  obtain ⟨hargs, hkwargs, ht⟩ := flagsText_append_inj hflags
  exact ⟨eq_of_positional_eq (UInt32.toNat_inj.1 hpositional) hnames hargs hkwargs, ht⟩

/-- A call names no more values than it passes, and its names can be told apart. -/
structure Legible (c : CallArgs) : Prop where
  namesFit : c.NamesFit
  separable : Separable c.names

theorem Legible.render_eq (h : c.Legible) (out : Output) : c.render out = .ok (out ++ c.text) := by
  rw [render, decide_eq_true h.namesFit, Checked.require_true, Checked.ok_bind,
    Checked.pure_eq_ok]

/-- A legible call can be written down, and another that is written in the same way has the same
shape and takes as many cells of the stack. -/
theorem shape_of_render_eq (hc : c.Legible) (hc' : c'.Legible) (out : Output) :
    (∃ text : ByteString, c.render out = .ok (out ++ text)) ∧
      (c.render out = c'.render out → c.posNamed = c'.posNamed ∧ c.names = c'.names ∧
        c.args = c'.args ∧ c.kwargs = c'.kwargs ∧ c.stackCells = c'.stackCells) := by
  refine ⟨⟨c.text, hc.render_eq out⟩, fun h => ?_⟩
  have htext : c.text = c'.text := by
    rw [hc.render_eq, hc'.render_eq, Except.ok.injEq, ← Array.toList_inj, Array.toList_appendList,
      Array.toList_appendList] at h
    exact List.append_cancel_left h
  obtain ⟨rfl, -⟩ := text_append_inj hc.separable hc'.separable (congrArg (· ++ []) htext)
  exact ⟨rfl, rfl, rfl, rfl, rfl⟩

theorem shape_of_render_eq_blank :
    let c : CallArgs := { posNamed := 3, names := [⟨[]⟩, ⟨ascii " x"⟩], args := true }
    let c' : CallArgs := { posNamed := 3, names := [⟨ascii " "⟩, ⟨ascii "x"⟩], args := true }
    c.Legible ∧ c'.Legible ∧ (∃ text : ByteString, c.render #[] = .ok ((#[] : Output) ++ text)) ∧
      c.render #[] ≠ c'.render #[] := by
  intro c c'
  have hc : c.Legible := ⟨by decide, by simp [c, Separable, comma, bracket, ascii, bytesOf]⟩
  have hc' : c'.Legible := ⟨by decide, by simp [c', Separable, comma, bracket, ascii, bytesOf]⟩
  obtain ⟨hrender, hshape⟩ := shape_of_render_eq hc hc' #[]
  refine ⟨hc, hc', hrender, fun h => ?_⟩
  have hnames := (hshape h).2.1
  exact absurd hnames (by decide)

end StackCode.CallArgs
