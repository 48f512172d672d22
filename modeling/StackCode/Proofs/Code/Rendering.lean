import Mathlib
import StackCode.Proofs.Code.Leaves
import StackCode.Value.Object

/-! Texts of arguments. Whatever has been written before an argument stays as it is, and the text
appended depends on the argument alone: it is that of its leaves from left to right. A value that
turns out too long is taken back up to where its own text began, wherever that is. -/
namespace StackCode

variable {O : Type} [ValueObject O]

theorem Output.append_append (out : Output) (s t : ByteString) : out ++ s ++ t = out ++ (s ++ t) :=
  Array.toList_inj.1 (by simp)

/-- Whatever the output holds, it is kept and the same text is appended. Without a text the writing
fails in the same way. -/
def Writes (write : Output → Checked Output) (text : Checked ByteString) : Prop :=
  ∀ out, write out = (fun written : ByteString => out ++ written) <$> text

namespace Writes

variable {f g : Output → Checked Output} {s t : Checked ByteString}

theorem text_eq (h : Writes f s) : Array.toList <$> f #[] = s := by
  rw [h #[]]
  cases s with
  | error fault => rfl
  | ok text => simp

theorem bind (hf : Writes f s) (hg : Writes g t) :
    Writes (fun out => f out >>= g) (do return (← s) ++ (← t)) := by
  intro out
  change f out >>= g = _
  rw [hf out]
  cases s with
  | error fault => rfl
  | ok first =>
    rw [Checked.map_ok, Checked.ok_bind, hg]
    cases t with
    | error fault => rfl
    | ok second => exact congrArg _ (Output.append_append out first second)

end Writes

def Value.shown (v : Value O) : ByteString :=
  if longestRepr < v.repr.length then ascii "<" ++ v.typeName ++ ascii ">" else v.repr

theorem Value.appendRepr_eq (v : Value O) (out : Output) : v.appendRepr out = out ++ v.shown := by
  have hsize : Array.size (out ++ v.repr) - out.size = v.repr.length := by
    rw [← Array.length_toList, Array.toList_appendList, List.length_append, Array.length_toList,
      Nat.add_sub_cancel_left]
  have htaken : (out ++ v.repr).take out.size = out := by
    apply Array.toList_inj.1
    simp [Array.take_eq_extract, List.extract_eq_take_drop]
  simp only [appendRepr, shown, hsize, htaken]
  split
  · rw [Output.append_append, Output.append_append, List.append_assoc]
  · rfl

def commaSeparated (texts : List ByteString) : ByteString := (ascii ", ").intercalate texts

theorem appendSeparated_eq {α : Type} {append : α → Output → Output} {text : α → ByteString}
    (h : ∀ a out, append a out = out ++ text a) (as : List α) (out : Output) :
    appendSeparated append as out = out ++ commaSeparated (as.map text) := by
  induction as generalizing out with
  | nil => exact Array.toList_inj.1 (by simp [appendSeparated, commaSeparated])
  | cons a rest ih =>
    cases rest with
    | nil => rw [appendSeparated, h, List.map_singleton, commaSeparated, List.intercalate_singleton]
    | cons b rest =>
      rw [appendSeparated.eq_3 _ _ _ _ (by simp), ih, h, Output.append_append,
        Output.append_append]
      rfl

theorem appendValues_eq (vs : List (Value O)) (out : Output) :
    appendValues vs out =
      out ++ (ascii " [" ++ commaSeparated (vs.map Value.shown) ++ ascii "]") := by
  rw [appendValues, appendSeparated_eq Value.appendRepr_eq, Output.append_append,
    Output.append_append, List.append_assoc]

theorem appendEntry_eq (e : Value O × Value O) (out : Output) :
    appendEntry e out = out ++ (e.1.shown ++ ascii ": " ++ e.2.shown) := by
  rw [appendEntry, Value.appendRepr_eq, Value.appendRepr_eq, Output.append_append,
    Output.append_append, List.append_assoc]

def Leaf.rendering (l : Leaf O) : Checked ByteString := Array.toList <$> l.render #[]

theorem Leaf.writes (l : Leaf O) : Writes l.render l.rendering := by
  intro out
  cases l with
  | opcode n =>
    simp only [rendering, render]
    cases Opcode.nameOf n <;> simp [Output.append_append]
  | call c =>
    simp only [rendering, render, CallArgs.render]
    cases Checked.require .tooManyNames c.NamesFit <;> simp
  | optValue v => cases v <;> simp [rendering, render, Value.appendRepr_eq, Output.append_append]
  | value v => simp [rendering, render, Value.appendRepr_eq, Output.append_append]
  | values vs => simp [rendering, render, appendValues_eq]
  | hashedValues vs => simp [rendering, render, appendValues_eq]
  | dict d => simp [rendering, render, appendSeparated_eq appendEntry_eq, Output.append_append]
  | unit => simp [rendering, render]
  | popsOne => simp [rendering, render]
  | _ => simp [rendering, render, Output.append_append]

/-- Leaves that hold values show each of them in the same way. -/
structure ShowsValues (O : Type) [ValueObject O] : Prop where
  value : ∀ v : Value O, (Leaf.value v).rendering = .ok (ascii " " ++ v.shown)
  optValue : ∀ v : Value O, (Leaf.optValue (some v)).rendering = .ok (ascii " " ++ v.shown)
  values : ∀ vs : List (Value O), (Leaf.values vs).rendering =
    .ok (ascii " [" ++ commaSeparated (vs.map Value.shown) ++ ascii "]")
  hashedValues : ∀ vs : List (Hashed (Value O)), (Leaf.hashedValues vs).rendering =
    .ok (ascii " [" ++ commaSeparated (vs.map fun v => v.key.shown) ++ ascii "]")
  dict : ∀ d : ConstDict O, (Leaf.dict d).rendering = .ok (ascii " \x7b" ++
    commaSeparated (d.entries.map fun e => e.1.shown ++ ascii ": " ++ e.2.shown) ++ ascii "\x7d")

theorem showsValues : ShowsValues O where
  value v := by simp [Leaf.rendering, Leaf.render, Value.appendRepr_eq]
  optValue v := by simp [Leaf.rendering, Leaf.render, Value.appendRepr_eq]
  values vs := by simp [Leaf.rendering, Leaf.render, appendValues_eq]
  hashedValues vs := by simp [Leaf.rendering, Leaf.render, appendValues_eq, Function.comp_def]
  dict d := by simp [Leaf.rendering, Leaf.render, appendSeparated_eq appendEntry_eq]

def concatenated (ls : List (Leaf O)) : Checked ByteString :=
  List.flatten <$> ls.mapM Leaf.rendering

theorem concatenated_singleton (l : Leaf O) : concatenated [l] = l.rendering := by
  rw [concatenated, List.mapM_cons, List.mapM_nil]
  cases l.rendering <;> simp

theorem concatenated_append (ls ms : List (Leaf O)) :
    concatenated (ls ++ ms) = do return (← concatenated ls) ++ (← concatenated ms) := by
  rw [concatenated, List.mapM_append, concatenated, concatenated]
  cases ls.mapM Leaf.rendering with
  | error fault => rfl
  | ok texts => cases ms.mapM Leaf.rendering <;> simp

namespace Arg

mutual

theorem writes : (a : Arg O) → Writes a.render (concatenated a.leaves)
  | leaf l => by
    rw [leaves, concatenated_singleton]
    exact l.writes
  | pair a b => by
    rw [leaves, concatenated_append]
    exact (writes a).bind (writes b)
  | tuple members => writesAll members
  | array elements => writesAll elements

theorem writesAll : (as : List (Arg O)) → Writes (renderAll as) (concatenated (leavesAll as))
  | [] => fun out => congrArg Except.ok Array.appendList_nil.symm
  | a :: rest => by
    rw [leavesAll, concatenated_append]
    exact (writes a).bind (writesAll rest)

end

def rendering (a : Arg O) : Checked ByteString := Array.toList <$> a.render #[]

theorem writes_rendering (a : Arg O) : Writes a.render a.rendering := by
  rw [rendering, a.writes.text_eq]
  exact a.writes

theorem toNat_popCount_leaves (a : Arg O) :
    a.popCount.toNat = (a.leaves.map fun l => l.popCount.toNat).sum % 2 ^ 32 := by
  rw [popCount_eq_sum, toNat_sum, List.map_map]
  rfl

theorem toNat_pushCount_leaves (a : Arg O) :
    a.pushCount.toNat = (a.leaves.map fun l => l.pushCount.toNat).sum % 2 ^ 32 := by
  rw [pushCount_eq_sum, toNat_sum, List.map_map]
  rfl

/-- An argument of any nesting leaves the output before it as it is and appends the texts of its
leaves in their order, each as it is written where nothing else stands; it fails only if one of
these fails. Its counts are the sums of theirs. A value among them is shown in full or by its type,
depending on the length of its own text. -/
theorem render_eq_leaves (a : Arg O) :
    (∀ out, a.render out =
      (fun texts : List ByteString => out ++ texts.flatten) <$> a.leaves.mapM Leaf.rendering) ∧
      a.popCount.toNat = (a.leaves.map fun l => l.popCount.toNat).sum % 2 ^ 32 ∧
      a.pushCount.toNat = (a.leaves.map fun l => l.pushCount.toNat).sum % 2 ^ 32 ∧
      ShowsValues O := by
  refine ⟨fun out => ?_, a.toNat_popCount_leaves, a.toNat_pushCount_leaves, showsValues⟩
  rw [a.writes out, concatenated, ← comp_map]
  rfl

end Arg

end StackCode
