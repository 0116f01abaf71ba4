/-
# The prefix tree of `prefixTree.hpp`

Nodes live on the heap, a `shared_ptr` is the number of a node, and node 0 is the root.
A call walks down from the root as long as the node it is at has a child with the next
letter of the text.  At the end of the text the next letter is the `\0` behind it, which
stops the walk as long as no node has the letter `\0`.  The place in the text is an
`int`.
-/

import BreUtils.Cpp.Text
import BreUtils.Lib.Tree
import Mathlib.Logic.Function.Basic

namespace BreUtils
namespace PrefixTree

open Lib Cpp

/-- A `char`, converted to `char32_t`. -/
def letter (c : UInt8) : UInt32 := c.toInt8.toInt32.toUInt32

/-- `Node`, without the members that no function reads. -/
structure Node where
  nodes : List ℕ := []
  word : UInt32 := 0
  isWord : Bool := false
  deriving DecidableEq

/-- The nodes that have been made, and what is in them. -/
structure Heap where
  size : ℕ
  node : ℕ → Node

namespace Heap

variable (h : Heap) (p : ℕ) (ch : UInt32)

/-- `PrefixTree()`. -/
def init : Heap := ⟨1, fun _ => {}⟩

/-- `getIndexAtChar`, where `none` is the null pointer. -/
def getIndexAtChar : Option ℕ := (h.node p).nodes.find? fun q => (h.node q).word == ch

/-- `contain`. -/
def contain : Bool := (h.node p).nodes.any fun q => (h.node q).word == ch

/-- `insertNode`. -/
def insertNode : Heap where
  size := h.size + 1
  node :=
    Function.update
      (Function.update h.node p { h.node p with nodes := (h.node p).nodes ++ [h.size] })
      h.size { word := ch }

/-- `setEnd`. -/
def setEnd : Heap :=
  { h with node := Function.update h.node p { h.node p with isWord := true } }

/-- `isEnd`. -/
def isEnd : Bool := (h.node p).isWord

end Heap

/-- `str[i]`, converted, for an `i` up to the length of the text: there stands a `\0`. -/
def charAt (str : Bytes) (i : ℕ) : UInt32 := letter (str.getD i 0)

/-- `while (p->contain(str[i])) { p = p->getIndexAtChar(str[i]); i++; }`.  `none` stands for
undefined behaviour, here and below: a read behind the text, a null pointer, an `int` that passes
its range. -/
def walk (h : Heap) (str : Bytes) (p i : ℕ) : Option (ℕ × ℕ) :=
  if i ≤ str.length then
    if h.contain p (charAt str i) then
      (h.getIndexAtChar p (charAt str i)).bind fun q =>
        if i + 1 < 2 ^ 31 then walk h str q (i + 1) else none
    else some (p, i)
  else none
termination_by str.length + 1 - i

/-- `for ( ; i < str.length(); i++) { p->insertNode(str[i]); p = p->getNode().back(); }`. -/
def extend (h : Heap) (str : Bytes) (p i : ℕ) : Option (Heap × ℕ) :=
  if i < str.length then
    let h' := h.insertNode p (charAt str i)
    ((h'.node p).nodes.getLast?).bind fun q =>
      if i + 1 < 2 ^ 31 then extend h' str q (i + 1) else none
  else some (h, p)
termination_by str.length - i

/-- `insert`. -/
def insert (h : Heap) (str : Bytes) : Option Heap :=
  if str = [] then some h
  else
    (walk h str 0 0).bind fun (p, i) =>
      (extend h str p i).map fun (h, p) => h.setEnd p

/-- `search`. -/
def search (h : Heap) (str : Bytes) : Option Bool :=
  if str = [] then some false
  else (walk h str 0 0).map fun (p, i) => decide (i = str.length) && h.isEnd p

/-- `startWith`. -/
def startWith (h : Heap) (str : Bytes) : Option Bool :=
  if str = [] then some false
  else (walk h str 0 0).map fun (_, i) => decide (i = str.length)

/-! ### The edges -/

/-- The edge from a node with a letter. -/
def child (h : Heap) (p : ℕ) (c : UInt8) : Option ℕ := h.getIndexAtChar p (letter c)

theorem letter_injective : Function.Injective letter := by
  have hback : ∀ c : UInt8, (letter c).toUInt8 = c := by decide +kernel
  exact Function.LeftInverse.injective hback

variable {h : Heap} {p q i : ℕ} {c d : UInt8} {s t u str : Bytes}

theorem contain_letter : h.contain p (letter c) = (child h p c).isSome := by
  rw [child, Heap.getIndexAtChar, List.isSome_find?]
  rfl

/-- **A tree with the words `E`, in which the words `S` lead somewhere.** -/
structure Holds (h : Heap) (S E : Set Bytes) : Prop where
  pos : 0 < h.size
  closed : ∀ p, ∀ q ∈ (h.node p).nodes, q < h.size
  /-- Nothing is at an address that is not in use. -/
  blank : ∀ p, h.size ≤ p → h.node p = {}
  tree : Tree.IsTree (child h) 0
  mem_iff : ∀ s, s ∈ S ↔ ∃ q, Transition.run (child h) 0 s = some q
  end_iff : ∀ s q, Transition.run (child h) 0 s = some q → (h.isEnd q = true ↔ s ∈ E)

variable {S E : Set Bytes}

theorem Holds.child_lt (hh : Holds h S E) (hq : child h p c = some q) : q < h.size :=
  hh.closed p q (List.mem_of_find?_eq_some hq)

theorem Holds.run_lt (hh : Holds h S E) (hs : Transition.run (child h) 0 s = some q) :
    q < h.size := by
  induction s using List.reverseRecOn with
  | nil => exact Option.some.inj hs ▸ hh.pos
  | append_singleton s d _ =>
      obtain ⟨p, -, hq⟩ := Transition.run_concat_eq_some.1 hs
      exact hh.child_lt hq

theorem Holds.child_blank (hh : Holds h S E) (c : UInt8) : child h h.size c = none := by
  unfold child Heap.getIndexAtChar
  rw [hh.blank _ le_rfl]
  rfl

/-- The beginnings of a word that leads somewhere lead somewhere. -/
theorem Holds.mem_of_prefix (hh : Holds h S E) (ht : t ∈ S) (hs : s <+: t) : s ∈ S := by
  obtain ⟨q, hq⟩ := (hh.mem_iff t).1 ht
  exact (hh.mem_iff s).2 (Tree.run_of_prefix hs hq)

theorem holds_init : Holds .init {[]} ∅ where
  pos := Nat.one_pos
  closed p q hq := absurd hq List.not_mem_nil
  blank _ _ := rfl
  tree := by
    have hrun (s : Bytes) (q : ℕ) (h : Transition.run (child .init) 0 s = some q) : s = [] := by
      cases s with
      | nil => rfl
      | cons c s => cases h
    intro s t q hs ht
    rw [hrun s q hs, hrun t q ht]
  mem_iff s := by
    cases s with
    | nil => exact iff_of_true rfl ⟨0, rfl⟩
    | cons c s =>
        refine iff_of_false (List.cons_ne_nil c s) ?_
        rintro ⟨q, hq⟩
        cases hq
  end_iff s q _ := by
    have hend : Heap.init.isEnd q = false := rfl
    simp [hend]

/-! ### What `insertNode` and `setEnd` change -/

theorem word_insertNode (hq : q < h.size) :
    ((h.insertNode p (letter c)).node q).word = (h.node q).word := by
  unfold Heap.insertNode
  dsimp only
  rw [Function.update_of_ne hq.ne]
  by_cases hqp : q = p
  · rw [hqp, Function.update_self]
  · rw [Function.update_of_ne hqp]

theorem nodes_insertNode (hp : p < h.size) :
    ((h.insertNode p (letter c)).node p).nodes = (h.node p).nodes ++ [h.size] := by
  unfold Heap.insertNode
  dsimp only
  rw [Function.update_of_ne hp.ne, Function.update_self]

theorem word_insertNode_self : ((h.insertNode p (letter c)).node h.size).word = letter c := by
  unfold Heap.insertNode
  dsimp only
  rw [Function.update_self]

section InsertNode

variable (hh : Holds h S E)
include hh

theorem Holds.nodes_insertNode_of_ne (hqp : q ≠ p) :
    ((h.insertNode p (letter c)).node q).nodes = (h.node q).nodes := by
  unfold Heap.insertNode
  dsimp only
  by_cases hq : q = h.size
  · rw [hq, Function.update_self, hh.blank _ le_rfl]
  · rw [Function.update_of_ne hq, Function.update_of_ne hqp]

theorem Holds.find?_insertNode (q : ℕ) (d : UInt8) :
    ((h.node q).nodes.find? fun x => ((h.insertNode p (letter c)).node x).word == letter d) =
      child h q d := by
  unfold child Heap.getIndexAtChar
  rw [← List.head?_filter, ← List.head?_filter]
  refine congrArg List.head? (List.filter_congr fun x hx => ?_)
  rw [word_insertNode (hh.closed q x hx)]

theorem Holds.child_insertNode_self (hp : p < h.size) (hfree : child h p c = none) :
    child (h.insertNode p (letter c)) p c = some h.size := by
  rw [child, Heap.getIndexAtChar, nodes_insertNode hp, List.find?_append, hh.find?_insertNode,
    hfree, Option.none_or]
  simp [word_insertNode_self]

theorem Holds.child_insertNode_of_ne (hp : p < h.size) (hne : q ≠ p ∨ d ≠ c) :
    child (h.insertNode p (letter c)) q d = child h q d := by
  by_cases hqp : q = p
  · subst hqp
    have hd : letter c ≠ letter d :=
      fun heq => (hne.resolve_left fun h => h rfl) (letter_injective heq).symm
    rw [child, Heap.getIndexAtChar, nodes_insertNode hp, List.find?_append, hh.find?_insertNode]
    simp [word_insertNode_self, hd]
  · rw [child, Heap.getIndexAtChar, hh.nodes_insertNode_of_ne hqp, hh.find?_insertNode]

end InsertNode

/-- **A new edge:** one more word leads somewhere, and ends there. -/
theorem Holds.insertNode (hh : Holds h S E) (hu : Transition.run (child h) 0 u = some p)
    (hfree : child h p c = none) (hE : u ++ [c] ∉ E) :
    Holds (h.insertNode p (letter c)) (Insert.insert (u ++ [c]) S) E ∧
      Transition.run (child (h.insertNode p (letter c))) 0 (u ++ [c]) = some h.size := by
  have hp := hh.run_lt hu
  have hself := hh.child_insertNode_self hp hfree
  have hother (q : ℕ) (d : UInt8) (hne : q ≠ p ∨ d ≠ c) := hh.child_insertNode_of_ne hp hne
  have hroot : h.size ≠ 0 := hh.pos.ne'
  have hfresh (q : ℕ) (d : UInt8) : child h q d ≠ some h.size :=
    fun hq => (hh.child_lt hq).ne rfl
  have hrun := Tree.run_grow hh.tree hu hfree hroot hfresh hh.child_blank hself hother
  have hend (q : ℕ) : (h.insertNode p (letter c)).isEnd q = h.isEnd q := by
    unfold Heap.insertNode Heap.isEnd
    dsimp only
    by_cases hq : q = h.size
    · rw [hq, Function.update_self, hh.blank _ le_rfl]
    · rw [Function.update_of_ne hq]
      by_cases hqp : q = p
      · rw [hqp, Function.update_self]
      · rw [Function.update_of_ne hqp]
  refine ⟨⟨Nat.succ_pos _, ?_, ?_, ?_, ?_, ?_⟩, ?_⟩
  · intro q x hx
    by_cases hqp : q = p
    · rw [hqp, nodes_insertNode hp, List.mem_append, List.mem_singleton] at hx
      rcases hx with hx | rfl
      · exact Nat.lt_succ_of_lt (hh.closed p x hx)
      · exact Nat.lt_succ_self _
    · rw [hh.nodes_insertNode_of_ne hqp] at hx
      exact Nat.lt_succ_of_lt (hh.closed q x hx)
  · intro q hq
    have hle : h.size + 1 ≤ q := hq
    unfold Heap.insertNode
    dsimp only
    rw [Function.update_of_ne (by omega), Function.update_of_ne (by omega), hh.blank q (by omega)]
  · exact Tree.isTree_grow hh.tree hu hfree hroot hfresh hh.child_blank hself hother
  · intro s
    rw [Set.mem_insert_iff, hh.mem_iff, hrun]
    by_cases hs : s = u ++ [c]
    · simp [hs]
    · simp [hs]
  · intro s q hq
    rw [hrun] at hq
    rw [hend]
    split_ifs at hq with hs
    · obtain rfl := Option.some.inj hq
      rw [hs, Heap.isEnd, hh.blank _ le_rfl]
      simp [hE]
    · exact hh.end_iff s q hq
  · rw [hrun, if_pos rfl]

/-- **A mark:** one more word, and the tree is the same. -/
theorem Holds.setEnd (hh : Holds h S E) (hu : Transition.run (child h) 0 u = some p) :
    Holds (h.setEnd p) S (Insert.insert u E) := by
  have hnodes (q : ℕ) : ((h.setEnd p).node q).nodes = (h.node q).nodes ∧
      ((h.setEnd p).node q).word = (h.node q).word := by
    unfold Heap.setEnd
    dsimp only
    by_cases hq : q = p
    · rw [hq, Function.update_self]
      exact ⟨rfl, rfl⟩
    · rw [Function.update_of_ne hq]
      exact ⟨rfl, rfl⟩
  have hchild : child (h.setEnd p) = child h := by
    funext q c
    unfold child Heap.getIndexAtChar
    rw [(hnodes q).1]
    simp only [hnodes]
  have hp := hh.run_lt hu
  refine ⟨hh.pos, fun q x hx => ?_, fun q hq => ?_, ?_, fun s => ?_, fun s q hq => ?_⟩
  · rw [(hnodes q).1] at hx
    exact hh.closed q x hx
  · have hle : h.size ≤ q := hq
    unfold Heap.setEnd
    dsimp only
    rw [Function.update_of_ne (by omega), hh.blank q hle]
  · rw [hchild]
    exact hh.tree
  · rw [hchild]
    exact hh.mem_iff s
  · rw [hchild] at hq
    rw [Set.mem_insert_iff, ← hh.end_iff s q hq]
    unfold Heap.setEnd Heap.isEnd
    dsimp only
    by_cases hqp : q = p
    · subst hqp
      rw [Function.update_self]
      exact iff_of_true rfl (Or.inl (hh.tree s u q hq hu))
    · have hsu : s ≠ u := by
        rintro rfl
        exact hqp (Option.some.inj (hq.symm.trans hu))
      rw [Function.update_of_ne hqp]
      simp [hsu]

end PrefixTree
end BreUtils
