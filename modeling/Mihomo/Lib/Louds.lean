import Mathlib.Algebra.GroupWithZero.Nat
import Mathlib.Tactic.Common

/-!
# Level-order unary coding of a tree

A tree given by `children : N → List (α × N)` is written down in level order: for every node one
`false` for each child and then one `true`, and the labels of the edges in the same order. If `nodes`
lists the nodes in that order, then all nodes but the root are listed as the children of earlier ones
(`Numbered`), so the bit of an edge tells the number of the node it leads to.
-/

namespace Mihomo.Lib
open List

def rank1 (bits : List Bool) (i : Nat) : Nat := (bits.take i).count true

/-- The position of the `i`-th one, counted from zero. -/
def select1 : List Bool → Nat → Option Nat
  | [], _ => none
  | true :: _, 0 => some 0
  | true :: bits, i + 1 => (select1 bits i).map (· + 1)
  | false :: bits, i => (select1 bits i).map (· + 1)

theorem select1_append_true (front back : List Bool) :
    select1 (front ++ true :: back) (front.count true) = some front.length := by
  induction front with
  | nil => rfl
  | cons b front ih =>
    cases b with
    | true =>
      rw [count_cons_self, cons_append, select1, ih]
      rfl
    | false =>
      rw [count_cons_of_ne (by decide), cons_append, select1, ih]
      rfl

theorem getElem?_filter_rank1 {β : Type} (mark : β → Bool) {xs : List β} {k : Nat} {x : β}
    (hx : xs[k]? = some x) (hmark : mark x = true) :
    (xs.filter mark)[rank1 (xs.map mark) k]? = some x := by
  obtain ⟨hk, rfl⟩ := List.getElem?_eq_some_iff.mp hx
  have hrank : rank1 (xs.map mark) k = ((xs.take k).filter mark).length := by
    rw [rank1, ← map_take, count, countP_map, countP_eq_length_filter]
    congr 1
    exact filter_congr fun y _ => by simp
  have hsplit : xs.filter mark = (xs.take k).filter mark ++ xs[k] :: (xs.drop (k + 1)).filter mark := by
    conv_lhs => rw [← take_append_drop k xs, drop_eq_getElem_cons hk]
    rw [filter_append, filter_cons_of_pos hmark]
  rw [hsplit, hrank, List.getElem?_append_right (Nat.le_refl _), Nat.sub_self]
  rfl

section FlatMap

variable {β γ : Type}

theorem flatMap_eq_append (f : β → List γ) {xs : List β} {k : Nat} {x : β} (hx : xs[k]? = some x) :
    xs.flatMap f = (xs.take k).flatMap f ++ (f x ++ (xs.drop (k + 1)).flatMap f) := by
  obtain ⟨hk, rfl⟩ := List.getElem?_eq_some_iff.mp hx
  conv_lhs => rw [← take_append_drop k xs, drop_eq_getElem_cons hk]
  rw [flatMap_append, flatMap_cons]

theorem getElem?_flatMap (f : β → List γ) {xs : List β} {k j : Nat} {x : β} (hx : xs[k]? = some x)
    {y : γ} (hy : (f x)[j]? = some y) :
    (xs.flatMap f)[((xs.take k).flatMap f).length + j]? = some y := by
  have hj : j < (f x).length := (List.getElem?_eq_some_iff.mp hy).1
  rw [flatMap_eq_append f hx, getElem?_append_right (by omega), Nat.add_sub_cancel_left,
    getElem?_append_left hj, hy]

end FlatMap

variable {N α : Type} (children : N → List (α × N))

def Numbered (root : N) (nodes : List N) : Prop :=
  nodes = root :: nodes.flatMap fun n => (children n).map Prod.snd

def unary (n : N) : List Bool := (children n).map (fun _ => false) ++ [true]

def bitsOf (nodes : List N) : List Bool := nodes.flatMap (unary children)

def labelsOf (nodes : List N) : List α := nodes.flatMap fun n => (children n).map Prod.fst

def edgesBefore (nodes : List N) (k : Nat) : Nat := ((nodes.take k).map fun n => (children n).length).sum

def startOf (nodes : List N) (k : Nat) : Nat := edgesBefore children nodes k + k

variable {children} {root : N} {nodes : List N} {k j : Nat} {n m : N} {a : α}

theorem length_labelsOf_take (nodes : List N) (k : Nat) :
    (labelsOf children (nodes.take k)).length = edgesBefore children nodes k := by
  simp [labelsOf, edgesBefore]

theorem length_bitsOf_take (hk : k ≤ nodes.length) :
    (bitsOf children (nodes.take k)).length = startOf children nodes k := by
  have hlen : ∀ l, (bitsOf children l).length =
      (l.map fun n => (children n).length).sum + l.length := by
    intro l
    induction l with
    | nil => rfl
    | cons n l ih =>
      simp only [bitsOf, flatMap_cons, length_append, unary, length_map,
        map_cons, sum_cons, length_cons, length_nil] at ih ⊢
      omega
  rw [hlen, length_take, Nat.min_eq_left hk]
  rfl

theorem count_bitsOf (nodes : List N) : (bitsOf children nodes).count true = nodes.length := by
  induction nodes with
  | nil => rfl
  | cons n nodes ih =>
    have hn : (unary children n).count true = 1 := by
      simp [unary, count_eq_zero]
    rw [bitsOf, flatMap_cons, count_append, length_cons]
    rw [bitsOf] at ih
    omega

theorem startOf_zero : startOf children nodes 0 = 0 := by
  simp [startOf, edgesBefore]

variable (children) in
theorem startOf_succ (hn : nodes[k]? = some n) :
    startOf children nodes (k + 1) = startOf children nodes k + (children n).length + 1 := by
  obtain ⟨hk, rfl⟩ := List.getElem?_eq_some_iff.mp hn
  simp only [startOf, edgesBefore, take_succ_eq_append_getElem hk, map_append,
    sum_append, map_cons, map_nil, sum_cons, sum_nil]
  omega

theorem bit_of_edge (hn : nodes[k]? = some n) (hj : j < (children n).length) :
    (bitsOf children nodes)[startOf children nodes k + j]? = some false := by
  have hk : k < nodes.length := (List.getElem?_eq_some_iff.mp hn).1
  have hbit : (unary children n)[j]? = some false := by
    rw [unary, getElem?_append_left (by simpa using hj)]
    simp [hj]
  rw [← length_bitsOf_take (by omega)]
  exact getElem?_flatMap (unary children) hn hbit

theorem label_of_edge (hn : nodes[k]? = some n) (hj : (children n)[j]? = some (a, m)) :
    (labelsOf children nodes)[edgesBefore children nodes k + j]? = some a := by
  rw [← length_labelsOf_take]
  refine getElem?_flatMap _ hn ?_
  rw [getElem?_map, hj]
  rfl

theorem Numbered.node_of_edge (h : Numbered children root nodes) (hn : nodes[k]? = some n)
    (hj : (children n)[j]? = some (a, m)) :
    nodes[edgesBefore children nodes k + j + 1]? = some m := by
  have hlen : ((nodes.take k).flatMap fun n => (children n).map Prod.snd).length =
      edgesBefore children nodes k := by
    simp [edgesBefore]
  rw [h, getElem?_cons_succ, ← h, ← hlen]
  refine getElem?_flatMap _ hn ?_
  rw [getElem?_map, hj]
  rfl

variable (children) in
theorem stop_of_node (hn : nodes[k]? = some n) :
    (bitsOf children nodes)[startOf children nodes k + (children n).length]? = some true := by
  have hk : k < nodes.length := (List.getElem?_eq_some_iff.mp hn).1
  rw [← length_bitsOf_take (by omega)]
  refine getElem?_flatMap (unary children) hn ?_
  rw [unary, getElem?_append_right (by simp), length_map, Nat.sub_self]
  rfl

theorem rank1_of_node (hn : nodes[k]? = some n) (hj : j ≤ (children n).length) :
    rank1 (bitsOf children nodes) (startOf children nodes k + j) = k := by
  have hk : k < nodes.length := (List.getElem?_eq_some_iff.mp hn).1
  have hzero : ((unary children n ++ bitsOf children (nodes.drop (k + 1))).take j).count true = 0 := by
    rw [take_append_of_le_length (by simp [unary]; omega), unary,
      take_append_of_le_length (by simpa using hj), count_eq_zero]
    intro hmem
    simpa using mem_of_mem_take hmem
  rw [rank1, bitsOf, flatMap_eq_append _ hn, ← bitsOf, ← length_bitsOf_take (by omega),
    take_length_add_append, count_append, count_bitsOf, length_take,
    Nat.min_eq_left (by omega)]
  exact (congrArg (k + ·) hzero)

variable (children) in
theorem select1_of_node (hn : nodes[k]? = some n) :
    select1 (bitsOf children nodes) k = some (startOf children nodes k + (children n).length) := by
  have hk : k < nodes.length := (List.getElem?_eq_some_iff.mp hn).1
  have hsplit : bitsOf children nodes =
      (bitsOf children (nodes.take k) ++ (children n).map fun _ => false) ++
        true :: bitsOf children (nodes.drop (k + 1)) := by
    rw [bitsOf, flatMap_eq_append _ hn, unary]
    simp [bitsOf]
  have hcount : (bitsOf children (nodes.take k) ++ (children n).map fun _ => false).count true = k := by
    rw [count_append, count_bitsOf, length_take, Nat.min_eq_left (by omega)]
    simp [count_eq_zero]
  have hsel := select1_append_true (bitsOf children (nodes.take k) ++ (children n).map fun _ => false)
    (bitsOf children (nodes.drop (k + 1)))
  rw [hcount, ← hsplit, length_append, length_bitsOf_take (by omega), length_map] at hsel
  exact hsel

/-! ### Level by level -/

variable (children) in
def levels : Nat → List N → List N
  | 0, _ => []
  | fuel + 1, queue => queue ++ levels fuel (queue.flatMap fun n => (children n).map Prod.snd)

variable (children) in
def queueAfter : Nat → List N → List N
  | 0, queue => queue
  | fuel + 1, queue => queueAfter fuel (queue.flatMap fun n => (children n).map Prod.snd)

theorem levels_eq {fuel : Nat} {queue : List N} (h : queueAfter children fuel queue = []) :
    levels children fuel queue =
      queue ++ (levels children fuel queue).flatMap fun n => (children n).map Prod.snd := by
  induction fuel generalizing queue with
  | zero =>
    cases h
    rfl
  | succ fuel ih =>
    conv_rhs => rw [levels, flatMap_append]
    exact congrArg (queue ++ ·) (ih h)

theorem numbered_levels {fuel : Nat} (h : queueAfter children fuel [root] = []) :
    Numbered children root (levels children fuel [root]) :=
  levels_eq h

end Mihomo.Lib
