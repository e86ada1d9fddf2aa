import Mihomo.Trie.Layout

/-!
# Reading the coded tree

Node number `k` of a set built from `keys` stands for a prefix `p` of keys (`At keys k p`). Its leaf
bit says whether `p` is a key, its edges start at `start keys k` and lead to the nodes of the longer
prefixes, and a one follows them.
-/

namespace Mihomo.Trie
open Go Lib List

def At (keys : List Str) (k : Nat) (p : Str) : Prop := (nodesOf keys)[k]? = some p

def start (keys : List Str) (k : Nat) : Nat := startOf (kids keys) (nodesOf keys) k

def EdgeAt (keys : List Str) (k : Nat) (p : Str) (c : UInt8) (i : Nat) : Prop :=
  ∃ j, i = start keys k + j ∧ (edges keys p)[j]? = some c

variable {keys : List Str} {k i : Nat} {p : Str} {c : UInt8}

theorem getBit_eq {bm : Bitmap} {v : Bool} (h : bm[i]? = some v) : getBit bm i = .ok v := by
  obtain ⟨hi, hv⟩ := List.getElem?_eq_some_iff.mp h
  have hw : i / 64 < words bm := by
    unfold words
    omega
  rw [getBit, if_pos hw, getD_eq_getElem?_getD, h]
  rfl

theorem at_root : At keys 0 [] := rfl

theorem At.eq_zero (hne : keys ≠ []) (h : At keys k []) : k = 0 := by
  rcases k with _ | k
  · rfl
  · rw [At, numbered_nodesOf hne] at h
    obtain ⟨p, -, hp⟩ := mem_flatMap.mp (mem_of_getElem? h)
    rw [kids, map_map] at hp
    obtain ⟨c, -, hc⟩ := mem_map.mp hp
    exact absurd hc (by simp)

theorem start_zero : start keys 0 = 0 := startOf_zero

theorem At.isNode (hne : keys ≠ []) (h : At keys k p) : IsNode keys p :=
  ((levels_length (root_level hne)).2 p (mem_of_getElem? h)).2

theorem At.leaf (h : At keys k p) : getBit (layoutOf keys).leaves k = .ok (decide (p ∈ keys)) := by
  refine getBit_eq ?_
  rw [layoutOf, getElem?_map, h]
  rfl

theorem length_kids : (kids keys p).length = (edges keys p).length := length_map _

theorem getElem?_kids {j : Nat} (hj : (edges keys p)[j]? = some c) :
    (kids keys p)[j]? = some (c, p ++ [c]) := by
  rw [kids, getElem?_map, hj]
  rfl

theorem le_start (keys : List Str) (k : Nat) : k ≤ start keys k := Nat.le_add_left _ _

namespace EdgeAt

theorem lt_length {j : Nat} (hj : (edges keys p)[j]? = some c) : j < (kids keys p).length := by
  rw [length_kids]
  exact (List.getElem?_eq_some_iff.mp hj).1

theorem bit (h : EdgeAt keys k p c i) (hk : At keys k p) :
    getBit (layoutOf keys).labelBitmap i = .ok false := by
  obtain ⟨j, rfl, hj⟩ := h
  exact getBit_eq (bit_of_edge hk (lt_length hj))

theorem label (h : EdgeAt keys k p c i) (hk : At keys k p) :
    (layoutOf keys).labelAt i k = .ok c := by
  obtain ⟨j, rfl, hj⟩ := h
  have hle := le_start keys k
  have hsub : start keys k + j - k = edgesBefore (kids keys) (nodesOf keys) k + j := by
    unfold start startOf
    omega
  rw [DomainSet.labelAt, if_neg (by omega), hsub]
  have hl := label_of_edge hk (getElem?_kids hj)
  rw [layoutOf, hl]
  rfl

theorem child (hne : keys ≠ []) (h : EdgeAt keys k p c i) (hk : At keys k p) :
    At keys (i - k + 1) (p ++ [c]) := by
  obtain ⟨j, rfl, hj⟩ := h
  have hsub : start keys k + j - k = edgesBefore (kids keys) (nodesOf keys) k + j := by
    unfold start startOf
    omega
  rw [hsub]
  exact (numbered_nodesOf hne).node_of_edge hk (getElem?_kids hj)

theorem countZeros (h : EdgeAt keys k p c i) (hk : At keys k p) :
    countZeros (layoutOf keys).labelBitmap (i + 1) = .ok (i - k + 1) := by
  obtain ⟨j, rfl, hj⟩ := h
  have hlt := lt_length hj
  have hrank : rank1 (layoutOf keys).labelBitmap (start keys k + j + 1) = k :=
    rank1_of_node hk hlt
  have hstop := (List.getElem?_eq_some_iff.mp (stop_of_node (kids keys) hk)).1
  have hle := le_start keys k
  have hw : (start keys k + j + 1) / 64 < words (layoutOf keys).labelBitmap := by
    change startOf (kids keys) (nodesOf keys) k + (kids keys p).length <
      (layoutOf keys).labelBitmap.length at hstop
    unfold words start
    omega
  rw [Trie.countZeros, if_pos hw]
  congr 1
  omega

end EdgeAt

def stop (keys : List Str) (k : Nat) (p : Str) : Nat := start keys k + (edges keys p).length

theorem At.stop (h : At keys k p) : getBit (layoutOf keys).labelBitmap (stop keys k p) = .ok true := by
  refine getBit_eq ?_
  have hs := stop_of_node (kids keys) h
  rw [length_kids] at hs
  exact hs

theorem At.selectIthOne (h : At keys k p) :
    selectIthOne (layoutOf keys).labelBitmap k = .ok (Trie.stop keys k p) := by
  have hs := select1_of_node (kids keys) h
  rw [length_kids] at hs
  exact congrArg inRange hs

theorem At.select_before (h : At keys (k + 1) p) :
    Trie.selectIthOne (layoutOf keys).labelBitmap k = .ok (start keys (k + 1) - 1) := by
  obtain ⟨hk, -⟩ := List.getElem?_eq_some_iff.mp h
  obtain ⟨q, hq⟩ : ∃ q, At keys k q :=
    ⟨_, List.getElem?_eq_getElem (by omega)⟩
  have hsucc := startOf_succ (kids keys) hq
  rw [length_kids] at hsucc
  rw [hq.selectIthOne, start, hsucc]
  rfl

theorem one_le_start (keys : List Str) (k : Nat) : 1 ≤ start keys (k + 1) :=
  (Nat.le_add_left 1 k).trans (le_start keys (k + 1))

theorem At.startAfter (h : At keys k p) (hk : k ≠ 0) :
    (layoutOf keys).startAfter k = .ok (start keys k) := by
  rcases k with _ | k
  · exact absurd rfl hk
  · rw [DomainSet.startAfter, Nat.add_sub_cancel, h.select_before]
    change Except.ok (start keys (k + 1) - 1 + 1) = _
    rw [Nat.sub_add_cancel (one_le_start keys k)]

/-! ### Scanning the edges of a node

A scan stands between the edges it has passed and those still ahead. -/

section Scan

variable {passed ahead : List UInt8}

theorem edgeAt_of_split (h : edges keys p = passed ++ c :: ahead) :
    EdgeAt keys k p c (start keys k + passed.length) := ⟨passed.length, rfl, by rw [h]; simp⟩

theorem At.stop_of_split (hk : At keys k p) (h : edges keys p = passed) :
    getBit (layoutOf keys).labelBitmap (start keys k + passed.length) = .ok true := by
  rw [← h]
  exact hk.stop

section
variable (h : edges keys p = passed ++ c :: ahead)
include h

theorem split_succ : edges keys p = (passed ++ [c]) ++ ahead := by
  rw [h]
  simp

theorem lt_of_split : ∀ d ∈ ahead, c < d := by
  have hinc := edges_increasing keys p
  rw [h, pairwise_append, pairwise_cons] at hinc
  exact hinc.2.1.1

theorem lt_of_split_left : ∀ d ∈ passed, d < c := by
  have hinc := edges_increasing keys p
  rw [h, pairwise_append] at hinc
  exact fun d hd => hinc.2.2 d hd c mem_cons_self

end

theorem lt_scanFuel (hk : At keys k p) (h : edges keys p = passed ++ ahead) :
    ahead.length < (layoutOf keys).scanFuel := by
  have hstop := (List.getElem?_eq_some_iff.mp (stop_of_node (kids keys) hk)).1
  have hlen : ahead.length ≤ (kids keys p).length := by
    rw [length_kids, h, length_append]
    omega
  change startOf (kids keys) (nodesOf keys) k + (kids keys p).length <
    (layoutOf keys).labelBitmap.length at hstop
  unfold DomainSet.scanFuel
  omega

end Scan

end Mihomo.Trie
