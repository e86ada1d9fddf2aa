import Mihomo.Lib.Louds
import Mathlib.Data.List.Dedup
import Mathlib.Data.List.Sort
import Mathlib.Order.Defs.LinearOrder

/-!
# The tree of prefixes of a set of strings

The nodes are the prefixes of the strings in `keys`, and an edge extends a prefix by one symbol; the
edges of a node are listed in increasing order. `kids` presents the tree in the form that the
level-order coding takes.
-/

namespace Mihomo.Lib
open List

variable {α : Type}

def IsNode (keys : List (List α)) (p : List α) : Prop := ∃ k ∈ keys, p <+: k

variable {p : List α} {keys : List (List α)}

theorem IsNode.of_append {s : List α} (h : IsNode keys (p ++ s)) : IsNode keys p := by
  obtain ⟨k, hk, hp⟩ := h
  exact ⟨k, hk, (prefix_append p s).trans hp⟩

theorem isNode_nil (h : keys ≠ []) : IsNode keys [] := by
  obtain ⟨k, hk⟩ := exists_mem_of_ne_nil keys h
  exact ⟨k, hk, nil_prefix⟩

variable [LinearOrder α]

/-- The symbol that extends the prefix `p` of `k`. -/
def nextOf (p k : List α) : Option α := if p <+: k then k[p.length]? else none

def edges (keys : List (List α)) (p : List α) : List α :=
  ((keys.filterMap (nextOf p)).dedup).insertionSort (· ≤ ·)

def kids (keys : List (List α)) (p : List α) : List (α × List α) :=
  (edges keys p).map fun c => (c, p ++ [c])

theorem nextOf_eq_some {k : List α} {c : α} : nextOf p k = some c ↔ p ++ [c] <+: k := by
  unfold nextOf
  constructor
  · intro h
    split_ifs at h with hp
    obtain ⟨s, rfl⟩ := hp
    rw [getElem?_append_right le_rfl, Nat.sub_self] at h
    rcases s with _ | ⟨c', s⟩
    · cases h
    · cases h
      exact ⟨s, by simp⟩
  · rintro ⟨s, rfl⟩
    simp

theorem mem_edges {c : α} : c ∈ edges keys p ↔ IsNode keys (p ++ [c]) := by
  rw [edges, (perm_insertionSort ..).mem_iff, mem_dedup, mem_filterMap]
  exact exists_congr fun k => and_congr_right fun _ => nextOf_eq_some

theorem edges_increasing (keys : List (List α)) (p : List α) : (edges keys p).Pairwise (· < ·) := by
  have hle : (edges keys p).Pairwise (· ≤ ·) := pairwise_insertionSort ..
  have hne : (edges keys p).Nodup :=
    (perm_insertionSort ..).nodup_iff.mpr (nodup_dedup _)
  exact (hle.and hne).imp fun h => lt_of_le_of_ne h.1 h.2

theorem edges_eq_of_mem {cs : List α}
    (hcs : cs.Pairwise (· < ·)) (h : ∀ c, c ∈ cs ↔ IsNode keys (p ++ [c])) : edges keys p = cs :=
  (edges_increasing keys p).eq_of_mem_iff hcs fun c => by rw [mem_edges, h]

theorem mem_of_edges_eq_nil (hp : IsNode keys p) (h : edges keys p = []) : p ∈ keys := by
  obtain ⟨k, hk, s, rfl⟩ := hp
  rcases s with _ | ⟨c, s⟩
  · rwa [append_nil] at hk
  · have hc : c ∈ edges keys p := mem_edges.mpr ⟨_, hk, s, by simp⟩
    rw [h] at hc
    cases hc

theorem mem_queueAfter {n : Nat} {queue : List (List α)} {x : List α}
    (hx : x ∈ queueAfter (kids keys) n queue) (hq : ∀ p ∈ queue, IsNode keys p) :
    IsNode keys x ∧ ∃ p ∈ queue, x.length = p.length + n := by
  induction n generalizing queue with
  | zero => exact ⟨hq x hx, x, hx, rfl⟩
  | succ n ih =>
    have hkids : ∀ y ∈ queue.flatMap fun p => (kids keys p).map Prod.snd,
        ∃ p ∈ queue, ∃ c ∈ edges keys p, y = p ++ [c] := by
      intro y hy
      obtain ⟨p, hp, hy⟩ := mem_flatMap.mp hy
      rw [kids, map_map] at hy
      obtain ⟨c, hc, rfl⟩ := mem_map.mp hy
      exact ⟨p, hp, c, hc, rfl⟩
    obtain ⟨hnode, y, hy, hlen⟩ := ih hx fun y hy => by
      obtain ⟨p, -, c, hc, rfl⟩ := hkids y hy
      exact mem_edges.mp hc
    obtain ⟨p, hp, c, -, rfl⟩ := hkids y hy
    exact ⟨hnode, p, hp, by rw [hlen, length_append, length_singleton]; omega⟩

theorem queueAfter_eq_nil {n : Nat} (hkeys : keys ≠ [])
    (hn : ∀ k ∈ keys, k.length < n) : queueAfter (kids keys) n [[]] = [] := by
  rw [eq_nil_iff_forall_not_mem]
  intro x hx
  obtain ⟨⟨k, hk, hpre⟩, p, hp, hlen⟩ := mem_queueAfter hx fun p hp => by
    rw [mem_singleton.mp hp]
    exact isNode_nil hkeys
  have h1 := hpre.length_le
  have h2 := hn k hk
  omega

end Mihomo.Lib
