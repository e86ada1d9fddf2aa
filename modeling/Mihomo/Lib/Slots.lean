import Mathlib.Data.Finset.Card
import Mathlib.Data.List.ReduceOption
import Mathlib.Tactic.Common

/-!
# Collecting numbered pieces

A buffer of slots is filled by pieces that carry the number of their slot; a slot
keeps the first piece it gets. `slotsOf p n seen` is the buffer of `n` slots in which
the pieces `p i` with `i ∈ seen` have arrived, in whatever order and however often.
`pieceAt size data i` is the `i`-th piece of a list that is cut every `size` elements.
-/

namespace Mihomo.Lib
open List Nat

universe u
variable {α : Type u}

/-! ### Filled slots -/

def filled (slots : List (Option α)) : Nat := slots.countP Option.isSome

theorem filled_le_length (slots : List (Option α)) : filled slots ≤ slots.length :=
  countP_le_length

variable {slots : List (Option α)} {i n : Nat}

theorem filled_eq_length_iff : filled slots = slots.length ↔ ∀ slot ∈ slots, slot ≠ none := by
  rw [filled, countP_eq_length]
  exact forall₂_congr fun slot _ => Option.isSome_iff_ne_none

theorem filled_map_some (as : List α) : filled (as.map some) = as.length := by
  simp [filled]

theorem exists_map_some (h : filled slots = slots.length) : ∃ as : List α, slots = as.map some := by
  have hall := filled_eq_length_iff.mp h
  refine ⟨slots.reduceOption, ?_⟩
  clear h
  induction slots with
  | nil => rfl
  | cons slot slots ih =>
    rw [forall_mem_cons] at hall
    obtain ⟨a, rfl⟩ := Option.ne_none_iff_exists'.mp hall.1
    rw [reduceOption_cons_of_some, map_cons, ← ih hall.2]

theorem filled_set (h : slots[i]? = some none) (a : α) :
    filled (slots.set i (some a)) = filled slots + 1 := by
  induction slots generalizing i with
  | nil => cases h
  | cons slot slots ih =>
    cases i with
    | zero =>
      obtain rfl : slot = none := by simpa using h
      simp [filled]
    | succ i =>
      have hrest := ih h
      simp only [filled, set_cons_succ, countP_cons] at hrest ⊢
      omega

theorem filled_ne_length (h : slots[i]? = some none) : filled slots ≠ slots.length := fun hall =>
  filled_eq_length_iff.mp hall none (mem_of_getElem? h) rfl

theorem filled_replicate (n : Nat) : filled (replicate n (none : Option α)) = 0 := by
  rw [filled, countP_eq_zero]
  intro slot hslot
  rw [eq_of_mem_replicate hslot]
  exact Bool.false_ne_true

theorem toNat_succ_eq_filled {count : UInt8} (hcount : count.toNat = filled slots)
    (hshort : slots.length < 256) (hi : slots[i]? = some none) (a : α) :
    (count + 1).toNat = filled (slots.set i (some a)) := by
  have hfilled := filled_set hi a
  have hle := filled_le_length (slots.set i (some a))
  rw [length_set] at hle
  rw [UInt8.toNat_add, UInt8.toNat_one]
  omega

theorem filled_first (hi : i < n) (a : α) :
    filled ((replicate n none).set i (some a)) = 1 := by
  have hfree : (replicate n (none : Option α))[i]? = some none := by
    rw [getElem?_replicate, if_pos hi]
  rw [filled_set hfree, filled_replicate]

theorem filled_set_of_filled (h : filled slots = slots.length) (i : Nat) (a : α) :
    filled (slots.set i (some a)) = slots.length := by
  have hset : filled (slots.set i (some a)) = (slots.set i (some a)).length := by
    refine filled_eq_length_iff.mpr fun slot hslot => ?_
    rcases mem_or_eq_of_mem_set hslot with hmem | rfl
    · exact filled_eq_length_iff.mp h slot hmem
    · exact Option.some_ne_none a
  rwa [length_set] at hset

theorem slot_of_set {j : Nat} {a b : α} (h : (slots.set i (some a))[j]? = some (some b)) :
    i = j ∧ b = a ∨ slots[j]? = some (some b) := by
  rw [getElem?_set] at h
  split_ifs at h with hij hlt
  · cases h
    exact .inl ⟨hij, rfl⟩
  · exact .inr h

/-! ### Pieces that have arrived -/

section Seen

variable (p : Nat → α) (n : Nat)

def slotsOf (seen : Finset Nat) : List (Option α) :=
  (range n).map fun i => if i ∈ seen then some (p i) else none

variable {p n} {seen : Finset Nat} {i : Nat}

theorem length_slotsOf : (slotsOf p n seen).length = n := by
  rw [slotsOf, length_map, length_range]

theorem getElem?_slotsOf (p : Nat → α) (seen : Finset Nat) (hi : i < n) :
    (slotsOf p n seen)[i]? = some (if i ∈ seen then some (p i) else none) := by
  rw [slotsOf, getElem?_map, getElem?_range hi]
  rfl

theorem slotsOf_empty : slotsOf p n ∅ = replicate n none := by
  refine eq_replicate_iff.mpr ⟨length_slotsOf, ?_⟩
  intro slot hslot
  obtain ⟨i, -, rfl⟩ := mem_map.mp hslot
  exact if_neg (Finset.notMem_empty i)

theorem set_slotsOf (hi : i < n) :
    (slotsOf p n seen).set i (some (p i)) = slotsOf p n (insert i seen) := by
  apply ext_getElem?
  intro j
  rw [getElem?_set, length_slotsOf, if_pos hi]
  by_cases hj : j < n
  · rw [getElem?_slotsOf p _ hj, getElem?_slotsOf p _ hj]
    by_cases hij : i = j
    · subst hij
      rw [if_pos rfl, if_pos (Finset.mem_insert_self i seen)]
    · simp [if_neg hij, Ne.symm hij]
  · have hout : ∀ seen', (slotsOf p n seen')[j]? = none := fun seen' =>
      getElem?_eq_none (by rw [length_slotsOf]; omega)
    rw [if_neg (by omega), hout, hout]

def Complete (n : Nat) (seen : Finset Nat) : Prop := ∀ i < n, i ∈ seen

theorem not_complete_first {n : Nat} (htwo : 2 ≤ n) (i : Nat) : ¬ Complete n (insert i ∅) := by
  intro h
  have h0 := h 0 (by omega)
  have h1 := h 1 (by omega)
  simp only [Finset.mem_insert, Finset.notMem_empty, or_false] at h0 h1
  omega

theorem filled_slotsOf_eq_iff : filled (slotsOf p n seen) = n ↔ Complete n seen := by
  have hlen : n = (slotsOf p n seen).length := length_slotsOf.symm
  conv_lhs => rhs; rw [hlen]
  rw [filled_eq_length_iff]
  constructor
  · intro h i hi
    by_contra hmem
    have hslot := getElem?_slotsOf p seen hi
    rw [if_neg hmem] at hslot
    exact h none (mem_of_getElem? hslot) rfl
  · intro h slot hslot
    obtain ⟨i, hi, rfl⟩ := mem_map.mp hslot
    rw [if_pos (h i (mem_range.mp hi))]
    exact Option.some_ne_none _

theorem slotsOf_complete (h : Complete n seen) :
    slotsOf p n seen = (range n).map fun i => some (p i) :=
  map_congr_left fun i hi => if_pos (h i (mem_range.mp hi))

end Seen

variable {is : List Nat} {p : Nat → α}

theorem exists_last_missing (hn : 0 < n) (h : ∀ i < n, i ∈ is) :
    ∃ before i after, is = before ++ i :: after ∧ ¬ Complete n before.toFinset ∧
      Complete n (insert i before.toFinset) := by
  induction is using reverseRecOn with
  | nil => exact absurd (h 0 hn) not_mem_nil
  | append_singleton is i ih =>
    by_cases hall : ∀ j < n, j ∈ is
    · obtain ⟨before, j, after, rfl, hbefore, hdone⟩ := ih hall
      exact ⟨before, j, after ++ [i], by simp, hbefore, hdone⟩
    · refine ⟨is, i, [], rfl, fun hc => hall fun j hj => mem_toFinset.mp (hc j hj), fun j hj => ?_⟩
      have hmem := h j hj
      rw [mem_append, mem_singleton] at hmem
      rw [Finset.mem_insert, mem_toFinset]
      exact hmem.symm

theorem exists_indices {arrivals : List α}
    (h : ∀ a ∈ arrivals, a ∈ (range n).map p) :
    ∃ is : List Nat, (∀ i ∈ is, i < n) ∧ arrivals = is.map p := by
  induction arrivals with
  | nil => exact ⟨[], nofun, rfl⟩
  | cons a arrivals ih =>
    rw [forall_mem_cons] at h
    obtain ⟨is, his, rfl⟩ := ih h.2
    obtain ⟨i, hi, rfl⟩ := mem_map.mp h.1
    exact ⟨i :: is, forall_mem_cons.mpr ⟨mem_range.mp hi, his⟩, rfl⟩

theorem subset_iff_complete (hinj : ∀ i < n, ∀ j < n, p i = p j → i = j)
    (his : ∀ i ∈ is, i < n) :
    (range n).map p ⊆ is.map p ↔ Complete n is.toFinset := by
  constructor
  · intro h i hi
    obtain ⟨j, hj, he⟩ := mem_map.mp (h (mem_map_of_mem (mem_range.mpr hi)))
    rw [mem_toFinset, ← hinj j (his j hj) i hi he]
    exact hj
  · intro h a ha
    obtain ⟨i, hi, rfl⟩ := mem_map.mp ha
    exact mem_map_of_mem (mem_toFinset.mp (h i (mem_range.mp hi)))

/-- The answers to arrivals that are collected in rounds: a round ends, with the whole, at the
arrival of its last missing piece. `seen` are the arrivals of the current round. -/
def rounds {β : Type u} [DecidableEq α] (pieces : List α) (whole : β) (seen : List α) :
    List α → List (Option β)
  | [] => []
  | a :: arrivals =>
    if pieces ⊆ a :: seen then some whole :: rounds pieces whole [] arrivals
    else none :: rounds pieces whole (a :: seen) arrivals

/-! ### Cutting a list into pieces -/

section Pieces

def pieceCount (len size : Nat) : Nat := (len + size - 1) / size

def pieceAt (size : Nat) (data : List α) (i : Nat) : List α := (data.drop (i * size)).take size

variable {size len : Nat} {data : List α} {i : Nat}

theorem lt_pieceCount_iff (hs : 0 < size) : i < pieceCount len size ↔ i * size < len := by
  rw [pieceCount, lt_iff_add_one_le, le_div_iff_mul_le hs, Nat.add_mul]
  omega

theorem pieceCount_le (len : Nat) (hs : 0 < size) : pieceCount len size ≤ len := by
  by_contra hlt
  have hmul := (lt_pieceCount_iff hs).mp (not_le.mp hlt)
  exact not_lt.mpr (Nat.le_mul_of_pos_right len hs) hmul

variable {off : Nat}

theorem pieceAt_of_offset (hs : 0 < size) (hoff : off = min (i * size) data.length)
    (hi : i < pieceCount data.length size) :
    off < data.length ∧ (data.drop off).take (min (data.length - off) size) = pieceAt size data i ∧
      off + min (data.length - off) size = min ((i + 1) * size) data.length := by
  have hmul := (lt_pieceCount_iff hs).mp hi
  obtain rfl : off = i * size := by omega
  refine ⟨hmul, ?_, ?_⟩
  · rw [pieceAt, take_eq_take_iff, length_drop]
    omega
  · rw [Nat.add_mul]
    omega

theorem offset_of_pieceCount_le (hs : 0 < size) (hoff : off = min (i * size) len)
    (hi : pieceCount len size ≤ i) : off = len := by
  have hmul : len ≤ i * size := not_lt.mp fun hlt => not_lt.mpr hi ((lt_pieceCount_iff hs).mpr hlt)
  omega

theorem length_pieceAt (size : Nat) (data : List α) (i : Nat) :
    (pieceAt size data i).length = min size (data.length - i * size) := by
  rw [pieceAt, length_take, length_drop]

theorem flatten_pieces (data : List α) (size k : Nat) :
    ((range k).map fun i => pieceAt size data i).flatten = data.take (k * size) := by
  induction k with
  | zero => simp
  | succ k ih =>
    rw [range_succ, map_append, flatten_append, ih, Nat.add_mul, take_add]
    simp [pieceAt]

theorem flatten_all_pieces (hs : 0 < size) (data : List α) :
    ((range (pieceCount data.length size)).map fun i => pieceAt size data i).flatten = data := by
  rw [flatten_pieces]
  refine take_of_length_le (le_of_not_gt fun hlt => ?_)
  exact lt_irrefl _ ((lt_pieceCount_iff hs).mpr hlt)

end Pieces

end Mihomo.Lib
