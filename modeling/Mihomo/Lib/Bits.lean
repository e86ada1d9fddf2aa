import Mathlib.Data.Nat.Bitwise

/-!
# Bit streams

Words of a fixed width are cut from and put together to a stream of bits, the highest bit first. A
buffer with a count of valid bits is the list of these bits, whatever stands above them.
-/

namespace Mihomo.Lib
open List Nat

/-- The lowest `k` bits of a number, the highest of them first. -/
def lowBits : Nat → Nat → List Bool
  | 0, _ => []
  | k + 1, v => v.testBit k :: lowBits k v

variable {a b k u v : Nat}

@[simp] theorem length_lowBits (k v : Nat) : (lowBits k v).length = k := by
  induction k with
  | zero => rfl
  | succ k ih => rw [lowBits, length_cons, ih]

theorem lowBits_congr (h : ∀ i < k, u.testBit i = v.testBit i) : lowBits k u = lowBits k v := by
  induction k with
  | zero => rfl
  | succ k ih =>
    rw [lowBits, lowBits, h k (lt_succ_self k), ih fun i hi => h i (lt_succ_of_lt hi)]

theorem testBit_of_lowBits_eq (h : lowBits k u = lowBits k v) : ∀ i < k, u.testBit i = v.testBit i := by
  induction k with
  | zero => exact fun i hi => absurd hi (by omega)
  | succ k ih =>
    obtain ⟨hhead, htail⟩ := List.cons.inj h
    intro i hi
    rcases Nat.lt_succ_iff_lt_or_eq.mp hi with hlt | rfl
    · exact ih htail i hlt
    · exact hhead

theorem eq_of_lowBits_eq (hu : u < 2 ^ k) (hv : v < 2 ^ k) (h : lowBits k u = lowBits k v) : u = v := by
  apply eq_of_testBit_eq
  intro i
  by_cases hi : i < k
  · exact testBit_of_lowBits_eq h i hi
  · have hle : 2 ^ k ≤ 2 ^ i := Nat.pow_le_pow_right (by omega) (by omega)
    rw [testBit_lt_two_pow (by omega), testBit_lt_two_pow (by omega)]

theorem lowBits_add (a b v : Nat) : lowBits (a + b) v = lowBits a (v >>> b) ++ lowBits b v := by
  induction a with
  | zero => rw [zero_add, lowBits, nil_append]
  | succ a ih =>
    rw [add_right_comm, lowBits, ih, lowBits, testBit_shiftRight, add_comm b a, cons_append]

theorem lowBits_shiftLeft_or (a v : Nat) (hu : u < 2 ^ b) :
    lowBits (a + b) (v <<< b ||| u) = lowBits a v ++ lowBits b u := by
  have hhigh : (v <<< b ||| u) >>> b = v := by
    rw [shiftRight_or_distrib, shiftLeft_shiftRight, shiftRight_eq_div_pow,
      div_eq_of_lt hu, or_zero]
  have hlow : lowBits b (v <<< b ||| u) = lowBits b u := by
    apply lowBits_congr
    intro i hi
    rw [testBit_or, testBit_shiftLeft, decide_eq_false (not_le.mpr hi), Bool.false_and,
      Bool.false_or]
  rw [lowBits_add, hhigh, hlow]

theorem lowBits_mask (k v : Nat) : lowBits k (v &&& (1 <<< k - 1)) = lowBits k v := by
  apply lowBits_congr
  intro i hi
  rw [one_shiftLeft, testBit_and, testBit_two_pow_sub_one, decide_eq_true hi, Bool.and_true]

theorem lowBits_mod (k v : Nat) {m : Nat} (h : k ≤ m) : lowBits k (v % 2 ^ m) = lowBits k v := by
  apply lowBits_congr
  intro i hi
  rw [testBit_mod_two_pow, decide_eq_true (lt_of_lt_of_le hi h), Bool.true_and]

theorem lowBits_zero (k : Nat) : lowBits k 0 = List.replicate k false := by
  induction k with
  | zero => rfl
  | succ k ih => rw [lowBits, zero_testBit, ih, replicate_succ]

theorem cut_unique {α : Type} {f : α → List Bool} (hlength : ∀ x, (f x).length = k)
    (hinj : ∀ x y, f x = f y → x = y) {xs ys : List α} {r s : List Bool} (hr : r.length < k)
    (hs : s.length < k) (h : xs.flatMap f ++ r = ys.flatMap f ++ s) : xs = ys ∧ r = s := by
  induction xs generalizing ys with
  | nil =>
    cases ys with
    | nil => exact ⟨rfl, h⟩
    | cons y ys =>
      have := congrArg List.length h
      simp only [flatMap_cons, flatMap_nil, nil_append, length_append, hlength] at this
      omega
  | cons x xs ih =>
    cases ys with
    | nil =>
      have := congrArg List.length h
      simp only [flatMap_cons, flatMap_nil, nil_append, length_append, hlength] at this
      omega
    | cons y ys =>
      rw [flatMap_cons, flatMap_cons, append_assoc, append_assoc] at h
      obtain ⟨hhead, htail⟩ := append_inj h ((hlength x).trans (hlength y).symm)
      obtain ⟨rfl, rfl⟩ := ih htail
      exact ⟨by rw [hinj x y hhead], rfl⟩

end Mihomo.Lib
