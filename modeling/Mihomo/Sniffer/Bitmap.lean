import Mathlib.Algebra.Group.Nat.Defs
import Mathlib.Data.Nat.Size
import Mathlib.Tactic.Common

/-!
# A growable bitmap (component/sniffer/bitmap.go)

Bits are kept in words of 64 bits; words that have not been allocated count as zero. A range is set
word by word with masks for the first and the last one, and the first bit that is not set is found word
by word.
-/

namespace Mihomo.Sniffer
open List Nat Bool
structure Bitmap where
  words : List (BitVec 64) := []

def trailingZeros (w : BitVec 64) : Nat := ((List.range 64).find? fun j => w.getLsbD j).getD 64

def grow (words : List (BitVec 64)) (wordCount : Nat) : List (BitVec 64) :=
  if words.length < wordCount then
    let newWordCount := 2 ^ (wordCount - 1).size
    let newWordCount := if 2 ^ 63 - 1 < newWordCount then wordCount else newWordCount
    words ++ List.replicate (newWordCount - words.length) 0#64
  else words

def fill (words : List (BitVec 64)) (i : Nat) : Nat → List (BitVec 64)
  | 0 => words
  | n + 1 => fill (words.set i (BitVec.allOnes 64)) (i + 1) n

/-- The low `k` bits: `(uint64(1) << k) - 1`. -/
def lowMask (k : Nat) : BitVec 64 := (1#64 <<< k) - 1#64

def lastMask (stop : Nat) : BitVec 64 :=
  if stop % 64 ≠ 0 then lowMask (stop % 64) else BitVec.allOnes 64

/-- The loop of `firstUnset`; the list is the words behind the current one. -/
def scan (stop : Nat) : Nat → BitVec 64 → List (BitVec 64) → Nat
  | wordIndex, word, rest =>
    if word ≠ BitVec.allOnes 64 then
      let unset := wordIndex * 64 + trailingZeros (~~~word)
      if unset < stop then unset else stop
    else if stop ≤ (wordIndex + 1) * 64 then stop
    else
      match rest with
      | [] => (wordIndex + 1) * 64
      | next :: rest => scan stop (wordIndex + 1) next rest

namespace Bitmap

/-- `none` is the panic. -/
def setRange (b : Bitmap) (start stop : Nat) : Option Bitmap :=
  if stop < start then none
  else if start = stop then some b
  else
    let words := grow b.words ((stop - 1) / 64 + 1)
    let firstWord := start / 64
    let lastWord := (stop - 1) / 64
    let firstMask := BitVec.allOnes 64 <<< (start % 64)
    if firstWord = lastWord then
      some ⟨words.modify firstWord (· ||| (firstMask &&& lastMask stop))⟩
    else
      let words := words.modify firstWord (· ||| firstMask)
      let words := fill words (firstWord + 1) (lastWord - (firstWord + 1))
      some ⟨words.modify lastWord (· ||| lastMask stop)⟩

/-- `none` is the panic. -/
def firstUnset (b : Bitmap) (start stop : Nat) : Option Nat :=
  if stop < start then none
  else if start = stop then some stop
  else
    match b.words.drop (start / 64) with
    | [] => some start
    | word :: rest => some (scan stop (start / 64) (word ||| lowMask (start % 64)) rest)

def bit (b : Bitmap) (i : Nat) : Bool := (b.words[i / 64]?.getD 0#64).getLsbD (i % 64)

end Bitmap

/-! ### Masks -/

theorem getLsbD_lowMask {k : Nat} (hk : k < 64) (j : Nat) : (lowMask k).getLsbD j = decide (j < k) := by
  have hval : (lowMask k).toNat = 2 ^ k - 1 := by
    have hlt : 2 ^ k < 2 ^ 64 := Nat.pow_lt_pow_right (by omega) hk
    have hpos : 0 < 2 ^ k := Nat.two_pow_pos k
    rw [lowMask, BitVec.toNat_sub, BitVec.toNat_shiftLeft, BitVec.toNat_one (by omega)]
    omega
  rw [BitVec.getLsbD, hval, testBit_two_pow_sub_one]

theorem getLsbD_highMask (k j : Nat) (hj : j < 64) :
    (BitVec.allOnes 64 <<< k).getLsbD j = decide (k ≤ j) := by
  rw [BitVec.getLsbD_shiftLeft, BitVec.getLsbD_allOnes]
  by_cases h : k ≤ j
  · simp [h, hj, show j - k < 64 by omega]
  · simp [h]

theorem getLsbD_lastMask (stop j : Nat) (hj : j < 64) :
    (lastMask stop).getLsbD j = decide (stop % 64 = 0 ∨ j < stop % 64) := by
  unfold lastMask
  split
  next hne =>
    rw [getLsbD_lowMask (mod_lt _ (by omega))]
    simp [hne]
  next heq =>
    rw [BitVec.getLsbD_allOnes]
    simp [not_not.mp heq, hj]

theorem trailingZeros_not {w : BitVec 64} (hw : w ≠ BitVec.allOnes 64) :
    trailingZeros (~~~w) < 64 ∧ w.getLsbD (trailingZeros (~~~w)) = false ∧
      ∀ j < trailingZeros (~~~w), w.getLsbD j = true := by
  unfold trailingZeros
  cases hfind : (List.range 64).find? fun j => (~~~w).getLsbD j with
  | none =>
    refine absurd (BitVec.eq_of_getLsbD_eq fun j hj => ?_) hw
    have hnone := find?_eq_none.mp hfind j (mem_range.mpr hj)
    rw [BitVec.getLsbD_allOnes]
    simpa [hj] using hnone
  | some j =>
    obtain ⟨hbit, hj, hbefore⟩ := find?_range_eq_some.mp hfind
    rw [mem_range] at hj
    refine ⟨hj, by simpa [hj] using hbit, fun i hi => ?_⟩
    have hset := hbefore i hi
    simpa [show i < 64 by rw [Option.getD_some] at hi; omega] using hset

/-! ### Words -/

theorem length_grow (words : List (BitVec 64)) (wordCount : Nat) :
    wordCount ≤ (grow words wordCount).length := by
  unfold grow
  split
  · have hsize := lt_size_self (wordCount - 1)
    rw [length_append, length_replicate]
    split <;> omega
  · omega

namespace Bitmap

theorem bit_grow (words : List (BitVec 64)) (wordCount i : Nat) :
    bit ⟨grow words wordCount⟩ i = bit ⟨words⟩ i := by
  unfold grow
  split
  · dsimp only [bit]
    rw [getElem?_append]
    split
    · rfl
    · rw [getElem?_eq_none (by omega : words.length ≤ i / 64)]
      cases hget : (List.replicate _ 0#64)[i / 64 - words.length]? with
      | none => rfl
      | some w =>
        rw [eq_of_mem_replicate (mem_of_getElem? hget)]
        rfl
  · rfl

variable {k start : Nat} {words : List (BitVec 64)}

theorem bit_modify (hk : k < words.length) (mask : BitVec 64)
    (i : Nat) :
    bit ⟨words.modify k (· ||| mask)⟩ i =
      (bit ⟨words⟩ i || (decide (i / 64 = k) && mask.getLsbD (i % 64))) := by
  dsimp only [bit]
  by_cases h : i / 64 = k
  · subst h
    rw [getElem?_modify_eq, getElem?_eq_getElem hk]
    simp
  · simp [h, Ne.symm h]

theorem length_fill (words : List (BitVec 64)) (i n : Nat) : (fill words i n).length = words.length := by
  induction n generalizing words i with
  | zero => rfl
  | succ n ih => rw [fill, ih, length_set]

theorem bit_fill {n : Nat} (hk : k + n ≤ words.length) (i : Nat) :
    bit ⟨fill words k n⟩ i = (bit ⟨words⟩ i || (decide (k ≤ i / 64) && decide (i / 64 < k + n))) := by
  induction n generalizing words k with
  | zero =>
    have hfalse : (decide (k ≤ i / 64) && decide (i / 64 < k + 0)) = false := by
      simp only [and_eq_false_iff, decide_eq_false_iff_not]
      omega
    rw [hfalse, Bool.or_false]
    rfl
  | succ n ih =>
    rw [fill, ih (by rw [length_set]; omega)]
    have hset : bit ⟨words.set k (.allOnes 64)⟩ i = (bit ⟨words⟩ i || decide (i / 64 = k)) := by
      dsimp only [bit]
      by_cases h : k = i / 64
      · subst h
        rw [getElem?_set_self (by omega), Option.getD_some, BitVec.getLsbD_allOnes]
        simp [mod_lt i (by omega : 64 > 0)]
      · rw [getElem?_set_ne h]
        simp [Ne.symm h]
    rw [hset, Bool.or_assoc]
    congr 1
    rw [Bool.eq_iff_iff]
    simp only [or_eq_true, and_eq_true, decide_eq_true_eq]
    omega

/-! ### The two functions -/

variable {stop wordIndex low : Nat} {word : BitVec 64} {b : Bitmap}

theorem setRange_spec (b : Bitmap) (h : start ≤ stop) :
    ∃ b', b.setRange start stop = some b' ∧
      ∀ i, b'.bit i = (b.bit i || decide (start ≤ i ∧ i < stop)) := by
  unfold setRange
  rw [if_neg (by omega)]
  split
  · subst_vars
    refine ⟨b, rfl, fun i => ?_⟩
    rw [decide_eq_false (by omega), Bool.or_false]
  · have hlength := length_grow b.words ((stop - 1) / 64 + 1)
    have hfirst (i : Nat) := getLsbD_highMask (start % 64) (i % 64) (mod_lt i (by omega))
    have hlast (i : Nat) := getLsbD_lastMask stop (i % 64) (mod_lt i (by omega))
    dsimp only
    split
    · refine ⟨_, rfl, fun i => ?_⟩
      rw [bit_modify (by omega), bit_grow, BitVec.getLsbD_and, hfirst, hlast]
      congr 1
      rw [Bool.eq_iff_iff]
      simp only [and_eq_true, decide_eq_true_eq]
      omega
    · refine ⟨_, rfl, fun i => ?_⟩
      rw [bit_modify (by rw [length_fill, length_modify]; omega),
        bit_fill (by rw [length_modify]; omega), bit_modify (by omega), bit_grow, hfirst, hlast,
        Bool.or_assoc, Bool.or_assoc]
      congr 1
      rw [Bool.eq_iff_iff]
      simp only [or_eq_true, and_eq_true, decide_eq_true_eq]
      omega

def Gap (b : Bitmap) (low stop r : Nat) : Prop :=
  low ≤ r ∧ r ≤ stop ∧ (∀ i, low ≤ i → i < r → b.bit i = true) ∧ (r < stop → b.bit r = false)

def WordAt (b : Bitmap) (wordIndex low : Nat) (word : BitVec 64) : Prop :=
  ∀ j < 64, word.getLsbD j = (b.bit (wordIndex * 64 + j) || decide (wordIndex * 64 + j < low))

theorem bit_word (b : Bitmap) (wordIndex : Nat) {j : Nat} (hj : j < 64) :
    b.bit (wordIndex * 64 + j) = (b.words[wordIndex]?.getD 0#64).getLsbD j := by
  rw [bit, show (wordIndex * 64 + j) / 64 = wordIndex by omega,
    show (wordIndex * 64 + j) % 64 = j by omega]

theorem WordAt.bit (h : b.WordAt wordIndex low word) {i : Nat} (hi : low ≤ i)
    (hlow : wordIndex * 64 ≤ low) (hi' : i < (wordIndex + 1) * 64) :
    b.bit i = word.getLsbD (i - wordIndex * 64) := by
  have hbit := h (i - wordIndex * 64) (by omega)
  rw [show wordIndex * 64 + (i - wordIndex * 64) = i by omega, decide_eq_false (by omega),
    Bool.or_false] at hbit
  exact hbit.symm

theorem WordAt.full (h : b.WordAt wordIndex low (BitVec.allOnes 64))
    (hlow : wordIndex * 64 ≤ low) : ∀ i, low ≤ i → i < (wordIndex + 1) * 64 → b.bit i = true := by
  intro i hi hi'
  rw [h.bit hi hlow hi', BitVec.getLsbD_allOnes]
  exact decide_eq_true (by omega)

theorem WordAt.gap (h : b.WordAt wordIndex low word) (hlow : wordIndex * 64 ≤ low)
    (hstop : low < stop) (hword : word ≠ BitVec.allOnes 64) :
    b.Gap low stop (if wordIndex * 64 + trailingZeros (~~~word) < stop then
      wordIndex * 64 + trailingZeros (~~~word) else stop) := by
  obtain ⟨hlt, hunset, hset⟩ := trailingZeros_not hword
  have hle : low ≤ wordIndex * 64 + trailingZeros (~~~word) := by
    by_contra hgt
    have hbit := h _ hlt
    rw [hunset, decide_eq_true (by omega), Bool.or_true] at hbit
    cases hbit
  have hbefore : ∀ i, low ≤ i → i < wordIndex * 64 + trailingZeros (~~~word) → b.bit i = true := by
    intro i hi hi'
    rw [h.bit hi hlow (by omega)]
    exact hset _ (by omega)
  split
  · refine ⟨hle, by omega, hbefore, fun _ => ?_⟩
    rw [h.bit hle hlow (by omega), Nat.add_sub_cancel_left]
    exact hunset
  · exact ⟨by omega, Nat.le_refl _, fun i hi hi' => hbefore i hi (by omega), fun h => by omega⟩

theorem scan_spec (b : Bitmap) (stop : Nat) {rest : List (BitVec 64)}
    (hrest : b.words.drop (wordIndex + 1) = rest) (hword : b.WordAt wordIndex low word)
    (hlow : wordIndex * 64 ≤ low) (hlow' : low ≤ (wordIndex + 1) * 64) (hstop : low < stop) :
    b.Gap low stop (scan stop wordIndex word rest) := by
  induction rest generalizing wordIndex low word
  all_goals
    unfold scan
    split
    · exact hword.gap hlow hstop ‹_›
    rename_i hfull
    have hset := (not_not.mp hfull ▸ hword).full hlow
    split
    · exact ⟨by omega, Nat.le_refl _, fun i hi hi' => hset i hi (by omega), fun h => by omega⟩
    dsimp only
  case nil.isFalse.isFalse =>
    refine ⟨by omega, by omega, hset, fun _ => ?_⟩
    have hbit := b.bit_word (wordIndex + 1) (j := 0) (by omega)
    rw [getElem?_eq_none (drop_eq_nil_iff.mp hrest)] at hbit
    exact hbit
  case cons.isFalse.isFalse next rest ih _ =>
    have hnext : b.words[wordIndex + 1]? = some next := by
      rw [← head?_drop, hrest]
      rfl
    have hdrop : b.words.drop (wordIndex + 1 + 1) = rest := by
      rw [← drop_drop, hrest]
      rfl
    have hword' : b.WordAt (wordIndex + 1) ((wordIndex + 1) * 64) next := by
      intro j hj
      rw [b.bit_word _ hj, hnext, decide_eq_false (by omega), Bool.or_false]
      rfl
    obtain ⟨hle, hr, hset', hunset⟩ :=
      ih hdrop hword' (Nat.le_refl _) (by omega) (by omega)
    refine ⟨by omega, hr, fun i hi hi' => ?_, hunset⟩
    by_cases h : i < (wordIndex + 1) * 64
    · exact hset i hi h
    · exact hset' i (by omega) hi'

theorem firstUnset_spec (b : Bitmap) (h : start ≤ stop) :
    ∃ r, b.firstUnset start stop = some r ∧ b.Gap start stop r := by
  unfold firstUnset
  rw [if_neg (by omega)]
  split
  · subst_vars
    exact ⟨_, rfl, Nat.le_refl _, Nat.le_refl _, fun i hi hi' => by omega, fun h => by omega⟩
  · cases hdrop : b.words.drop (start / 64) with
    | nil =>
      refine ⟨start, rfl, Nat.le_refl _, h, fun i hi hi' => by omega, fun _ => ?_⟩
      rw [bit, getElem?_eq_none (drop_eq_nil_iff.mp hdrop), Option.getD_none, BitVec.getLsbD_zero]
    | cons word rest =>
      have hget : b.words[start / 64]? = some word := by
        rw [← head?_drop, hdrop]
        rfl
      have hrest : b.words.drop (start / 64 + 1) = rest := by
        rw [← drop_drop, hdrop]
        rfl
      refine ⟨_, rfl, scan_spec b stop hrest (fun j hj => ?_) (by omega) (by omega) (by omega)⟩
      rw [BitVec.getLsbD_or, getLsbD_lowMask (mod_lt _ (by omega)), b.bit_word _ hj, hget]
      congr 1
      rw [decide_eq_decide]
      omega

end Bitmap

end Mihomo.Sniffer
