import Mathlib.Data.UInt

/-!
# Serial numbers

The items of an unbounded sequence are numbered modulo 2^32. Two positions that are less than half
of the numbers apart can be compared by the difference of their numbers.
-/

namespace Mihomo.Lib

def Near (i r : Nat) : Prop := i < r + 2 ^ 31 ∧ r ≤ i + 2 ^ 31

variable {i r : Nat}

theorem toNat_serial_sub (i r : Nat) :
    (UInt32.ofNat i - UInt32.ofNat r).toNat = (2 ^ 32 - r % 2 ^ 32 + i % 2 ^ 32) % 2 ^ 32 := by
  rw [UInt32.toNat_sub, UInt32.toNat_ofNat', UInt32.toNat_ofNat']

theorem serial_before_iff (h : Near i r) : 2 ^ 31 ≤ (UInt32.ofNat i - UInt32.ofNat r).toNat ↔ i < r := by
  unfold Near at h
  rw [toNat_serial_sub]
  omega

theorem serial_inj (h : Near i r) : UInt32.ofNat i = UInt32.ofNat r ↔ i = r := by
  unfold Near at h
  rw [← UInt32.toNat_inj, UInt32.toNat_ofNat', UInt32.toNat_ofNat']
  omega

theorem near_of_le (hle : r ≤ i) (hlt : i < r + 2 ^ 31) : Near i r := ⟨hlt, by omega⟩

def Close (i r : Nat) : Prop := i < r + 2 ^ 31 ∧ r < i + 2 ^ 31

theorem serial_ahead (h : Close i r) {w : Nat} (hw : w ≤ 2 ^ 31 + 1)
    (hlt : (UInt32.ofNat i - UInt32.ofNat r).toNat < w) : r ≤ i ∧ i < r + w := by
  unfold Close at h
  rw [toNat_serial_sub] at hlt
  omega

theorem Close.near (h : Close i r) : Near i r := ⟨h.1, h.2.le⟩

def Precedes (a b : UInt32) : Prop := 2 ^ 31 ≤ (a - b).toNat

instance (a b : UInt32) : Decidable (Precedes a b) := inferInstanceAs (Decidable (_ ≤ _))

theorem precedes_serial_iff (h : Near i r) : Precedes (UInt32.ofNat i) (UInt32.ofNat r) ↔ i < r :=
  serial_before_iff h

/-- The plain order agrees with the circular one on two numbers that are not on different sides of
the wrap. -/
theorem lt_iff_precedes_iff (a b : UInt32) : (a < b ↔ Precedes a b) ↔ Near a.toNat b.toNat := by
  have ha := a.toNat_lt
  have hb := b.toNat_lt
  rw [Precedes, Near, UInt32.lt_iff_toNat_lt, UInt32.toNat_sub]
  omega

theorem precedes_of_lt_iff (a b : UInt32) : (a < b → Precedes a b) ↔ b.toNat ≤ a.toNat + 2 ^ 31 := by
  have hb := b.toNat_lt
  rw [Precedes, UInt32.lt_iff_toNat_lt, UInt32.toNat_sub]
  omega

end Mihomo.Lib
