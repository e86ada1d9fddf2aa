import Mihomo.Net.Addr

/-!
# Addresses as byte slices

`Addr.AsSlice` and `AddrFromSlice`: the big-endian bytes of an address, four or
sixteen of them. The zone is not part of the slice.
-/

namespace Mihomo.Net
open Go Nat List

/-- The last `k` big-endian bytes of a number. -/
def bytesBE : Nat → Nat → Str
  | 0, _ => []
  | k + 1, n => bytesBE k (n / 256) ++ [UInt8.ofNat n]

def ofBytesBE (s : Str) : Nat := s.foldl (fun n c => n * 256 + c.toNat) 0

theorem bytesBE_length (k n : Nat) : (bytesBE k n).length = k := by
  induction k generalizing n with
  | zero => rfl
  | succ k ih => simp [bytesBE, ih]

theorem ofBytesBE_bytesBE (k n : Nat) : ofBytesBE (bytesBE k n) = n % 256 ^ k := by
  induction k generalizing n with
  | zero => simp [bytesBE, ofBytesBE, mod_one]
  | succ k ih =>
    have hstep : ofBytesBE (bytesBE (k + 1) n) = n / 256 % 256 ^ k * 256 + n % 256 := by
      rw [← ih]
      simp [bytesBE, ofBytesBE]
    rw [hstep, pow_succ, mul_comm (256 ^ k), mod_mul, mul_comm, add_comm]

theorem ofBytesBE_append (s : Str) (c : UInt8) : ofBytesBE (s ++ [c]) = ofBytesBE s * 256 + c.toNat := by
  simp [ofBytesBE]

theorem ofBytesBE_lt (s : Str) : ofBytesBE s < 256 ^ s.length := by
  induction s using reverseRecOn with
  | nil => simp [ofBytesBE]
  | append_singleton s c ih =>
    have hc := c.toNat_lt
    rw [ofBytesBE_append, length_append, length_singleton]
    omega

theorem bytesBE_ofBytesBE (s : Str) : bytesBE s.length (ofBytesBE s) = s := by
  induction s using reverseRecOn with
  | nil => rfl
  | append_singleton s c ih =>
    have hc := c.toNat_lt
    have hdiv : (ofBytesBE s * 256 + c.toNat) / 256 = ofBytesBE s := by omega
    have hlast : .ofNat (ofBytesBE s * 256 + c.toNat) = c := by
      apply UInt8.toNat_inj.mp
      rw [UInt8.toNat_ofNat']
      omega
    rw [ofBytesBE_append, length_append, length_singleton, bytesBE, hdiv, hlast, ih]

def Family.bytes : Family → Nat
  | .v4 => 4
  | .v6 => 16

theorem Family.bits_eq (fam : Family) : 2 ^ fam.bits = 256 ^ fam.bytes := by
  cases fam <;> rfl

namespace Addr

def asSlice : Addr → Str
  | zero => []
  | ip fam a _ => bytesBE fam.bytes a.toNat

/-- `netip.AddrFromSlice`, which accepts slices of length 4 and 16. -/
def fromSlice (s : Str) : Option Addr :=
  if s.length = 4 then some (.at .v4 (ofBytesBE s))
  else if s.length = 16 then some (.at .v6 (ofBytesBE s))
  else none

theorem asSlice_at_length (fam : Family) (n : Nat) : (Addr.at fam n).asSlice.length = fam.bytes :=
  bytesBE_length _ _

theorem fromSlice_asSlice_at {fam : Family} {n : Nat} (h : n < 2 ^ fam.bits) :
    fromSlice (Addr.at fam n).asSlice = some (.at fam n) := by
  have hb : ofBytesBE (Addr.at fam n).asSlice = n := by
    rw [Addr.at, asSlice, ofBytesBE_bytesBE, BitVec.toNat_ofNat, mod_eq_of_lt h,
      mod_eq_of_lt (fam.bits_eq ▸ h)]
  have hl := asSlice_at_length fam n
  cases fam <;> simp [fromSlice, hl, hb, Family.bytes]

theorem eq_asSlice_of_fromSlice {s : Str} {a : Addr} (h : fromSlice s = some a) :
    s = a.asSlice ∧ ∃ fam n, n < 2 ^ fam.bits ∧ a = .at fam n := by
  have hback : ∀ fam, s.length = fam.bytes →
      s = (Addr.at fam (ofBytesBE s)).asSlice ∧
        ∃ fam' n, n < 2 ^ fam'.bits ∧ Addr.at fam (ofBytesBE s) = .at fam' n := by
    intro fam hl
    have hlt : ofBytesBE s < 2 ^ fam.bits := by
      rw [fam.bits_eq, ← hl]
      exact ofBytesBE_lt s
    refine ⟨?_, fam, _, hlt, rfl⟩
    rw [Addr.at, asSlice, BitVec.toNat_ofNat, mod_eq_of_lt hlt, ← hl, bytesBE_ofBytesBE]
  unfold fromSlice at h
  split at h
  next hl =>
    cases h
    exact hback .v4 hl
  · split at h
    next hl =>
      cases h
      exact hback .v6 hl
    · cases h

@[simp] theorem fromSlice_nil : fromSlice [] = none := rfl

end Addr

end Mihomo.Net
