import Mihomo.Go.Text
import Mathlib.Data.Nat.Bitwise

/-!
# Addresses and prefixes

`netip.Addr` and `netip.Prefix`. An address is the zero `Addr` or a family with its bits and a zone,
which IPv4 addresses leave empty. `at` numbers the zone-free addresses of a family, so that the
arithmetic of a pool is arithmetic of natural numbers.
-/

namespace Mihomo.Net
open Go Nat

inductive Family where
  | v4 | v6
  deriving DecidableEq, Repr

/-- `Addr.BitLen`. -/
def Family.bits : Family → Nat
  | .v4 => 32
  | .v6 => 128

inductive Addr where
  | zero
  | ip (fam : Family) (bits : BitVec fam.bits) (zone : Str)
  deriving DecidableEq

namespace Addr

def isValid : Addr → Bool
  | zero => false
  | ip .. => true

def is4 : Addr → Bool
  | ip .v4 .. => true
  | _ => false

/-- `Addr.Is6`: this holds of the IPv4-mapped addresses too. -/
def is6 : Addr → Bool
  | ip .v6 .. => true
  | _ => false

/-- `Addr.Unmap`: an IPv4-mapped address (`Is4In6`) loses its zone too. -/
def unmap : Addr → Addr
  | ip .v6 a zone => if a.toNat / 2 ^ 32 = 0xffff then ip .v4 (a.setWidth 32) [] else ip .v6 a zone
  | a => a

/-- `Addr.Next`: the zero `Addr` follows the last address of a family. -/
def next : Addr → Addr
  | zero => zero
  | ip fam a zone => if a + 1 = 0 then zero else ip fam (a + 1) zone

def prev : Addr → Addr
  | zero => zero
  | ip fam a zone => if a = 0 then zero else ip fam (a - 1) zone

/-- `Addr.Less`: by bit length, then by value, then by zone. -/
def less : Addr → Addr → Bool
  | _, zero => false
  | zero, ip .. => true
  | ip fam a zone, ip fam' b zone' =>
    if fam = fam' then
      a.toNat < b.toNat || (a.toNat == b.toNat && decide (zone < zone'))
    else fam.bits < fam'.bits

end Addr

inductive Prefix where
  | invalid
  | mk (fam : Family) (bits : BitVec fam.bits) (len : Fin (fam.bits + 1))
  deriving DecidableEq

namespace Prefix

def isValid : Prefix → Bool
  | invalid => false
  | mk .. => true

def maskedAddr : Prefix → Addr
  | invalid => .zero
  | mk fam a len => .ip fam (a >>> (fam.bits - len) <<< (fam.bits - len)) []

/-- `netipx.PrefixLastIP`. -/
def lastIP : Prefix → Addr
  | invalid => .zero
  | mk fam a len => .ip fam (a ||| BitVec.ofNat _ (2 ^ (fam.bits - len) - 1)) []

/-- `Prefix.Contains`: same family, no zone, equal network bits. -/
def contains : Prefix → Addr → Bool
  | mk fam a len, .ip fam' b zone =>
    fam = fam' && zone.isEmpty &&
      a.toNat >>> (fam.bits - len) == b.toNat >>> (fam.bits - len)
  | _, _ => false

end Prefix

def Addr.at (fam : Family) (n : Nat) : Addr := .ip fam (BitVec.ofNat fam.bits n) []

theorem at_inj {fam fam' : Family} {m n : Nat} (hm : m < 2 ^ fam.bits) (hn : n < 2 ^ fam'.bits)
    (h : Addr.at fam m = Addr.at fam' n) : fam = fam' ∧ m = n := by
  simp only [Addr.at, Addr.ip.injEq] at h
  obtain ⟨rfl, h, _⟩ := h
  have := congrArg BitVec.toNat (eq_of_heq h)
  simp only [BitVec.toNat_ofNat, mod_eq_of_lt hm, mod_eq_of_lt hn] at this
  exact ⟨rfl, this⟩

theorem ofNat_succ (w n : Nat) : BitVec.ofNat w n + 1 = BitVec.ofNat w (n + 1) := by
  rw [BitVec.ofNat_add]
  rfl

theorem ofNat_succ_ne_zero {w n : Nat} (h : n + 1 < 2 ^ w) : BitVec.ofNat w n + 1 ≠ 0 := by
  rw [ofNat_succ]
  intro h0
  have hz : (0 : BitVec w).toNat = 0 := BitVec.toNat_zero
  rw [← h0, BitVec.toNat_ofNat, mod_eq_of_lt h] at hz
  omega

theorem next_at {fam : Family} {n : Nat} (h : n + 1 < 2 ^ fam.bits) :
    (Addr.at fam n).next = .at fam (n + 1) := by
  simp only [Addr.at, Addr.next, if_neg (ofNat_succ_ne_zero h)]
  rw [ofNat_succ]

theorem next_at_last (fam : Family) : (Addr.at fam (2 ^ fam.bits - 1)).next = .zero := by
  have h0 : BitVec.ofNat fam.bits (2 ^ fam.bits - 1) + 1 = 0 := by
    rw [ofNat_succ, Nat.sub_add_cancel Nat.one_le_two_pow]
    apply BitVec.eq_of_toNat_eq
    exact (BitVec.toNat_ofNat ..).trans ((mod_self _).trans BitVec.toNat_zero.symm)
  simp only [Addr.at, Addr.next, if_pos h0]

theorem prev_at {fam : Family} {n : Nat} (h : n + 1 < 2 ^ fam.bits) :
    (Addr.at fam (n + 1)).prev = .at fam n := by
  simp only [Addr.at, Addr.prev]
  rw [← ofNat_succ, if_neg (ofNat_succ_ne_zero h), BitVec.add_sub_cancel]

theorem less_at {fam : Family} {m n : Nat} (hm : m < 2 ^ fam.bits) (hn : n < 2 ^ fam.bits) :
    (Addr.at fam m).less (.at fam n) = decide (m < n) := by
  simp [Addr.at, Addr.less, mod_eq_of_lt hm, mod_eq_of_lt hn]

/-- The block of addresses a valid prefix covers: its family, its first number and
its size. -/
structure Block where
  fam : Family
  base : Nat
  size : Nat
  fits : base + size ≤ 2 ^ fam.bits
  size_pos : 0 < size

theorem or_low_eq (a n : Nat) : a ||| (2 ^ n - 1) = (a >>> n <<< n) + (2 ^ n - 1) := by
  rw [shiftLeft_add_eq_or_of_lt (by have := Nat.one_le_two_pow (n := n); omega)]
  apply eq_of_testBit_eq
  intro i
  by_cases hi : n ≤ i
  · simp [hi]
  · have : i < n := by omega
    simp [this]

theorem shiftRight_eq_iff (a b n : Nat) :
    a >>> n = b >>> n ↔ a >>> n <<< n ≤ b ∧ b < (a >>> n <<< n) + 2 ^ n := by
  simp only [shiftRight_eq_div_pow, shiftLeft_eq]
  have hp : 0 < 2 ^ n := Nat.two_pow_pos n
  constructor
  · intro h
    rw [h]
    exact ⟨div_mul_le_self b _, lt_div_mul_add hp⟩
  · rintro ⟨h1, h2⟩
    apply le_antisymm
    · exact (le_div_iff_mul_le hp).mpr h1
    · have : b / 2 ^ n < a / 2 ^ n + 1 := by
        rw [div_lt_iff_lt_mul hp, add_mul, one_mul]
        exact h2
      omega

theorem shift_fits {a w n : Nat} (h : a < 2 ^ w) (hn : n ≤ w) : (a >>> n <<< n) + 2 ^ n ≤ 2 ^ w := by
  simp only [shiftRight_eq_div_pow, shiftLeft_eq]
  have hsplit : 2 ^ w = 2 ^ (w - n) * 2 ^ n := by
    rw [← pow_add, Nat.sub_add_cancel hn]
  have hlt : a / 2 ^ n < 2 ^ (w - n) := by
    rw [div_lt_iff_lt_mul (Nat.two_pow_pos n), ← hsplit]
    exact h
  calc a / 2 ^ n * 2 ^ n + 2 ^ n = (a / 2 ^ n + 1) * 2 ^ n := by rw [add_mul, one_mul]
    _ ≤ 2 ^ (w - n) * 2 ^ n := mul_le_mul_right _ hlt
    _ = 2 ^ w := hsplit.symm

namespace Prefix

def block (fam : Family) (a : BitVec fam.bits) (len : Fin (fam.bits + 1)) : Block where
  fam := fam
  base := a.toNat >>> (fam.bits - len) <<< (fam.bits - len)
  size := 2 ^ (fam.bits - len)
  fits := shift_fits a.isLt (sub_le _ _)
  size_pos := Nat.two_pow_pos _

variable (fam : Family) (a : BitVec fam.bits) (len : Fin (fam.bits + 1))

theorem maskedAddr_mk : (mk fam a len).maskedAddr = .at fam (block fam a len).base := by
  simp only [maskedAddr, Addr.at, block, Addr.ip.injEq, heq_eq_eq, and_true, true_and]
  apply BitVec.eq_of_toNat_eq
  simp

theorem lastIP_mk :
    (mk fam a len).lastIP = .at fam ((block fam a len).base + ((block fam a len).size - 1)) := by
  simp only [lastIP, Addr.at, block, Addr.ip.injEq, heq_eq_eq, and_true, true_and]
  rw [← or_low_eq]
  apply BitVec.eq_of_toNat_eq
  have hlow : 2 ^ (fam.bits - ↑len) - 1 < 2 ^ fam.bits := by
    have h1 := Nat.one_le_two_pow (n := fam.bits - ↑len)
    have h2 : 2 ^ (fam.bits - ↑len) ≤ 2 ^ fam.bits :=
      Nat.pow_le_pow_right (by omega) (sub_le ..)
    omega
  rw [BitVec.toNat_or, BitVec.toNat_ofNat, BitVec.toNat_ofNat, mod_eq_of_lt hlow,
    mod_eq_of_lt (or_lt_two_pow a.isLt hlow)]

theorem contains_at {n : Nat} (hn : n < 2 ^ fam.bits) :
    (mk fam a len).contains (.at fam n) = true ↔
      (block fam a len).base ≤ n ∧ n < (block fam a len).base + (block fam a len).size := by
  rw [block, ← shiftRight_eq_iff]
  simp [contains, Addr.at, mod_eq_of_lt hn]

theorem eq_at_of_contains {ip : Addr} (h : (mk fam a len).contains ip = true) :
    ∃ n, n < 2 ^ fam.bits ∧ ip = .at fam n := by
  cases ip with
  | zero => simp [contains] at h
  | ip fam' b zone =>
    simp only [contains, Bool.and_eq_true, decide_eq_true_eq, List.isEmpty_iff] at h
    obtain ⟨⟨rfl, rfl⟩, _⟩ := h
    exact ⟨b.toNat, b.isLt, by simp [Addr.at]⟩

end Prefix

end Mihomo.Net
