import Mihomo.Go.Read

/-!
# Sets of address ranges in binary form (component/cidr)

`AddIpCidr` collects the ranges of prefixes, and `Merge` leaves it to `netipx` to put them in order.
`WriteBin` writes the ends of the ranges as 16 bytes each, which do not tell an IPv4 address from the
IPv6 address it is mapped to. `ReadIpCidrSet` takes both for the IPv4 address.
-/

namespace Mihomo.Cidr
open Go Net List

def is4In6 : Addr → Bool
  | .ip .v6 a _ => a.toNat / 2 ^ 32 = 0xffff
  | _ => false

def withoutZone : Addr → Addr
  | .zero => .zero
  | .ip fam a _ => .ip fam a []

def as16 : Addr → Str
  | .zero => bytesBE 16 0
  | .ip .v4 a _ => bytesBE 16 (0xffff * 2 ^ 32 + a.toNat)
  | .ip .v6 a _ => bytesBE 16 a.toNat

structure IPRange where
  From : Addr
  To : Addr
  deriving DecidableEq

/-- The length of a slice is an `int`. -/
structure IpCidrSet where
  rr : List IPRange
  fits : rr.length < 2 ^ 63

namespace IPRange

def contains (r : IPRange) (ip : Addr) : Bool := !ip.less r.From && !r.To.less ip

def Valid (r : IPRange) : Prop := ∃ fam m n, m ≤ n ∧ n < 2 ^ fam.bits ∧ r = ⟨.at fam m, .at fam n⟩

def unmap (r : IPRange) : IPRange := ⟨r.From.unmap, r.To.unmap⟩

end IPRange

/-- `AddIpCidr` without the text of its error; the range of a valid prefix is valid. -/
def addIpCidr (rr : List IPRange) (ipCidr : Prefix) : Option (List IPRange) :=
  if ipCidr.isValid then some (rr ++ [⟨ipCidr.maskedAddr, ipCidr.lastIP⟩]) else none

def contains (rr : List IPRange) (ip : Addr) : Bool := ip.isValid && rr.any (·.contains ip)

/-- What `netipx` makes of the ranges that `Merge` gives to it: the same addresses in valid ranges
that neither overlap nor touch. -/
structure Merged (rr merged : List IPRange) : Prop where
  same : ∀ ip, contains merged ip = contains rr ip
  valid : (∀ r ∈ rr, r.Valid) → ∀ r ∈ merged, r.Valid
  disjoint : ∀ r ∈ merged, ∀ s ∈ merged, ∀ ip, r.contains ip → s.contains ip → r = s
  apart : ∀ r ∈ merged, contains merged r.From.prev = false

namespace IpCidrSet

def isContain (set : IpCidrSet) (ip : Addr) : Bool := contains set.rr (withoutZone ip)

def isEmpty (set : IpCidrSet) : Bool := set.rr.isEmpty

def writeBin (ss : IpCidrSet) : Str :=
  [1] ++ (bytesBE 8 ss.rr.length ++ ss.rr.flatMap fun r => as16 r.From ++ as16 r.To)

end IpCidrSet

/-- `netip.AddrFrom16(a16).Unmap()` of the next 16 bytes. -/
def readAddr : Read Addr := do
  let a16 ← Read.full 16
  return (Addr.at .v6 (ofBytesBE a16)).unmap

def readRanges : (length : Nat) → Read { rr : List IPRange // rr.length = length }
  | 0 => return ⟨[], rfl⟩
  | length + 1 => do
    let first ← readAddr
    let last ← readAddr
    let rest ← readRanges length
    return ⟨⟨first, last⟩ :: rest.1, by rw [length_cons, rest.2]⟩

def readIpCidrSet : Read IpCidrSet := do
  let version ← Read.number 1
  if version ≠ 1 then Read.fail (.invalid (ascii "version is invalid"))
  else
    -- an `int64`, negative from `2 ^ 63` on
    let length ← Read.number 8
    if h : 1 ≤ length ∧ length < 2 ^ 63 then
      let rr ← readRanges length
      return ⟨rr.1, by rw [rr.2]; exact h.2⟩
    else Read.fail (.invalid (ascii "length is invalid"))

/-! ### What comes back -/

section Back

variable {fam : Family} {m : Nat}

theorem unmap_at_v6 (m : Nat) :
    (Addr.at .v6 m).unmap = if is4In6 (.at .v6 m) then .at .v4 m else .at .v6 m := by
  simp only [Addr.at, Addr.unmap, is4In6, decide_eq_true_eq]
  split
  · congr 1
    apply BitVec.eq_of_toNat_eq
    simp [Family.bits]
  · rfl

theorem unmap_of_not_is4In6 {r : IPRange} (h : is4In6 r.From = false ∧ is4In6 r.To = false) :
    r.unmap = r := by
  have hsame : ∀ a, is4In6 a = false → a.unmap = a
    | .zero, _ | .ip .v4 .., _ => rfl
    | .ip .v6 .., ha => if_neg (of_decide_eq_false ha)
  rw [IPRange.unmap, hsame _ h.1, hsame _ h.2]

theorem readAddr_as16 (hm : m < 2 ^ fam.bits) (t : Str) :
    readAddr (as16 (.at fam m) ++ t) = .ok ((Addr.at fam m).unmap, t) := by
  have hbytes (k : Nat) (hk : k < 256 ^ 16) :
      readAddr (bytesBE 16 k ++ t) = .ok ((Addr.at .v6 k).unmap, t) := by
    have hfull := Read.full_append (b := bytesBE 16 k) t
    rw [bytesBE_length] at hfull
    rw [readAddr, Read.bind_ok hfull, ofBytesBE_bytesBE, Nat.mod_eq_of_lt hk]
    rfl
  cases fam with
  | v4 =>
    simp only [Addr.at, as16, Family.bits]
    rw [hbytes _ (by omega), unmap_at_v6, if_pos (by simp [Addr.at, is4In6, Family.bits]; omega)]
    simp only [Addr.at]
    congr 3
    apply BitVec.eq_of_toNat_eq
    simp only [Family.bits, BitVec.toNat_ofNat]
    omega
  | v6 =>
    have hm' : m < 2 ^ 128 := hm
    simp only [Addr.at, as16, Family.bits, BitVec.toNat_ofNat, Nat.mod_eq_of_lt hm']
    exact hbytes m (by omega)

variable {rr : List IPRange}

theorem readRanges_append (h : ∀ r ∈ rr, r.Valid) :
    readRanges rr.length (rr.flatMap fun r => as16 r.From ++ as16 r.To) =
      .ok (⟨rr.map IPRange.unmap, length_map _⟩, []) := by
  induction rr with
  | nil => rfl
  | cons r rr ih =>
    rw [forall_mem_cons] at h
    obtain ⟨⟨fam, m, n, hle, hn, rfl⟩, hrr⟩ := h
    rw [flatMap_cons, append_assoc]
    change (readRanges (rr.length + 1)) _ = _
    rw [readRanges, Read.bind_ok (readAddr_as16 (hle.trans_lt hn) _), Read.bind_ok (readAddr_as16 hn _),
      Read.bind_ok (ih hrr)]
    rfl

/-- The set comes back with the ends of its ranges unmapped. -/
theorem readIpCidrSet_writeBin (set : IpCidrSet) (hne : set.isEmpty = false)
    (h : ∀ r ∈ set.rr, r.Valid) :
    readIpCidrSet set.writeBin =
      .ok (⟨set.rr.map IPRange.unmap, by rw [length_map]; exact set.fits⟩, []) := by
  have hpos : 1 ≤ set.rr.length ∧ set.rr.length < 2 ^ 63 :=
    ⟨length_pos_iff.mpr (isEmpty_eq_false_iff.mp hne), set.fits⟩
  unfold IpCidrSet.writeBin readIpCidrSet
  rw [show [1] = bytesBE 1 1 from rfl, Read.bind_ok (Read.number_append (by decide) _),
    if_neg (not_not_intro rfl), Read.bind_ok (Read.number_append (by omega) _), dif_pos hpos,
    Read.bind_ok (readRanges_append h)]
  rfl

end Back

/-! ### Which sets come back -/

variable {prefixes : List Prefix} {rr ranges : List IPRange} {r s : IPRange} {m n k m' n' : Nat}

theorem valid_of_add (hrr : ∀ r ∈ rr, r.Valid) (h : prefixes.foldlM addIpCidr rr = some ranges) :
    ∀ r ∈ ranges, r.Valid := by
  induction prefixes generalizing rr with
  | nil =>
    cases h
    exact hrr
  | cons p prefixes ih =>
    cases p with
    | invalid => cases h
    | mk fam a len =>
      refine ih (forall_mem_append.mpr ⟨hrr, forall_mem_singleton.mpr ?_⟩) h
      have hfits : _ ≤ 2 ^ fam.bits := (Prefix.block fam a len).fits
      have hpos := (Prefix.block fam a len).size_pos
      rw [Prefix.maskedAddr_mk, Prefix.lastIP_mk]
      exact ⟨fam, _, _, by omega, by omega, rfl⟩

theorem not_contains_of_to_v4 (a : Addr) (n k : Nat) :
    (⟨a, .at .v4 n⟩ : IPRange).contains (.at .v6 k) = false := Bool.and_false _

section Agrees

variable {merged : List IPRange} (hmerge : Merged rr merged) (hvalid : ∀ r ∈ merged, r.Valid)
  (h : ∀ k, contains (merged.map .unmap) (.at .v6 k) = contains merged (.at .v6 k))

include hmerge hvalid h

/-- A range that begins among the mapped addresses and ends after them would come back with all IPv6
addresses before it. -/
theorem to_mapped (hr : r ∈ merged) (hfrom : is4In6 r.From) : is4In6 r.To := by
  obtain ⟨fam, m, n, hmn, hn, rfl⟩ := hvalid r hr
  cases fam with
  | v4 => cases hfrom
  | v6 =>
    by_contra hto
    cases m with
    | zero => cases hfrom
    | succ m =>
      have hback : contains (merged.map .unmap) (.at .v6 m) = true := by
        refine any_eq_true.mpr ⟨_, mem_map_of_mem hr, ?_⟩
        rw [IPRange.unmap, unmap_at_v6, unmap_at_v6, if_pos hfrom, if_neg hto, IPRange.contains,
          less_at hn (by omega), decide_eq_false (by omega)]
        rfl
      have hprev := hmerge.apart _ hr
      rw [prev_at (hmn.trans_lt hn), ← h, hback] at hprev
      cases hprev

theorem not_mapped : ∀ r ∈ merged, is4In6 r.From = false ∧ is4In6 r.To = false := by
  have hfrom : ∀ r ∈ merged, is4In6 r.To = false → is4In6 r.From = false := fun r hr hto =>
    Bool.eq_false_iff.mpr fun hfrom => by cases hto.symm.trans (to_mapped hmerge hvalid h hr hfrom)
  suffices hto : ∀ r ∈ merged, is4In6 r.To = false from fun r hr => ⟨hfrom r hr (hto r hr), hto r hr⟩
  intro r hr
  obtain ⟨fam, m, n, hmn, hn, rfl⟩ := hvalid r hr
  cases fam with
  | v4 => rfl
  | v6 =>
    have hfirst : IPRange.contains ⟨.at .v6 m, .at .v6 n⟩ (.at .v6 m) = true := by
      rw [IPRange.contains, less_at (hmn.trans_lt hn) (hmn.trans_lt hn), less_at hn (hmn.trans_lt hn),
        decide_eq_false (lt_irrefl m), decide_eq_false (not_lt.mpr hmn)]
      rfl
    -- the first address comes back in a range whose last one is not mapped
    have hback : contains merged (.at .v6 m) = true := any_eq_true.mpr ⟨_, hr, hfirst⟩
    rw [← h] at hback
    obtain ⟨_, hmem, hcontains⟩ := any_eq_true.mp hback
    obtain ⟨s, hs, rfl⟩ := mem_map.mp hmem
    obtain ⟨fam, m', n', -, -, rfl⟩ := hvalid s hs
    cases fam with
    | v4 => cases (not_contains_of_to_v4 ..).symm.trans hcontains
    | v6 =>
      cases hto : is4In6 (.at .v6 n') with
      | true =>
        rw [IPRange.unmap, unmap_at_v6 n', if_pos hto] at hcontains
        cases (not_contains_of_to_v4 ..).symm.trans hcontains
      | false =>
        rw [unmap_of_not_is4In6 ⟨hfrom _ hs hto, hto⟩] at hcontains
        rw [hmerge.disjoint _ hr _ hs _ hfirst hcontains]
        exact hto

end Agrees

/-- A set comes back with the same addresses if and only if no range of it begins or ends among the
IPv4-mapped addresses. -/
theorem readIpCidrSet_agrees_iff (prefixes : List Prefix) (rr : List IPRange) (set : IpCidrSet)
    (hadd : prefixes.foldlM addIpCidr [] = some rr) (hmerge : Merged rr set.rr)
    (hne : set.isEmpty = false) : ∃ back, readIpCidrSet set.writeBin = .ok (back, []) ∧
      ((∀ ip, back.isContain ip = set.isContain ip) ↔
        ∀ r ∈ set.rr, is4In6 r.From = false ∧ is4In6 r.To = false) := by
  have hvalid := hmerge.valid (valid_of_add (forall_mem_nil _) hadd)
  refine ⟨_, readIpCidrSet_writeBin set hne hvalid, fun h => ?_, fun h ip => ?_⟩
  · exact not_mapped hmerge hvalid fun k => h (.at .v6 k)
  · change contains (set.rr.map .unmap) _ = contains set.rr _
    rw [map_congr_left fun r hr => unmap_of_not_is4In6 (h r hr), map_id']

def private10 : IPRange := ⟨.at .v4 0x0a000000, .at .v4 0x0affffff⟩

theorem merged_singleton {r : IPRange} (h : contains [r] r.From.prev = false) : Merged [r] [r] where
  same _ := rfl
  valid h := h
  disjoint a ha b hb _ _ _ := by rw [mem_singleton.mp ha, mem_singleton.mp hb]
  apart a ha := by rwa [mem_singleton.mp ha]

theorem readIpCidrSet_agrees_private10 :
    ∃ back, readIpCidrSet (IpCidrSet.mk [private10] (by decide)).writeBin = .ok (back, []) ∧
      ((∀ ip, back.isContain ip = (IpCidrSet.mk [private10] (by decide)).isContain ip) ↔
        ∀ r ∈ [private10], is4In6 r.From = false ∧ is4In6 r.To = false) :=
  readIpCidrSet_agrees_iff [.mk .v4 0x0a000000 8] [private10] ⟨[private10], by decide⟩ (by decide)
    (merged_singleton (by decide)) rfl

/-- `::ffff:0:0/96` is read back as `0.0.0.0/0`. -/
theorem mapped_block_lost :
    ∃ set back : IpCidrSet, [Prefix.mk .v6 0xffff00000000 96].foldlM addIpCidr [] = some set.rr ∧
      Merged set.rr set.rr ∧ readIpCidrSet set.writeBin = .ok (back, []) ∧
      set.isContain (.at .v6 0xffff01020304) = true ∧
      back.isContain (.at .v6 0xffff01020304) = false :=
  ⟨⟨[⟨.at .v6 0xffff00000000, .at .v6 0xffffffffffff⟩], by decide⟩, _, by decide,
    merged_singleton (by decide),
    readIpCidrSet_writeBin _ rfl (forall_mem_singleton.mpr ⟨.v6, _, _, by decide, by decide, rfl⟩),
    by decide, by decide⟩

end Mihomo.Cidr
