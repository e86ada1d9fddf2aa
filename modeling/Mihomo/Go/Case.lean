import Mihomo.Go.Utf8

/-!
# Lowercasing and reversing

`toLower` and `reverse` work rune by rune, so they respect a cut of the string at an ASCII byte, and
they commute.
-/

namespace Mihomo.Go
open List

theorem lowerRanges_image :
    ∀ g ∈ lowerRanges, 0x5B ≤ g.lo + g.delta ∧
      (g.hi + g.delta < 0xD800 ∨ (0xE000 ≤ g.lo + g.delta ∧ g.hi + g.delta < 0x110000)) := by
  decide +kernel

theorem lowerRune_cases (r : Nat) :
    (lowerRune r = r ∧ ¬ (0x41 ≤ r ∧ r ≤ 0x5A)) ∨
      ∃ g ∈ lowerRanges, g.lo ≤ r ∧ r ≤ g.hi ∧ (lowerRune r : Int) = r + g.delta := by
  unfold lowerRune
  cases hf : lowerRanges.find? fun g => g.covers r with
  | none =>
    refine .inl ⟨rfl, fun hr => ?_⟩
    rw [find?_eq_none] at hf
    apply hf ⟨0x41, 0x5A, 1, 32⟩ mem_cons_self
    simp only [CaseRange.covers, Nat.mod_one]
    simpa using hr
  | some g =>
    have hg := mem_of_find?_eq_some hf
    have hc := find?_some hf
    simp only [CaseRange.covers, Bool.and_eq_true, decide_eq_true_eq] at hc
    have him := (lowerRanges_image g hg).1
    refine .inr ⟨g, hg, hc.1.1, hc.1.2, ?_⟩
    exact Int.toNat_of_nonneg (by omega)

variable {r : Nat} {c : UInt8} {s : Str}

theorem scalar_lowerRune (h : Scalar r) : Scalar (lowerRune r) := by
  rcases lowerRune_cases r with ⟨hr, -⟩ | ⟨g, hg, hlo, hhi, hr⟩
  · rwa [hr]
  · have him := (lowerRanges_image g hg).2
    unfold Scalar
    omega

theorem lowerRune_small (h : lowerRune r < 0x5B) : lowerRune r = r ∧ ¬ (0x41 ≤ r ∧ r ≤ 0x5A) := by
  rcases lowerRune_cases r with hr | ⟨g, hg, hlo, hhi, hr⟩
  · exact hr
  · have him := (lowerRanges_image g hg).1
    omega

/-- `unicode.ToLower` on ASCII. -/
def lowerAscii (r : Nat) : Nat := if 0x41 ≤ r ∧ r ≤ 0x5A then r + 32 else r

theorem lowerRanges_tail : ∀ g ∈ lowerRanges.tail, 0x80 ≤ g.lo := by
  decide +kernel

theorem lowerRune_ascii : ∀ r < 0x80, lowerRune r = lowerAscii r := by
  intro r hr
  have htail : lowerRanges.tail.find? (fun g => g.covers r) = none := by
    rw [find?_eq_none]
    intro g hg hcovers
    have hlo := lowerRanges_tail g hg
    simp only [CaseRange.covers, Bool.and_eq_true, decide_eq_true_eq] at hcovers
    omega
  have hcons : lowerRanges = ⟨0x41, 0x5A, 1, 32⟩ :: lowerRanges.tail := rfl
  have hfirst : CaseRange.covers ⟨0x41, 0x5A, 1, 32⟩ r = decide (0x41 ≤ r ∧ r ≤ 0x5A) := by
    simp [CaseRange.covers, Nat.mod_one]
  rw [lowerRune, lowerAscii, hcons, find?_cons, htail, hfirst]
  by_cases hupper : 0x41 ≤ r ∧ r ≤ 0x5A
  · rw [decide_eq_true hupper, if_pos hupper]
    rfl
  · rw [decide_eq_false hupper, if_neg hupper]

/-! ### Bytes of encoded runes -/

theorem encodeRune_ascii (hc : c.toNat < 0x80) : encodeRune c.toNat = [c] := by
  rw [encodeRune, if_pos hc, UInt8.ofNat_toNat]

theorem high_ofNat {n : Nat} (h : 0x80 ≤ n) (hn : n < 256) : 0x80 ≤ (UInt8.ofNat n).toNat := by
  rwa [toNat_ofNat_of_lt hn]

theorem high_of_mem_encodeRune (hr : 0x80 ≤ r) : ∀ b ∈ encodeRune r, 0x80 ≤ b.toNat := by
  unfold encodeRune
  rw [if_neg (by omega)]
  split_ifs with h2 h3 h4 <;> simp only [forall_mem_cons, not_mem_nil, false_imp_iff,
    implies_true, and_true]
  · exact ⟨high_ofNat (by omega) (by omega), high_ofNat (by omega) (by omega)⟩
  · decide
  · exact ⟨high_ofNat (by omega) (by omega), high_ofNat (by omega) (by omega),
      high_ofNat (by omega) (by omega)⟩
  · exact ⟨high_ofNat (by omega) (by omega), high_ofNat (by omega) (by omega),
      high_ofNat (by omega) (by omega), high_ofNat (by omega) (by omega)⟩

theorem eq_of_mem_encodeRune (hc : c.toNat < 0x80) (h : c ∈ encodeRune r) : r = c.toNat := by
  rcases Nat.lt_or_ge r 0x80 with hr | hr
  · rw [encodeRune, if_pos hr, mem_singleton] at h
    rw [h, toNat_ofNat_of_lt (by omega)]
  · have := high_of_mem_encodeRune hr c h
    omega

theorem mem_of_mem_ofRunes (hc : c.toNat < 0x80) {rs : List Nat} (h : c ∈ ofRunes rs) :
    c.toNat ∈ rs := by
  obtain ⟨r, hr, hcr⟩ := mem_flatMap.mp h
  rwa [← eq_of_mem_encodeRune hc hcr]

/-! ### Lowercasing -/

def lowered (s : Str) : List Nat := (runes s).map lowerRune

theorem toLower_eq (s : Str) : toLower s = ofRunes (lowered s) := rfl

theorem scalar_lowered (s : Str) : ∀ r ∈ lowered s, Scalar r := by
  intro r hr
  obtain ⟨r', hr', rfl⟩ := mem_map.mp hr
  exact scalar_lowerRune (scalar_of_mem_runes hr')

theorem mem_of_mem_toLower (hc : c.toNat < 0x41) (h : c ∈ toLower s) : c ∈ s := by
  obtain ⟨r, hr, hrc⟩ := mem_map.mp (mem_of_mem_ofRunes (by omega) h)
  have hsmall := (lowerRune_small (r := r) (by omega)).1
  rw [← hsmall, hrc] at hr
  exact mem_of_mem_runes (by omega) hr

theorem no_upper_toLower {b : UInt8} (hb : b ∈ toLower s) :
    ¬ (0x41 ≤ b.toNat ∧ b.toNat ≤ 0x5A) := by
  intro h
  obtain ⟨r, -, hrb⟩ := mem_map.mp (mem_of_mem_ofRunes (by omega) hb)
  have hsmall := lowerRune_small (r := r) (by omega)
  omega

theorem toLower_append (a : Str) (hc : c.toNat < 0x41) (b : Str) :
    toLower (a ++ c :: b) = toLower a ++ c :: toLower b := by
  have hlow : lowerRune c.toNat = c.toNat := by
    rw [lowerRune_ascii _ (by omega), lowerAscii, if_neg (by omega)]
  rw [toLower, runes_append a (by omega), map_append, map_cons, hlow, ofRunes_append,
    ofRunes_cons, encodeRune_ascii (by omega), toLower, toLower, singleton_append]

/-- `strings.ToLower` on one ASCII byte. -/
def lowerByte (b : UInt8) : UInt8 := if 0x41 ≤ b ∧ b ≤ 0x5A then b + 0x20 else b

theorem encodeRune_lowerAscii :
    ∀ n < 0x80, encodeRune (lowerAscii n) = [lowerByte (UInt8.ofNat n)] := by
  decide +kernel

theorem toLower_of_ascii (h : ∀ b ∈ s, b.toNat < 0x80) : toLower s = s.map lowerByte := by
  induction s with
  | nil => rfl
  | cons b s ih =>
    rw [forall_mem_cons] at h
    have hb : encodeRune (lowerRune b.toNat) = [lowerByte b] := by
      rw [lowerRune_ascii _ h.1, encodeRune_lowerAscii _ h.1, UInt8.ofNat_toNat]
    rw [toLower, runes_ascii_cons h.1, map_cons, ofRunes_cons, hb, map_cons, ← ih h.2]
    rfl

/-! ### Reversing -/

theorem reverse_ofRunes {rs : List Nat} (h : ∀ r ∈ rs, Scalar r) :
    reverse (ofRunes rs) = ofRunes rs.reverse := by
  rw [reverse, runes_ofRunes h]

theorem reverse_toLower (s : Str) : reverse (toLower s) = ofRunes (lowered s).reverse :=
  reverse_ofRunes (scalar_lowered s)

theorem toLower_reverse (s : Str) : toLower (reverse s) = reverse (toLower s) := by
  have hs : ∀ r ∈ (runes s).reverse, Scalar r := fun r hr =>
    scalar_of_mem_runes (mem_reverse.mp hr)
  rw [reverse_toLower, toLower, reverse, runes_ofRunes hs, map_reverse, lowered]

theorem reverse_append (a : Str) (hc : c.toNat < 0x80) (b : Str) :
    reverse (a ++ c :: b) = reverse b ++ c :: reverse a := by
  rw [reverse, runes_append a hc, List.reverse_append, List.reverse_cons, List.append_assoc,
    ofRunes_append, singleton_append, ofRunes_cons, encodeRune_ascii hc, reverse, reverse,
    singleton_append]

theorem reverse_of_ascii (h : ∀ b ∈ s, b.toNat < 0x80) : reverse s = s.reverse := by
  induction s with
  | nil => rfl
  | cons b s ih =>
    rw [forall_mem_cons] at h
    have happ := reverse_append [] h.1 s
    rw [nil_append] at happ
    rw [happ, ih h.2, reverse_cons]
    rfl

theorem mem_of_mem_reverse (hc : c.toNat < 0x80) (h : c ∈ reverse s) : c ∈ s :=
  mem_of_mem_runes hc (mem_reverse.mp (mem_of_mem_ofRunes hc h))

theorem toLower_eq_of_reverse {t : Str} (h : reverse (toLower s) = reverse (toLower t)) :
    toLower s = toLower t := by
  rw [reverse_toLower, reverse_toLower] at h
  have hrev := ofRunes_inj (fun r hr => scalar_lowered s r (mem_reverse.mp hr))
    (fun r hr => scalar_lowered t r (mem_reverse.mp hr)) h
  rw [toLower_eq, toLower_eq, reverse_injective hrev]

end Mihomo.Go
