import Mihomo.Go.Text

/-!
# UTF-8 coding of runes

Encoding a scalar value and decoding it again gives it back, whatever follows, and
an ASCII byte cuts a string into parts that are decoded separately: it is never
part of a longer encoding, valid or not.
-/

namespace Mihomo.Go
open List Bool UInt8

def Scalar (r : Nat) : Prop := r < 0xD800 ∨ (0xE000 ≤ r ∧ r < 0x110000)

variable {b b0 b1 b2 c : UInt8} {s : Str}

theorem isCont_iff : isCont b = true ↔ 0x80 ≤ b.toNat ∧ b.toNat ≤ 0xBF := by
  simp only [isCont, and_eq_true, decide_eq_true_eq]
  rfl

theorem acceptSecond_iff :
    acceptSecond b0 b1 = true ↔
      (0x80 ≤ b1.toNat ∧ b1.toNat ≤ 0xBF) ∧ (b0.toNat = 0xE0 → 0xA0 ≤ b1.toNat) ∧
        (b0.toNat = 0xED → b1.toNat ≤ 0x9F) ∧ (b0.toNat = 0xF0 → 0x90 ≤ b1.toNat) ∧
        (b0.toNat = 0xF4 → b1.toNat ≤ 0x8F) := by
  have hE0 : b0 = 0xE0 ↔ b0.toNat = 0xE0 := UInt8.toNat_inj.symm
  have hED : b0 = 0xED ↔ b0.toNat = 0xED := UInt8.toNat_inj.symm
  have hF0 : b0 = 0xF0 ↔ b0.toNat = 0xF0 := UInt8.toNat_inj.symm
  have hF4 : b0 = 0xF4 ↔ b0.toNat = 0xF4 := UInt8.toNat_inj.symm
  have hle : ∀ x y, (decide (x ≤ b1) && decide (b1 ≤ y)) = true ↔
      x.toNat ≤ b1.toNat ∧ b1.toNat ≤ y.toNat := by
    intro x y
    rw [and_eq_true, decide_eq_true_eq, decide_eq_true_eq]
    rfl
  unfold acceptSecond
  simp only [hE0, hED, hF0, hF4]
  split_ifs with h1 h2 h3 h4
  · rw [hle]
    show 0xA0 ≤ b1.toNat ∧ b1.toNat ≤ 0xBF ↔ _
    omega
  · rw [hle]
    show 0x80 ≤ b1.toNat ∧ b1.toNat ≤ 0x9F ↔ _
    omega
  · rw [hle]
    show 0x90 ≤ b1.toNat ∧ b1.toNat ≤ 0xBF ↔ _
    omega
  · rw [hle]
    show 0x80 ≤ b1.toNat ∧ b1.toNat ≤ 0x8F ↔ _
    omega
  · rw [isCont_iff]
    omega

/-! ### The four lengths of an encoding -/

theorem decodeRune_one (s : Str) (hb : b.toNat < 0x80) : decodeRune (b :: s) = (b.toNat, 1) := by
  have h : b < 0x80 := lt_iff_toNat_lt.mpr hb
  simp [decodeRune, if_pos h]

theorem decodeRune_two (s : Str) (h0 : 0xC2 ≤ b0.toNat ∧ b0.toNat ≤ 0xDF)
    (h1 : isCont b1 = true) : decodeRune (b0 :: b1 :: s) = (rune2 b0 b1, 2) := by
  have ha : ¬ b0 < 0x80 := by
    show ¬ b0.toNat < 0x80
    omega
  have hb : 0xC2 ≤ b0 ∧ b0 ≤ 0xDF := h0
  simp only [decodeRune, if_neg ha, if_pos hb, if_pos h1]

theorem decodeRune_three (s : Str) (h0 : 0xE0 ≤ b0.toNat ∧ b0.toNat ≤ 0xEF)
    (h1 : acceptSecond b0 b1 = true) (h2 : isCont b2 = true) :
    decodeRune (b0 :: b1 :: b2 :: s) = (rune3 b0 b1 b2, 3) := by
  have ha : ¬ b0 < 0x80 := by
    show ¬ b0.toNat < 0x80
    omega
  have hb : ¬ (0xC2 ≤ b0 ∧ b0 ≤ 0xDF) := by
    show ¬ (0xC2 ≤ b0.toNat ∧ b0.toNat ≤ 0xDF)
    omega
  have hc : 0xE0 ≤ b0 ∧ b0 ≤ 0xEF := h0
  simp only [decodeRune, if_neg ha, if_neg hb, if_pos hc, h1, h2, Bool.and_true, if_true]

variable {b3 : UInt8} {n r : Nat} {rs : List Nat}

theorem decodeRune_four (s : Str) (h0 : 0xF0 ≤ b0.toNat ∧ b0.toNat ≤ 0xF4)
    (h1 : acceptSecond b0 b1 = true) (h2 : isCont b2 = true) (h3 : isCont b3 = true) :
    decodeRune (b0 :: b1 :: b2 :: b3 :: s) = (rune4 b0 b1 b2 b3, 4) := by
  have ha : ¬ b0 < 0x80 := by
    show ¬ b0.toNat < 0x80
    omega
  have hb : ¬ (0xC2 ≤ b0 ∧ b0 ≤ 0xDF) := by
    show ¬ (0xC2 ≤ b0.toNat ∧ b0.toNat ≤ 0xDF)
    omega
  have hc : ¬ (0xE0 ≤ b0 ∧ b0 ≤ 0xEF) := by
    show ¬ (0xE0 ≤ b0.toNat ∧ b0.toNat ≤ 0xEF)
    omega
  have hd : 0xF0 ≤ b0 ∧ b0 ≤ 0xF4 := h0
  simp [decodeRune, if_neg ha, if_neg hb, if_neg hc, if_pos hd, h1, h2, h3]

theorem toNat_ofNat_of_lt (h : n < 256) : (UInt8.ofNat n).toNat = n := by
  rw [toNat_ofNat', Nat.mod_eq_of_lt h]

theorem decodeRune_encodeRune (h : Scalar r) (s : Str) :
    decodeRune (encodeRune r ++ s) = (r, (encodeRune r).length) := by
  unfold Scalar at h
  unfold encodeRune
  split_ifs with h1 h2 h3 h4
  · have hr := toNat_ofNat_of_lt (n := r) (by omega)
    rw [singleton_append, decodeRune_one s (by omega), hr]
    rfl
  · have hb0 := toNat_ofNat_of_lt (n := 0xC0 + r / 0x40) (by omega)
    have hb1 := toNat_ofNat_of_lt (n := 0x80 + r % 0x40) (by omega)
    have hr : rune2 (.ofNat (0xC0 + r / 0x40)) (.ofNat (0x80 + r % 0x40)) = r := by
      unfold rune2
      omega
    simp only [cons_append, nil_append, length_cons, length_nil]
    rw [decodeRune_two s (by omega) (isCont_iff.mpr (by omega)), hr]
  · omega
  · have hb0 := toNat_ofNat_of_lt (n := 0xE0 + r / 0x1000) (by omega)
    have hb1 := toNat_ofNat_of_lt (n := 0x80 + r / 0x40 % 0x40) (by omega)
    have hb2 := toNat_ofNat_of_lt (n := 0x80 + r % 0x40) (by omega)
    have hr : rune3 (.ofNat (0xE0 + r / 0x1000)) (.ofNat (0x80 + r / 0x40 % 0x40))
        (.ofNat (0x80 + r % 0x40)) = r := by
      unfold rune3
      omega
    simp only [cons_append, nil_append, length_cons, length_nil]
    rw [decodeRune_three s (by omega) (acceptSecond_iff.mpr (by omega))
      (isCont_iff.mpr (by omega)), hr]
  · have hb0 := toNat_ofNat_of_lt (n := 0xF0 + r / 0x40000) (by omega)
    have hb1 := toNat_ofNat_of_lt (n := 0x80 + r / 0x1000 % 0x40) (by omega)
    have hb2 := toNat_ofNat_of_lt (n := 0x80 + r / 0x40 % 0x40) (by omega)
    have hb3 := toNat_ofNat_of_lt (n := 0x80 + r % 0x40) (by omega)
    have hr : rune4 (.ofNat (0xF0 + r / 0x40000)) (.ofNat (0x80 + r / 0x1000 % 0x40))
        (.ofNat (0x80 + r / 0x40 % 0x40)) (.ofNat (0x80 + r % 0x40)) = r := by
      unfold rune4
      omega
    simp only [cons_append, nil_append, length_cons, length_nil]
    rw [decodeRune_four s (by omega) (acceptSecond_iff.mpr (by omega))
      (isCont_iff.mpr (by omega)) (isCont_iff.mpr (by omega)), hr]

theorem isCont_ascii (hc : c.toNat < 0x80) : isCont c = false := by
  rw [eq_false_iff, Ne, isCont_iff]
  omega

theorem acceptSecond_ascii (hc : c.toNat < 0x80) (b0 : UInt8) : acceptSecond b0 c = false := by
  rw [eq_false_iff, Ne, acceptSecond_iff]
  omega

/-- The bytes before an ASCII byte are decoded as if they were the whole string: the ASCII
byte does not continue an encoding, and neither does the end of the string. -/
theorem decodeRune_append {a : Str} (ha : a ≠ []) (hc : c.toNat < 0x80) (b : Str) :
    decodeRune (a ++ c :: b) = decodeRune a := by
  have h1 := isCont_ascii hc
  have h2 := acceptSecond_ascii hc
  match a, ha with
  | [b0], _ =>
    rcases b with _ | ⟨b', _ | ⟨b'', b⟩⟩ <;> simp [decodeRune, h1, h2]
  | [b0, b1], _ =>
    rcases b with _ | ⟨b', b⟩ <;> simp [decodeRune, h1]
  | [b0, b1, b2], _ => simp [decodeRune, h1]
  | b0 :: b1 :: b2 :: b3 :: a, _ => simp [decodeRune]

def Wide (n : Nat) (d : Nat × Nat) : Prop := Scalar d.1 ∧ 0x80 ≤ d.1 ∧ 1 ≤ d.2 ∧ d.2 ≤ n + 1

theorem wide_invalid (n : Nat) : Wide n (runeError, 1) := by
  unfold Wide Scalar runeError
  omega

theorem wide_rune2 (n : Nat) (h0 : 0xC2 ≤ b0.toNat ∧ b0.toNat ≤ 0xDF)
    (h1 : isCont b1 = true) : Wide (n + 1) (rune2 b0 b1, 2) := by
  rw [isCont_iff] at h1
  unfold Wide Scalar rune2
  omega

theorem wide_rune3 (n : Nat) (h0 : 0xE0 ≤ b0.toNat ∧ b0.toNat ≤ 0xEF)
    (h1 : acceptSecond b0 b1 = true) (h2 : isCont b2 = true) :
    Wide (n + 2) (rune3 b0 b1 b2, 3) := by
  rw [isCont_iff] at h2
  rw [acceptSecond_iff] at h1
  unfold Wide Scalar rune3
  omega

theorem wide_rune4 (n : Nat) (h0 : 0xF0 ≤ b0.toNat ∧ b0.toNat ≤ 0xF4)
    (h1 : acceptSecond b0 b1 = true) (h2 : isCont b2 = true) (h3 : isCont b3 = true) :
    Wide (n + 3) (rune4 b0 b1 b2 b3, 4) := by
  rw [isCont_iff] at h2 h3
  rw [acceptSecond_iff] at h1
  unfold Wide Scalar rune4
  omega

theorem decodeRune_wide (h0 : 0x80 ≤ b0.toNat) (s : Str) :
    Wide s.length (decodeRune (b0 :: s)) := by
  generalize hx : b0 :: s = x
  fun_cases decodeRune x
  all_goals cases hx
  case case2 hlow => exact absurd (lt_iff_toNat_lt.mp hlow) (Nat.not_lt.mpr h0)
  case case3 hc _ hlead => exact wide_rune2 _ hlead hc
  case case6 hlead hc =>
    rw [and_eq_true] at hc
    exact wide_rune3 _ hlead hc.1 hc.2
  case case9 hlead hc =>
    rw [and_eq_true, and_eq_true] at hc
    exact wide_rune4 _ hlead hc.1.1 hc.1.2 hc.2
  all_goals exact wide_invalid _

theorem width_bounds (b : UInt8) (s : Str) :
    1 ≤ (decodeRune (b :: s)).2 ∧ (decodeRune (b :: s)).2 ≤ (b :: s).length := by
  rcases Nat.lt_or_ge b.toNat 0x80 with hb | hb
  · rw [decodeRune_one s hb, length_cons]
    omega
  · exact (decodeRune_wide hb s).2.2

theorem length_drop_width (b : UInt8) (s : Str) :
    ((b :: s).drop (decodeRune (b :: s)).2).length ≤ s.length := by
  have hw := width_bounds b s
  rw [length_drop, length_cons]
  omega

/-! ### Whole strings -/

theorem runesAux_fuel {m : Nat} (hn : s.length ≤ n) (hm : s.length ≤ m) :
    runesAux n s = runesAux m s := by
  induction n generalizing m s with
  | zero =>
    obtain rfl : s = [] := length_eq_zero_iff.mp (by omega)
    cases m <;> rfl
  | succ n ih =>
    rcases s with _ | ⟨b, s⟩
    · cases m <;> rfl
    · rcases m with _ | m
      · simp at hm
      · have hd := length_drop_width b s
        simp only [length_cons] at hn hm
        exact congrArg (_ :: ·) (ih (by omega) (by omega))

theorem runes_cons (b : UInt8) (s : Str) :
    runes (b :: s) = (decodeRune (b :: s)).1 :: runes ((b :: s).drop (decodeRune (b :: s)).2) := by
  show runesAux (s.length + 1) (b :: s) = _
  simp only [runesAux]
  rw [runes, runesAux_fuel (length_drop_width b s) le_rfl]

@[simp] theorem runes_nil : runes [] = [] := rfl

theorem runes_ascii_cons (hb : b.toNat < 0x80) (s : Str) : runes (b :: s) = b.toNat :: runes s := by
  rw [runes_cons, decodeRune_one s hb]
  rfl

theorem decode_induction {P : Str → Prop} (nil : P [])
    (cons : ∀ b s, P ((b :: s).drop (decodeRune (b :: s)).2) → P (b :: s)) (s : Str) : P s := by
  induction hn : s.length using Nat.strong_induction_on generalizing s with
  | _ n ih =>
    rcases s with _ | ⟨b, s⟩
    · exact nil
    · exact cons b s (ih _ (hn ▸ Nat.lt_succ_of_le (length_drop_width b s)) _ rfl)

theorem runes_append (a : Str) (hc : c.toNat < 0x80) (b : Str) :
    runes (a ++ c :: b) = runes a ++ c.toNat :: runes b := by
  induction a using decode_induction with
  | nil => exact runes_ascii_cons hc b
  | cons b0 a ih =>
    have hdec := decodeRune_append (a := b0 :: a) (by simp) hc b
    rw [runes_cons b0 a, cons_append, runes_cons, ← cons_append, hdec,
      drop_append_of_le_length (width_bounds b0 a).2, ih, cons_append]

theorem scalar_of_mem_runes (hr : r ∈ runes s) : Scalar r := by
  induction s using decode_induction with
  | nil => cases hr
  | cons b s ih =>
    rw [runes_cons, mem_cons] at hr
    rcases hr with rfl | hr
    · rcases Nat.lt_or_ge b.toNat 0x80 with hb | hb
      · rw [decodeRune_one s hb]
        exact .inl (by omega)
      · exact (decodeRune_wide hb s).1
    · exact ih hr

theorem mem_of_mem_runes (hc : c.toNat < 0x80) (hr : c.toNat ∈ runes s) : c ∈ s := by
  induction s using decode_induction with
  | nil => cases hr
  | cons b s ih =>
    rw [runes_cons, mem_cons] at hr
    rcases hr with hr | hr
    · rcases Nat.lt_or_ge b.toNat 0x80 with hb | hb
      · rw [decodeRune_one s hb] at hr
        rw [UInt8.toNat_inj.mp hr]
        exact mem_cons_self
      · have := (decodeRune_wide hb s).2.1
        omega
    · exact mem_of_mem_drop (ih hr)

@[simp] theorem ofRunes_nil : ofRunes [] = [] := rfl

theorem ofRunes_cons (r : Nat) (rs : List Nat) : ofRunes (r :: rs) = encodeRune r ++ ofRunes rs :=
  flatMap_cons

theorem ofRunes_append (rs ts : List Nat) : ofRunes (rs ++ ts) = ofRunes rs ++ ofRunes ts :=
  flatMap_append

theorem encodeRune_ne_nil (r : Nat) : encodeRune r ≠ [] := by
  unfold encodeRune
  split_ifs <;> simp

theorem runes_ofRunes (h : ∀ r ∈ rs, Scalar r) : runes (ofRunes rs) = rs := by
  induction rs with
  | nil => rfl
  | cons r rs ih =>
    rw [forall_mem_cons] at h
    have hdec := decodeRune_encodeRune h.1 (ofRunes rs)
    rw [ofRunes_cons]
    rcases he : encodeRune r ++ ofRunes rs with _ | ⟨b, s⟩
    · simp [encodeRune_ne_nil] at he
    · rw [runes_cons, ← he, hdec, drop_left, ih h.2]

theorem ofRunes_inj {ts : List Nat} (hr : ∀ r ∈ rs, Scalar r) (ht : ∀ r ∈ ts, Scalar r)
    (h : ofRunes rs = ofRunes ts) : rs = ts := by
  rw [← runes_ofRunes hr, h, runes_ofRunes ht]

end Mihomo.Go
