import Mathlib.Data.List.Sort
import Mathlib.Data.Nat.Bitwise
import Mathlib.Tactic.FinCases
import Mihomo.Go.Text

/-!
# Byte layouts (transport/sudoku/obfs/sudoku/layout.go)

A layout says which bytes carry 6 bits of the stream, as a digit and a cell or as a group, and which
ones are padding. `resolveLayout` returns sound layouts only.
-/

namespace Mihomo.Sudoku
open Go List Nat
instance neZeroFour : NeZero 4 := ⟨by decide⟩

/-- The arrays of `byteLayout` are functions of their index. -/
structure ByteLayout where
  padMarker : UInt8
  paddingPool : List UInt8
  hintTable : UInt8 → Bool
  encodeHint : Fin 4 → Fin 16 → UInt8
  encodeGroup : Fin 64 → UInt8
  decodeGroup : UInt8 → UInt8
  groupValid : UInt8 → Bool

namespace ByteLayout

def isHint (l : ByteLayout) (b : UInt8) : Bool := l.hintTable b

/-- The indices are `val & 0x03` and `pos & 0x0F`. -/
def hintByte (l : ByteLayout) (val pos : Nat) : UInt8 :=
  l.encodeHint (Fin.ofNat 4 val) (Fin.ofNat 16 pos)

/-- The index is `group & 0x3F`. -/
def groupByte (l : ByteLayout) (group : Nat) : UInt8 := l.encodeGroup (Fin.ofNat 64 group)

def decodePackedGroup (l : ByteLayout) (b : UInt8) : UInt8 × Bool := (l.decodeGroup b, l.groupValid b)

structure Sound (l : ByteLayout) : Prop where
  hint : ∀ val pos, l.hintTable (l.encodeHint val pos) = true
  decode_hint : ∀ val pos, l.decodeGroup (l.encodeHint val pos) = UInt8.ofNat (val * 16 + pos)
  group : ∀ g, l.hintTable (l.encodeGroup g) = true
  decode_group : ∀ g, l.decodeGroup (l.encodeGroup g) = UInt8.ofNat g
  decode_lt : ∀ b, (l.decodeGroup b).toNat < 64
  groupValid : ∀ b, l.hintTable b = true → l.groupValid b = true
  padding : ∀ b ∈ l.paddingPool, l.hintTable b = false
  marker : l.padMarker ∈ l.paddingPool
  other : ∃ b ∈ l.paddingPool, b ≠ l.padMarker

end ByteLayout

inductive LayoutError where
  /-- "invalid ascii mode: %s" -/
  | mode (mode : Str)
  /-- "custom table must have 8 symbols, got %d" -/
  | symbols (got : Nat)
  /-- "invalid char %q in custom table" -/
  | char (c : Nat)
  /-- "custom table must contain exactly 2 x, 2 p, 4 v" -/
  | counts
  /-- "custom table produced empty padding pool" -/
  | emptyPadding
  deriving DecidableEq

/-! ### The two fixed layouts -/

def newASCIILayout : ByteLayout where
  padMarker := 0x3F
  paddingPool := (range 32).map fun i => UInt8.ofNat (0x20 + i)
  hintTable wire := wire &&& 0x40 == 0x40 || wire == 0x0A
  encodeHint val pos :=
    let b := (0x40 : UInt8) ||| UInt8.ofNat val <<< 4 ||| UInt8.ofNat pos
    if b = 0x7F then 0x0A else b
  encodeGroup group :=
    let b : UInt8 := 0x40 ||| UInt8.ofNat group
    if b = 0x7F then 0x0A else b
  decodeGroup wire :=
    if wire = 0x0A then 0x3F else if wire &&& 0x40 = 0x40 then wire &&& 0x3F else 0
  groupValid wire := wire &&& 0x40 == 0x40 || wire == 0x0A

theorem toNat_and_lt (w : UInt8) {m : UInt8} (hm : m.toNat < 64) : (w &&& m).toNat < 64 := by
  exact lt_of_le_of_lt and_le_right hm

theorem newASCIILayout_sound : newASCIILayout.Sound where
  hint := by decide
  decode_hint := by decide
  group := by decide
  decode_group := by decide
  decode_lt := by
    intro b
    simp only [newASCIILayout]
    split_ifs
    · decide
    · exact toNat_and_lt b (by decide)
    · decide
  groupValid := fun _ h => h
  padding := by decide +kernel
  marker := by decide +kernel
  other := ⟨0x20, by decide⟩

def newEntropyLayout : ByteLayout where
  padMarker := 0x80
  paddingPool := (range 8).flatMap fun i => [UInt8.ofNat (0x80 + i), UInt8.ofNat (0x10 + i)]
  hintTable wire := wire &&& 0x90 == 0
  encodeHint val pos := UInt8.ofNat val <<< 5 ||| UInt8.ofNat pos
  encodeGroup group :=
    let v := UInt8.ofNat group
    (v &&& 0x30) <<< 1 ||| v &&& 0x0F
  decodeGroup wire :=
    if wire &&& 0x90 = 0 then (wire >>> 1) &&& 0x30 ||| wire &&& 0x0F else 0
  groupValid wire := wire &&& 0x90 == 0

theorem toNat_or_lt {u w : UInt8} (hu : u.toNat < 64) (hw : w.toNat < 64) :
    (u ||| w).toNat < 64 := by
  exact or_lt_two_pow (n := 6) hu hw

theorem newEntropyLayout_sound : newEntropyLayout.Sound where
  hint := by decide
  decode_hint := by decide
  group := by decide
  decode_group := by decide
  decode_lt := by
    intro b
    simp only [newEntropyLayout]
    split_ifs
    · exact toNat_or_lt (toNat_and_lt _ (by decide)) (toNat_and_lt _ (by decide))
    · decide
  groupValid := fun _ h => h
  padding := by decide +kernel
  marker := by decide +kernel
  other := ⟨0x10, by decide⟩

/-! ### Bits of a byte -/

def bit (b : Nat) : UInt8 := 1 <<< UInt8.ofNat b

/-- The test `w & (1 << b) != 0`. -/
def has (w : UInt8) (b : Nat) : Bool := w &&& bit b != 0

variable {b a : Nat}

theorem toNat_bit (hb : b < 8) : (bit b).toNat = 2 ^ b := by
  revert b
  decide

theorem has_eq_testBit (w : UInt8) (hb : b < 8) : has w b = w.toNat.testBit b := by
  have hzero : w &&& bit b = 0 ↔ w.toNat &&& 2 ^ b = 0 := by
    rw [← toNat_bit hb, ← UInt8.toNat_inj]
    rfl
  rw [has, Bool.eq_iff_iff, bne_iff_ne, ne_eq, hzero, and_two_pow]
  cases w.toNat.testBit b <;> simp

theorem has_or (u w : UInt8) (hb : b < 8) : has (u ||| w) b = (has u b || has w b) := by
  rw [has_eq_testBit _ hb, has_eq_testBit _ hb, has_eq_testBit _ hb, UInt8.toNat_or, testBit_or]

theorem has_bit (ha : a < 8) (hb : b < 8) : has (bit a) b = decide (a = b) := by
  rw [has_eq_testBit _ hb, toNat_bit ha, testBit_two_pow]

theorem has_and_not_bit (w : UInt8) (ha : a < 8) (hb : b < 8) :
    has (w &&& ~~~bit a) b = (has w b && decide (a ≠ b)) := by
  have hnot : ∀ a < 8, ∀ b < 8, (~~~bit a).toNat.testBit b = decide (a ≠ b) := by decide
  rw [has_eq_testBit _ hb, has_eq_testBit _ hb, UInt8.toNat_and, testBit_and, hnot a ha b hb]

theorem has_set_bit (c : Bool) (w : UInt8) (ha : a < 8) (hb : b < 8) :
    has (if c then w ||| bit a else w) b = (has w b || (c && decide (a = b))) := by
  cases c
  · simp
  · simp [has_or _ _ hb, has_bit ha hb]

theorem and_mask_eq_iff (w : UInt8) (ha : a < 8) (hb : b < 8) :
    w &&& (bit a ||| bit b) = bit a ||| bit b ↔ has w a = true ∧ has w b = true := by
  constructor
  · intro h
    have hand : ∀ c < 8, has (bit a ||| bit b) c = true → has w c = true := by
      intro c hc hmask
      rw [← h, has_eq_testBit _ hc, UInt8.toNat_and, testBit_and, Bool.and_eq_true] at hmask
      rw [has_eq_testBit _ hc]
      exact hmask.1
    constructor
    · apply hand a ha
      rw [has_or _ _ ha, has_bit ha ha, decide_eq_true rfl, Bool.true_or]
    · apply hand b hb
      rw [has_or _ _ hb, has_bit hb hb, decide_eq_true rfl, Bool.or_true]
  · rintro ⟨hwa, hwb⟩
    rw [has_eq_testBit _ ha] at hwa
    rw [has_eq_testBit _ hb] at hwb
    apply UInt8.toNat_inj.mp
    rw [UInt8.toNat_and, UInt8.toNat_or, toNat_bit ha, toNat_bit hb]
    apply eq_of_testBit_eq
    intro i
    by_cases hai : a = i
    · simp [← hai, hwa]
    · by_cases hbi : b = i
      · simp [← hbi, hwb]
      · simp [hai, hbi]

/-! ### The custom layout -/

/-- The bits of the symbols `x`, `p` and `v` of a pattern. -/
structure CustomBits where
  x : List Nat
  p : List Nat
  v : List Nat

/-- The loop over the symbols from index `i` on. -/
def customBits : Nat → List Nat → Except LayoutError CustomBits
  | _, [] => .ok ⟨[], [], []⟩
  | i, c :: cs =>
    if c = 0x78 then (customBits (i + 1) cs).map fun r => { r with x := (7 - i) :: r.x }
    else if c = 0x70 then (customBits (i + 1) cs).map fun r => { r with p := (7 - i) :: r.p }
    else if c = 0x76 then (customBits (i + 1) cs).map fun r => { r with v := (7 - i) :: r.v }
    else .error (.char c)

def onesCount8 (w : UInt8) : Nat := ((range 8).filter fun b => has w b).length

namespace CustomBits

def xMask (r : CustomBits) : UInt8 := r.x.foldl (fun mask b => mask ||| bit b) 0

def encodeBits (r : CustomBits) (val pos : Nat) (dropX : Option Nat) : UInt8 :=
  let out := r.xMask
  let out :=
    match dropX with
    | none => out
    | some d => out &&& ~~~bit (r.x.getD d 0)
  let out := if val.testBit 1 then out ||| bit (r.p.getD 0 0) else out
  let out := if val.testBit 0 then out ||| bit (r.p.getD 1 0) else out
  r.v.zipIdx.foldl (fun out b => if pos.testBit (3 - b.2) then out ||| bit b.1 else out) out

/-- The padding bytes have one of the two bits `x` cleared and five bits at least. -/
def padding (r : CustomBits) : List UInt8 :=
  ((((range r.x.length).flatMap fun drop =>
    (range 4).flatMap fun val =>
      (range 16).map fun pos => r.encodeBits val pos (some drop)).filter
        fun b => 5 ≤ onesCount8 b).dedup).insertionSort (· ≤ ·)

def decodeBits (r : CustomBits) (wire : UInt8) : UInt8 :=
  let val : UInt8 := if has wire (r.p.getD 0 0) then 2 else 0
  let val := if has wire (r.p.getD 1 0) then val ||| 1 else val
  let pos : UInt8 :=
    r.v.zipIdx.foldl (fun pos b => if has wire b.1 then pos ||| bit (3 - b.2) else pos) 0
  val <<< 4 ||| pos

def layout (r : CustomBits) : ByteLayout where
  padMarker := r.padding.headD 0
  paddingPool := r.padding
  hintTable wire := wire &&& r.xMask == r.xMask
  encodeHint val pos := r.encodeBits val pos none
  encodeGroup group := r.encodeBits (group / 16 % 4) (group % 16) none
  decodeGroup wire := if wire &&& r.xMask = r.xMask then r.decodeBits wire else 0
  groupValid wire := wire &&& r.xMask == r.xMask

end CustomBits

def newCustomLayout (pattern : Str) : Except LayoutError ByteLayout :=
  let cleaned := toLower ((trimSpace pattern).filter (· != 0x20))
  if cleaned.length ≠ 8 then .error (.symbols cleaned.length)
  else
    match customBits 0 (runes cleaned) with
    | .error e => .error e
    | .ok r =>
      if r.x.length ≠ 2 ∨ r.p.length ≠ 2 ∨ r.v.length ≠ 4 then .error .counts
      else if r.padding = [] then .error .emptyPadding
      else .ok r.layout

def resolveLayout (mode customPattern : Str) : Except LayoutError ByteLayout :=
  if toLower mode = ascii "ascii" ∨ toLower mode = ascii "prefer_ascii" then .ok newASCIILayout
  else if toLower mode = ascii "entropy" ∨ toLower mode = ascii "prefer_entropy" ∨
      toLower mode = [] then
    if trimSpace customPattern ≠ [] then newCustomLayout customPattern else .ok newEntropyLayout
  else .error (.mode mode)

variable {r : CustomBits} {cs : List Nat} {l : ByteLayout}

theorem customBits_perm {i : Nat} (h : customBits i cs = .ok r) :
    (r.x ++ (r.p ++ r.v)).Perm ((range' i cs.length).map (7 - ·)) := by
  induction cs generalizing i r with
  | nil =>
    obtain rfl : .mk [] [] [] = r := Except.ok.inj h
    exact .refl _
  | cons c cs ih =>
    rw [customBits] at h
    cases hr : customBits (i + 1) cs with
    | error e =>
      rw [hr] at h
      split_ifs at h <;> cases h
    | ok r0 =>
      rw [hr] at h
      split_ifs at h <;> cases h
      · exact (ih hr).cons _
      · exact perm_middle.trans ((ih hr).cons _)
      · rw [← append_assoc]
        refine perm_middle.trans (.cons _ ?_)
        rw [append_assoc]
        exact ih hr

namespace CustomBits

def Splits (r : CustomBits) : Prop :=
  ∃ x0 x1 p0 p1 v0 v1 v2 v3, r = ⟨[x0, x1], [p0, p1], [v0, v1, v2, v3]⟩ ∧
    [x0, x1, p0, p1, v0, v1, v2, v3].Perm [7, 6, 5, 4, 3, 2, 1, 0]

theorem Splits.length_x (h : r.Splits) : r.x.length = 2 := by
  obtain ⟨x0, x1, p0, p1, v0, v1, v2, v3, rfl, -⟩ := h
  rfl

end CustomBits

theorem customBits_splits (h : customBits 0 cs = .ok r)
    (hx : r.x.length = 2) (hp : r.p.length = 2) (hv : r.v.length = 4) : r.Splits := by
  have hperm := customBits_perm h
  have hlength : cs.length = 8 := by
    have := hperm.length_eq
    simp only [length_append, length_map, length_range', hx, hp, hv] at this
    exact this.symm
  obtain ⟨x, p, v⟩ := r
  obtain ⟨x0, x1, rfl⟩ := length_eq_two.mp hx
  obtain ⟨p0, p1, rfl⟩ := length_eq_two.mp hp
  obtain ⟨v0, v1, v2, v3, rfl⟩ : ∃ a b c d, v = [a, b, c, d] := by
    match v, hv with
    | [a, b, c, d], _ => exact ⟨a, b, c, d, rfl⟩
  rw [hlength] at hperm
  exact ⟨x0, x1, p0, p1, v0, v1, v2, v3, rfl, hperm⟩

namespace CustomBits

section
variable {x0 x1 p0 p1 v0 v1 v2 v3 : Nat}

theorem has_encodeBits {b : Nat} (hlt : ∀ a ∈ [x0, x1, p0, p1, v0, v1, v2, v3], a < 8) (hb : b < 8)
    (val pos : Nat) (drop : Option Nat) (hdrop : ∀ d ∈ drop, [x0, x1].getD d 0 < 8) :
    has (encodeBits ⟨[x0, x1], [p0, p1], [v0, v1, v2, v3]⟩ val pos drop) b =
      ((decide (x0 = b) || decide (x1 = b)) &&
        (drop.all fun d => decide ([x0, x1].getD d 0 ≠ b)) ||
        (val.testBit 1 && decide (p0 = b)) || (val.testBit 0 && decide (p1 = b)) ||
        (pos.testBit 3 && decide (v0 = b)) || (pos.testBit 2 && decide (v1 = b)) ||
        (pos.testBit 1 && decide (v2 = b)) || (pos.testBit 0 && decide (v3 = b))) := by
  have hmask : has (xMask ⟨[x0, x1], [p0, p1], [v0, v1, v2, v3]⟩) b =
      (decide (x0 = b) || decide (x1 = b)) := by
    rw [← has_bit (hlt x0 (by simp)) hb, ← has_bit (hlt x1 (by simp)) hb, ← has_or _ _ hb]
    simp [xMask]
  have hset := fun a (ha : a ∈ [x0, x1, p0, p1, v0, v1, v2, v3]) (c : Bool) (w : UInt8) =>
    has_set_bit c w (hlt a ha) hb
  simp only [encodeBits, zipIdx_cons, zipIdx_nil, foldl_cons, foldl_nil,
    getD_cons_zero, getD_cons_succ]
  rw [hset v3 (by simp), hset v2 (by simp), hset v1 (by simp), hset v0 (by simp),
    hset p1 (by simp), hset p0 (by simp)]
  cases drop with
  | none => rw [hmask]; simp
  | some d =>
    have hd := hdrop d rfl
    simp only [has_and_not_bit _ hd hb, hmask, Option.all_some]

theorem val_pos_of_bits : ∀ (val : Fin 4) (pos : Fin 16),
    (let high : UInt8 := if val.val.testBit 1 then 2 else 0
      let high := if val.val.testBit 0 then high ||| 1 else high
      let low : UInt8 := if pos.val.testBit 3 then 0 ||| bit 3 else 0
      let low := if pos.val.testBit 2 then low ||| bit 2 else low
      let low := if pos.val.testBit 1 then low ||| bit 1 else low
      let low := if pos.val.testBit 0 then low ||| bit 0 else low
      high <<< 4 ||| low) = UInt8.ofNat (val * 16 + pos) := by
  decide

variable (hperm : [x0, x1, p0, p1, v0, v1, v2, v3].Perm [7, 6, 5, 4, 3, 2, 1, 0])
include hperm

theorem lt_of_perm : ∀ a ∈ [x0, x1, p0, p1, v0, v1, v2, v3], a < 8 := by
  intro a ha
  have hlt : ∀ a ∈ [7, 6, 5, 4, 3, 2, 1, 0], a < 8 := by decide
  exact hlt a (hperm.mem_iff.mp ha)

theorem dropped_lt (drop : Option (Fin 2)) : ∀ d ∈ drop.map Fin.val, [x0, x1].getD d 0 < 8 := by
  intro d hd
  obtain ⟨d, -, rfl⟩ := Option.mem_map.mp hd
  fin_cases d
  · exact lt_of_perm hperm x0 (by simp)
  · exact lt_of_perm hperm x1 (by simp)

theorem nodup_of_perm : [x0, x1, p0, p1, v0, v1, v2, v3].Nodup ∧
    [v3, v2, v1, v0, p1, p0, x1, x0].Nodup := by
  have hnodup : [x0, x1, p0, p1, v0, v1, v2, v3].Nodup := hperm.nodup_iff.mpr (by decide)
  exact ⟨hnodup, nodup_reverse.mpr hnodup⟩

end

variable {r : CustomBits} (hr : r.Splits)
include hr

theorem decodeBits_encodeBits (val : Fin 4) (pos : Fin 16) :
    r.decodeBits (r.encodeBits val pos none) = UInt8.ofNat (val * 16 + pos) := by
  obtain ⟨x0, x1, p0, p1, v0, v1, v2, v3, rfl, hperm⟩ := hr
  have hlt := lt_of_perm hperm
  obtain ⟨hnodup, hback⟩ := nodup_of_perm hperm
  have hbits := fun b (hb : b ∈ [x0, x1, p0, p1, v0, v1, v2, v3]) =>
    has_encodeBits hlt (hlt b hb) val pos none (by simp)
  simp only [nodup_cons, mem_cons, not_or] at hnodup hback
  rw [decodeBits, ← val_pos_of_bits]
  simp only [zipIdx_cons, foldl_cons, getD_cons_zero, getD_cons_succ]
  rw [hbits p0 (by simp), hbits p1 (by simp), hbits v0 (by simp), hbits v1 (by simp),
    hbits v2 (by simp), hbits v3 (by simp)]
  simp [hnodup, hback]

theorem encodeBits_and_xMask (val pos : Nat) (drop : Option (Fin 2)) :
    (r.encodeBits val pos (drop.map Fin.val) &&& r.xMask = r.xMask) ↔ drop = none := by
  obtain ⟨x0, x1, p0, p1, v0, v1, v2, v3, rfl, hperm⟩ := hr
  have hlt := lt_of_perm hperm
  obtain ⟨hnodup, hback⟩ := nodup_of_perm hperm
  have hdrop := dropped_lt hperm drop
  have hmask : xMask ⟨[x0, x1], [p0, p1], [v0, v1, v2, v3]⟩ = bit x0 ||| bit x1 := by simp [xMask]
  rw [hmask, and_mask_eq_iff _ (hlt x0 (by simp)) (hlt x1 (by simp)),
    has_encodeBits hlt (hlt x0 (by simp)) val pos _ hdrop,
    has_encodeBits hlt (hlt x1 (by simp)) val pos _ hdrop]
  simp only [nodup_cons, mem_cons, not_or] at hnodup hback
  cases drop with
  | none => simp
  | some d =>
    fin_cases d <;> simp [hback]

theorem has_encodeBits_full (d : Fin 2) {b : Nat} (hb : b < 8) :
    has (r.encodeBits 3 15 (some d)) b = decide (r.x.getD d 0 ≠ b) := by
  obtain ⟨x0, x1, p0, p1, v0, v1, v2, v3, rfl, hperm⟩ := hr
  have hlt := lt_of_perm hperm
  obtain ⟨hnodup, hback⟩ := nodup_of_perm hperm
  have hmem : b ∈ [x0, x1, p0, p1, v0, v1, v2, v3] := by
    have hall : ∀ b < 8, b ∈ [7, 6, 5, 4, 3, 2, 1, 0] := by decide
    exact hperm.mem_iff.mpr (hall b hb)
  have hones : testBit 3 1 = true ∧ testBit 15 3 = true ∧ testBit 15 2 = true ∧
      testBit 15 1 = true := by decide
  rw [has_encodeBits hlt hb 3 15 (some d) (dropped_lt hperm (some d))]
  simp only [nodup_cons, mem_cons, not_mem_nil, or_false, not_or] at hnodup hback hmem
  fin_cases d <;>
    rcases hmem with rfl | rfl | rfl | rfl | rfl | rfl | rfl | rfl <;> simp [hnodup, hback, hones]

theorem onesCount8_encodeBits_full (d : Fin 2) :
    onesCount8 (r.encodeBits 3 15 (some d)) = 7 := by
  have hcount : ∀ a < 8, ((range 8).filter fun b => decide (a ≠ b)).length = 7 := by decide
  have hd : r.x.getD d 0 < 8 := by
    obtain ⟨x0, x1, p0, p1, v0, v1, v2, v3, rfl, hperm⟩ := hr
    exact dropped_lt hperm (some d) d rfl
  rw [onesCount8, ← hcount _ hd]
  congr 1
  apply filter_congr
  intro b hb
  exact has_encodeBits_full hr d (mem_range.mp hb)

omit hr in
theorem mem_padding (hx : r.x.length = 2) {b : UInt8} : b ∈ r.padding ↔
    (∃ drop : Fin 2, ∃ val < 4, ∃ pos < 16, r.encodeBits val pos (some drop) = b) ∧
      5 ≤ onesCount8 b := by
  rw [padding, mem_insertionSort, mem_dedup, mem_filter, decide_eq_true_iff, hx]
  simp only [mem_flatMap, mem_map, mem_range]
  refine and_congr_left fun _ => ?_
  constructor
  · rintro ⟨drop, hdrop, h⟩
    exact ⟨⟨drop, hdrop⟩, h⟩
  · rintro ⟨drop, h⟩
    exact ⟨drop, drop.isLt, h⟩

theorem exists_mem_padding : ∃ a ∈ r.padding, ∃ b ∈ r.padding, a ≠ b := by
  have hmem : ∀ d : Fin 2, r.encodeBits 3 15 (some d) ∈ r.padding := by
    intro d
    refine (mem_padding hr.length_x).mpr ⟨⟨d, 3, by omega, 15, by omega, rfl⟩, ?_⟩
    rw [onesCount8_encodeBits_full hr d]
    omega
  refine ⟨_, hmem 0, _, hmem 1, fun heq => ?_⟩
  obtain ⟨x0, x1, p0, p1, v0, v1, v2, v3, hsplit, hperm⟩ := id hr
  have hx0 : x0 < 8 := lt_of_perm hperm x0 (by simp)
  have hbit := congrArg (has · x0) heq
  have hne : x1 ≠ x0 := by
    have hnodup := (nodup_of_perm hperm).1
    intro h
    simp [h] at hnodup
  rw [has_encodeBits_full hr 0 hx0, has_encodeBits_full hr 1 hx0, hsplit] at hbit
  simp [hne] at hbit

theorem decodeBits_lt (wire : UInt8) : (r.decodeBits wire).toNat < 64 := by
  obtain ⟨x0, x1, p0, p1, v0, v1, v2, v3, rfl, -⟩ := hr
  simp only [decodeBits, zipIdx_cons, zipIdx_nil, foldl_cons, foldl_nil,
    getD_cons_zero, getD_cons_succ]
  cases has wire p0 <;> cases has wire p1 <;> cases has wire v0 <;> cases has wire v1 <;>
    cases has wire v2 <;> cases has wire v3 <;> decide

theorem layout_sound : r.layout.Sound := by
  have hlt := decodeBits_lt hr
  obtain ⟨a, ha, b, hb, hne⟩ := exists_mem_padding hr
  obtain ⟨m, rest, hpool⟩ := exists_cons_of_ne_nil (ne_nil_of_mem ha)
  have hmarker : r.layout.padMarker = m := by rw [layout, hpool]; rfl
  have hhint : ∀ val pos, _ := fun val pos => (encodeBits_and_xMask hr val pos none).mpr rfl
  constructor
  · intro val pos
    exact beq_iff_eq.mpr (hhint val pos)
  · intro val pos
    exact (if_pos (hhint val pos)).trans (decodeBits_encodeBits hr val pos)
  · intro g
    exact beq_iff_eq.mpr (hhint ..)
  · intro g
    have hval : g.val / 16 % 4 < 4 := mod_lt _ (by omega)
    have hpos : g.val % 16 < 16 := mod_lt _ (by omega)
    refine (if_pos (hhint ..)).trans ?_
    refine (decodeBits_encodeBits hr ⟨_, hval⟩ ⟨_, hpos⟩).trans (congrArg UInt8.ofNat ?_)
    change g.val / 16 % 4 * 16 + g.val % 16 = g.val
    omega
  · intro b
    simp only [layout]
    split_ifs
    · exact hlt b
    · decide
  · intro b hb
    exact hb
  · intro b hb
    obtain ⟨⟨drop, val, -, pos, -, rfl⟩, -⟩ := (mem_padding hr.length_x).mp hb
    apply beq_eq_false_iff_ne.mpr
    intro h
    exact Option.some_ne_none drop ((encodeBits_and_xMask hr val pos (some drop)).mp h)
  · rw [hmarker]
    change m ∈ padding _
    rw [hpool]
    exact mem_cons_self
  · rw [hmarker]
    by_cases ham : a = m
    · exact ⟨b, hb, fun h => hne (ham.trans h.symm)⟩
    · exact ⟨a, ha, ham⟩

end CustomBits

theorem newCustomLayout_sound {pattern : Str} (h : newCustomLayout pattern = .ok l) : l.Sound := by
  revert h
  fun_cases newCustomLayout pattern
  all_goals
    intro h
    cases h
  case case5 r hr hcounts _ =>
    push Not at hcounts
    obtain ⟨hx, hp, hv⟩ := hcounts
    exact CustomBits.layout_sound (customBits_splits hr hx hp hv)

theorem resolveLayout_sound {mode customPattern : Str}
    (h : resolveLayout mode customPattern = .ok l) : l.Sound := by
  unfold resolveLayout at h
  split_ifs at h
  · obtain rfl := Except.ok.inj h
    exact newASCIILayout_sound
  · exact newCustomLayout_sound h
  · obtain rfl := Except.ok.inj h
    exact newEntropyLayout_sound

end Mihomo.Sudoku
