import Mihomo.Go.Text

/-!
# The wildcard matcher

`matchByString` of the source is a loop over two indices that remembers the last `*` it has passed. The
loop is run with fuel; `matchLoop_isSome` bounds what it needs.
-/

namespace Mihomo.Wildcard
open Go List Option

/-- The cursor of the loop; `star` is `-1` in the source while no `*` was passed. -/
structure Cursor where
  patternIndex : Nat
  sIndex : Nat
  lastStar : Nat
  star : Option Nat
  deriving DecidableEq, Repr

/-- The label `checkPattern`: only `*` may remain of the pattern. -/
def checkPattern (rest : Str) : Bool := rest.all fun c => c == 0x2A

/-- Back to the last `*`, which takes one more byte; without one the match fails. -/
def backtrack (c : Cursor) : Option Cursor :=
  c.star.map fun star =>
    { c with patternIndex := star + 1, lastStar := c.lastStar + 1, sIndex := c.lastStar + 1 }

/-- One round of `Loop`: the next cursor, or the result. -/
def round (pattern s : Str) (c : Cursor) : Cursor ⊕ Bool :=
  match s[c.sIndex]? with
  | none => .inr (checkPattern (pattern.drop c.patternIndex))
  | some b =>
    let retry : Cursor ⊕ Bool := (backtrack c).elim (.inr false) .inl
    match pattern[c.patternIndex]? with
    | none => retry
    | some p =>
      if p = 0x3F then
        .inl { c with patternIndex := c.patternIndex + 1, sIndex := c.sIndex + 1 }
      else if p = 0x2A then
        .inl
          { c with
            star := some c.patternIndex
            lastStar := c.sIndex
            patternIndex := c.patternIndex + 1 }
      else if p ≠ b then retry
      else .inl { c with patternIndex := c.patternIndex + 1, sIndex := c.sIndex + 1 }

def matchLoop (pattern s : Str) : Nat → Cursor → Option Bool
  | 0, _ => none
  | fuel + 1, c =>
    match round pattern s c with
    | .inl c => matchLoop pattern s fuel c
    | .inr result => some result

/-- Decreases in every round: a retry moves `lastStar` on, every other round moves
`patternIndex` on and leaves `lastStar` where it was or further right. -/
def Cursor.measure (pattern s : Str) (c : Cursor) : Nat :=
  (s.length - c.lastStar) * (pattern.length + 1) + (pattern.length - c.patternIndex)

variable {c d : Cursor} {pattern s : Str}

theorem retry_measure (hs : c.sIndex < s.length) (hle : c.lastStar ≤ c.sIndex)
    (h : (backtrack c).elim (.inr false) Sum.inl = (.inl d : Cursor ⊕ Bool)) :
    d.lastStar ≤ d.sIndex ∧ d.measure pattern s < c.measure pattern s := by
  cases hstar : c.star with
  | none => simp [backtrack, hstar] at h
  | some star =>
    simp only [backtrack, hstar, map_some, elim_some, Sum.inl.injEq] at h
    subst h
    refine ⟨le_rfl, ?_⟩
    have hlt : s.length - c.lastStar = (s.length - (c.lastStar + 1)) + 1 := by omega
    simp only [Cursor.measure, hlt, Nat.add_mul]
    omega

theorem advance_measure {i l : Nat} {st : Option Nat}
    (hp : c.patternIndex < pattern.length) (hl : c.lastStar ≤ l) :
    Cursor.measure pattern s ⟨c.patternIndex + 1, i, l, st⟩ < c.measure pattern s := by
  have hmul : (s.length - l) * (pattern.length + 1) ≤
      (s.length - c.lastStar) * (pattern.length + 1) :=
    Nat.mul_le_mul_right _ (by omega)
  simp only [Cursor.measure]
  omega

theorem round_measure (hle : c.lastStar ≤ c.sIndex)
    (h : round pattern s c = .inl d) :
    d.lastStar ≤ d.sIndex ∧ d.measure pattern s < c.measure pattern s := by
  have hlt {l : Str} {i : Nat} {b : UInt8} (hb : l[i]? = some b) : i < l.length :=
    (List.getElem?_eq_some_iff.mp hb).1
  revert h
  fun_cases round pattern s c <;> intro h
  case case1 => cases h
  case case2 b hs retry hp => exact retry_measure (hlt hs) hle h
  case case4 b hs hp _ =>
    cases h
    exact ⟨le_rfl, advance_measure (hlt hp) hle⟩
  case case5 b hs retry p hp _ _ _ => exact retry_measure (hlt hs) hle h
  all_goals
    cases h
    exact ⟨Nat.le_succ_of_le hle, advance_measure (hlt ‹pattern[_]? = _›) le_rfl⟩

theorem matchLoop_isSome (pattern s : Str) {fuel : Nat} (hle : c.lastStar ≤ c.sIndex)
    (hfuel : c.measure pattern s < fuel) : (matchLoop pattern s fuel c).isSome := by
  induction fuel generalizing c with
  | zero => omega
  | succ fuel ih =>
    unfold matchLoop
    cases hr : round pattern s c with
    | inl d =>
      obtain ⟨hd, hlt⟩ := round_measure hle hr
      exact ih hd (by omega)
    | inr result => rfl

def Cursor.start : Cursor := ⟨0, 0, 0, none⟩

theorem start_measure (pattern s : Str) :
    Cursor.start.measure pattern s < (s.length + 1) * (pattern.length + 1) := by
  simp only [Cursor.measure, Cursor.start, Nat.sub_zero, Nat.add_mul]
  omega

def matchByString (pattern s : Str) : Bool :=
  (matchLoop pattern s ((s.length + 1) * (pattern.length + 1)) .start).get
    (matchLoop_isSome pattern s le_rfl (start_measure pattern s))

def wildcardMatch (pattern s : Str) : Bool :=
  if pattern = [] then s == pattern
  else if pattern = ascii "*" ∨ s = pattern then true
  else matchByString pattern s

/-! ## What the matcher recognises -/

/-- The texts a pattern stands for: `*` is any bytes, so that its rest matches some suffix, `?` is
one byte, and any other byte is itself. -/
def Matches : Str → Str → Prop
  | [], s => s = []
  | p :: rest, s =>
    if p = 0x2A then ∃ u, u <:+ s ∧ Matches rest u
    else ∃ b u, s = b :: u ∧ (p = 0x3F ∨ p = b) ∧ Matches rest u

theorem matches_star (rest s : Str) :
    Matches (0x2A :: rest) s ↔ Matches rest s ∨ Matches (0x2A :: rest) s.tail := by
  cases s <;> simp [Matches, suffix_cons_iff]

theorem matches_byte {p : UInt8} (hp : p ≠ 0x2A) (rest : Str) (b : UInt8) (u : Str) :
    Matches (p :: rest) (b :: u) ↔ (p = 0x3F ∨ p = b) ∧ Matches rest u := by
  simp [Matches, hp]

theorem matches_star_star {rest s : Str} (h : Matches (0x2A :: 0x2A :: rest) s) :
    Matches (0x2A :: rest) s := by
  obtain ⟨u, hu, v, hv, hm⟩ := h
  exact ⟨v, hv.trans hu, hm⟩

theorem matches_star_byte {p : UInt8} (hp : p ≠ 0x2A) {rest s : Str}
    (h : Matches (0x2A :: p :: rest) s) : Matches (0x2A :: rest) s.tail := by
  obtain ⟨_, ⟨t, rfl⟩, hm⟩ := h
  rw [Matches, if_neg hp] at hm
  obtain ⟨b, u, rfl, -, hu⟩ := hm
  refine ⟨u, ?_, hu⟩
  cases t with
  | nil => exact suffix_rfl
  | cons x t => exact ⟨t ++ [b], by simp⟩

theorem checkPattern_iff (rest : Str) : checkPattern rest = true ↔ Matches rest [] := by
  induction rest with
  | nil => simp [Matches, checkPattern]
  | cons p rest ih =>
    by_cases hp : p = 0x2A
    · simpa [checkPattern, Matches, hp] using ih
    · simp [checkPattern, Matches, hp]

theorem matches_self (s : Str) : Matches s s := by
  induction s with
  | nil => rfl
  | cons b u ih =>
    by_cases hb : b = 0x2A
    · subst hb
      exact (matches_star ..).mpr (.inr ((matches_star ..).mpr (.inl ih)))
    · exact (matches_byte hb ..).mpr ⟨.inr rfl, ih⟩

def Later (pattern s : Str) (c : Cursor) : Prop :=
  ∃ star ∈ c.star, Matches (0x2A :: pattern.drop (star + 1)) (s.drop (c.lastStar + 1))

/-- A match of the whole goes on from the cursor or gives the last `*` more; the latter comes to
the cursor's place in the pattern further right, so that no older `*` has to be kept. -/
structure Cursor.Faithful (pattern s : Str) (c : Cursor) : Prop where
  whole : Matches pattern s ↔
    Matches (pattern.drop c.patternIndex) (s.drop c.sIndex) ∨ Later pattern s c
  ahead : Later pattern s c → Matches (0x2A :: pattern.drop c.patternIndex) (s.drop (c.sIndex + 1))

theorem Cursor.Faithful.retry (hc : c.Faithful pattern s)
    (hno : ¬ Matches (pattern.drop c.patternIndex) (s.drop c.sIndex)) :
    match (backtrack c).elim (.inr false) Sum.inl with
    | .inl d => d.Faithful pattern s
    | .inr result => result = true ↔ Matches pattern s := by
  have hlater : Matches pattern s ↔ Later pattern s c := hc.whole.trans (or_iff_right hno)
  cases hstar : c.star with
  | none => simp [backtrack, hstar, hlater, Later]
  | some star =>
    have hnext := matches_star (pattern.drop (star + 1)) (s.drop (c.lastStar + 1))
    simp only [backtrack, hstar]
    constructor
    · simpa [hlater, Later, hstar] using hnext
    · simp [Later]

theorem drop_of_getElem? {l : Str} {i : Nat} {x : UInt8} (h : l[i]? = some x) :
    l.drop i = x :: l.drop (i + 1) := by
  obtain ⟨hi, rfl⟩ := List.getElem?_eq_some_iff.mp h
  exact drop_eq_getElem_cons hi

theorem Cursor.Faithful.byte (hc : c.Faithful pattern s) {p b : UInt8}
    (hp : pattern[c.patternIndex]? = some p) (hs : s[c.sIndex]? = some b)
    (hne : p ≠ 0x2A) (hb : p = 0x3F ∨ p = b) :
    Cursor.Faithful pattern s
      { c with patternIndex := c.patternIndex + 1, sIndex := c.sIndex + 1 } := by
  obtain ⟨hwhole, hahead⟩ := hc
  rw [drop_of_getElem? hp] at hwhole hahead
  rw [drop_of_getElem? hs, matches_byte hne, and_iff_right hb] at hwhole
  refine ⟨hwhole, fun h => ?_⟩
  have hm := matches_star_byte hne (hahead h)
  rwa [tail_drop] at hm

theorem Cursor.Faithful.star (hc : c.Faithful pattern s)
    (hp : pattern[c.patternIndex]? = some 0x2A) :
    Cursor.Faithful pattern s
      { c with star := some c.patternIndex, lastStar := c.sIndex
               patternIndex := c.patternIndex + 1 } := by
  obtain ⟨hwhole, hahead⟩ := hc
  rw [drop_of_getElem? hp] at hwhole hahead
  have hnext := matches_star (pattern.drop (c.patternIndex + 1)) (s.drop c.sIndex)
  rw [tail_drop] at hnext
  have hold : Later pattern s c → Matches (0x2A :: pattern.drop (c.patternIndex + 1))
      (s.drop c.sIndex) := fun h => hnext.mpr (.inr (matches_star_star (hahead h)))
  rw [or_iff_left_of_imp hold, hnext] at hwhole
  constructor
  · simpa [Later] using hwhole
  · simp [Later]

theorem Cursor.Faithful.round (hc : c.Faithful pattern s) :
    match round pattern s c with
    | .inl d => d.Faithful pattern s
    | .inr result => result = true ↔ Matches pattern s := by
  fun_cases Wildcard.round pattern s c
  case case1 hs =>
    -- at the end of the text nothing is left for the last `*` to take
    have hle := List.getElem?_eq_none_iff.mp hs
    obtain ⟨hwhole, hahead⟩ := hc
    rw [drop_eq_nil_of_le (Nat.le_succ_of_le hle)] at hahead
    rw [drop_eq_nil_of_le hle] at hwhole
    have hend : Later pattern s c → Matches (pattern.drop c.patternIndex) [] := by
      intro h
      obtain ⟨u, hu, hm⟩ := hahead h
      rwa [suffix_nil.mp hu] at hm
    exact (checkPattern_iff _).trans (hwhole.trans (or_iff_left_of_imp hend)).symm
  case case2 b hs retry hp =>
    refine hc.retry ?_
    rw [drop_eq_nil_of_le (List.getElem?_eq_none_iff.mp hp), drop_of_getElem? hs]
    exact cons_ne_nil _ _
  case case3 b hs hp => exact hc.byte hp hs (by decide) (.inl rfl)
  case case4 b hs hp _ => exact hc.star hp
  case case5 b hs retry p hp hone hne hb =>
    refine hc.retry ?_
    rw [drop_of_getElem? hp, drop_of_getElem? hs, matches_byte hne]
    exact fun h => h.1.elim hone hb
  case case6 b hs p hp hone hne hb => exact hc.byte hp hs hne (.inr (not_not.mp hb))

theorem matchLoop_spec {fuel : Nat} (hc : c.Faithful pattern s) {result : Bool}
    (h : matchLoop pattern s fuel c = some result) : result = true ↔ Matches pattern s := by
  induction fuel generalizing c with
  | zero => cases h
  | succ fuel ih =>
    have hround := hc.round
    unfold matchLoop at h
    cases hr : Wildcard.round pattern s c with
    | inl d =>
      rw [hr] at h hround
      exact ih hround h
    | inr r =>
      rw [hr] at h hround
      cases h
      exact hround

theorem wildcardMatch_iff_matches (pattern s : Str) :
    (matchLoop pattern s ((s.length + 1) * (pattern.length + 1)) .start).isSome ∧
      (wildcardMatch pattern s = true ↔ Matches pattern s) := by
  refine ⟨matchLoop_isSome pattern s le_rfl (start_measure pattern s), ?_⟩
  unfold wildcardMatch
  split_ifs with hempty hshort
  · simp [hempty, Matches]
  · refine iff_of_true rfl ?_
    rcases hshort with rfl | rfl
    · exact ⟨[], nil_suffix, rfl⟩
    · exact matches_self _
  · have hstart : Cursor.start.Faithful pattern s :=
      ⟨by simp [Later, Cursor.start], by simp [Later, Cursor.start]⟩
    exact matchLoop_spec hstart (some_get _).symm

end Mihomo.Wildcard
