import Mathlib.Data.List.Sort

/-!
# Merging ranges of integers (common/utils/ranges.go)

`Merge` sorts a slice of ranges and writes the merged ranges to its front while it reads the others. An
integer type is given by its least and its greatest value, after which `+ 1` comes round.
-/

namespace Mihomo.Ranges
open List

variable {lo hi : Int}

/-- `Range`, with `stop` for `end`. -/
structure Range (lo hi : Int) where
  start : Int
  stop : Int
  lo_le : lo ≤ start
  le : start ≤ stop
  le_hi : stop ≤ hi
  deriving DecidableEq

def Range.Contains (r : Range lo hi) (x : Int) : Prop := r.start ≤ x ∧ x ≤ r.stop

def Range.inc (r : Range lo hi) : Int := if r.stop = hi then lo else r.stop + 1

/-- A round of the loop, on the slice and `rangeIndex`; `append` writes to the slice. -/
def round (s : List (Range lo hi) × Nat) (i : Nat) : Option (List (Range lo hi) × Nat) := do
  let r ← s.1[i]?
  let m ← s.1[s.2]?
  if m.inc > m.stop ∧ r.start > m.inc then some (s.1.set (s.2 + 1) r, s.2 + 1)
  else if h : r.stop > m.stop then
    let extended := { m with stop := r.stop, le := m.le.trans h.le, le_hi := r.le_hi }
    some (s.1.set s.2 extended, s.2)
  else some s

/-- `Merge`, with what `sort.Slice` makes of the ranges; none when an index is out of range. -/
def merge (sort : List (Range lo hi) → List (Range lo hi)) (ranges : List (Range lo hi)) :
    Option (List (Range lo hi)) :=
  if ranges = [] then some []
  else do
    let (ranges, rangeIndex) ← (range' 1 (ranges.length - 1)).foldlM round (sort ranges, 0)
    some (ranges.take (rangeIndex + 1))

def Covers (ranges : List (Range lo hi)) (x : Int) : Prop := ∃ r ∈ ranges, r.Contains x

variable {before done : List (Range lo hi)} {m r : Range lo hi} {x : Int}

theorem covers_cons : Covers (r :: done) x ↔ r.Contains x ∨ Covers done x := exists_mem_cons_iff ..

structure Merged (before done : List (Range lo hi)) (m : Range lo hi) : Prop where
  apart : (m :: done).Pairwise fun r' r => r.stop + 1 < r'.start
  covers : ∀ x, Covers (m :: done) x ↔ Covers before x

theorem Merged.append (h : Merged before done m) (hstart : m.start ≤ r.start)
    (hgap : m.stop + 1 < r.start) : Merged (r :: before) (m :: done) r where
  apart := by
    refine pairwise_cons.mpr ⟨forall_mem_cons.mpr ⟨hgap, fun q hq => ?_⟩, h.apart⟩
    exact ((pairwise_cons.mp h.apart).1 q hq).trans_le hstart
  covers x := by rw [covers_cons, h.covers, covers_cons]

theorem Merged.extend (h : Merged before done m) (hstart : m.start ≤ r.start)
    (htouch : r.start ≤ m.stop + 1) {m' : Range lo hi} (hm' : m'.start = m.start)
    (hstop : m'.stop = max m.stop r.stop) : Merged (r :: before) done m' where
  apart := by
    obtain ⟨hdone, hrest⟩ := pairwise_cons.mp h.apart
    exact pairwise_cons.mpr ⟨hm' ▸ hdone, hrest⟩
  covers x := by
    have hx : m'.Contains x ↔ r.Contains x ∨ m.Contains x := by
      have hm := m.le
      have hr := r.le
      unfold Range.Contains
      omega
    rw [covers_cons, hx, or_assoc, ← covers_cons, h.covers, covers_cons]

theorem Range.inc_iff (m r : Range lo hi) :
    m.inc > m.stop ∧ r.start > m.inc ↔ m.stop + 1 < r.start := by
  have hr := r.le.trans r.le_hi
  unfold Range.inc
  split_ifs <;> omega

/-- The merged ranges are at the front of the slice, and a round reads the next range before anything
is written there. -/
theorem Merged.round (gap rest : List (Range lo hi)) (h : Merged before done m)
    (hstart : m.start ≤ r.start) :
    ∃ done' m' gap', round (done.reverse ++ m :: (gap ++ r :: rest), done.length)
        (done.length + (gap.length + 1)) = some (done'.reverse ++ m' :: (gap' ++ rest), done'.length) ∧
      done'.length + gap'.length = done.length + (gap.length + 1) ∧
      Merged (r :: before) done' m' ∧ m'.start ≤ r.start := by
  have hr : (done.reverse ++ m :: (gap ++ r :: rest))[done.length + (gap.length + 1)]? = some r := by
    simp
  have hm : (done.reverse ++ m :: (gap ++ r :: rest))[done.length]? = some m := by simp
  simp only [Ranges.round, hr, hm, Option.bind_eq_bind, Option.bind_some, Range.inc_iff]
  split_ifs with hgap hlonger
  · obtain ⟨g, gs, hgs⟩ := exists_cons_of_ne_nil (append_ne_nil_of_right_ne_nil gap (cons_ne_nil r []))
    have hlen := congrArg length hgs
    rw [length_append, length_cons, length_nil, length_cons] at hlen
    refine ⟨m :: done, r, gs, ?_, ?_, h.append hstart hgap, le_rfl⟩
    · rw [append_cons gap, hgs]
      simp
    · rw [length_cons]
      omega
  · refine ⟨done, { m with stop := r.stop, le := m.le.trans hlonger.le, le_hi := r.le_hi }, gap ++ [r],
      by simp, by simp, h.extend hstart (Int.not_lt.mp hgap) rfl ?_, hstart⟩
    exact (max_eq_right hlonger.le).symm
  · refine ⟨done, m, gap ++ [r], by simp, by simp, h.extend hstart (Int.not_lt.mp hgap) rfl ?_, hstart⟩
    omega

theorem Merged.loop (gap rest : List (Range lo hi)) (h : Merged before done m)
    (hsorted : (m :: rest).Pairwise fun r r' => r.start ≤ r'.start) :
    ∃ done' m' gap', (range' (done.length + (gap.length + 1)) rest.length).foldlM Ranges.round
        (done.reverse ++ m :: (gap ++ rest), done.length) =
          some (done'.reverse ++ m' :: gap', done'.length) ∧
      Merged (rest.reverse ++ before) done' m' := by
  induction rest generalizing before done m gap with
  | nil => exact ⟨done, m, gap, by simp, h⟩
  | cons r rest ih =>
    obtain ⟨hstart, hrest⟩ := pairwise_cons.mp hsorted
    obtain ⟨hnext, hrest⟩ := pairwise_cons.mp hrest
    obtain ⟨done', m', gap', hround, hindex, hmerged, hm'⟩ := h.round gap rest (hstart r mem_cons_self)
    have hsorted' : (m' :: rest).Pairwise fun r r' => r.start ≤ r'.start :=
      pairwise_cons.mpr ⟨fun q hq => hm'.trans (hnext q hq), hrest⟩
    rw [length_cons, range'_succ, foldlM_cons, hround, ← hindex, reverse_cons, append_assoc]
    exact ih gap' hmerged hsorted'

/-- `Merge` returns ranges in order with gaps between them, which cover the same integers. -/
theorem merge_covers (sort : List (Range lo hi) → List (Range lo hi)) (ranges : List (Range lo hi))
    (hperm : (sort ranges).Perm ranges)
    (hsorted : (sort ranges).Pairwise fun r r' => r.start ≤ r'.start) :
    ∃ merged, merge sort ranges = some merged ∧
      (merged.Pairwise fun r r' => r.stop + 1 < r'.start) ∧
      ∀ x, Covers merged x ↔ Covers ranges x := by
  unfold merge
  split_ifs with hnil
  · exact ⟨[], rfl, .nil, by simp [hnil]⟩
  rw [← hperm.length_eq]
  cases hsort : sort ranges with
  | nil =>
    rw [hsort] at hperm
    exact absurd hperm.nil_eq.symm hnil
  | cons m rest =>
    rw [hsort] at hperm hsorted
    have hfirst : Merged [m] [] m := ⟨pairwise_singleton _ _, fun _ => Iff.rfl⟩
    obtain ⟨done, m', gap, hloop, hmerged⟩ := hfirst.loop [] rest hsorted
    refine ⟨(m' :: done).reverse, ?_, pairwise_reverse.mpr hmerged.apart, fun x => ?_⟩
    · exact (congrArg (· >>= _) hloop).trans (by simp [take_append, take_of_length_le])
    · have hx := hmerged.covers x
      simpa [Covers, ← hperm.mem_iff, or_comm] using hx

theorem merge_covers_uint16 :
    let ranges : List (Range 0 65535) := [⟨2, 65535, by decide, by decide, by decide⟩,
      ⟨1, 3, by decide, by decide, by decide⟩]
    ∃ merged, merge (insertionSort fun r r' => r.start ≤ r'.start) ranges = some merged ∧
      (merged.Pairwise fun r r' => r.stop + 1 < r'.start) ∧ ∀ x, Covers merged x ↔ Covers ranges x :=
  merge_covers _ _ (by decide) (by decide)

end Mihomo.Ranges
