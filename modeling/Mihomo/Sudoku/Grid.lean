import Mathlib.Data.List.Perm.Basic
import Mathlib.Data.List.Nodup
import Mathlib.Tactic.Common

/-!
# The 4x4 grids (transport/sudoku/obfs/sudoku/grid.go)

`backtrack` fills a grid cell by cell. A relabelling of the digits maps its results to each other,
so that it is enough to look at the twelve grids with the first row 1, 2, 3, 4. Every grid is the
only one with its digits in four of its cells.
-/

namespace Mihomo.Sudoku
open List Nat

abbrev Grid := List Nat

def Grid.cell (g : Grid) (i : Nat) : Nat := g.getD i 0

def valid (g : Grid) (num : Nat) : Bool :=
  let row := g.length / 4
  let col := g.length % 4
  let br := row / 2 * 2
  let bc := col / 2 * 2
  ((range 4).all fun i => g.cell (row * 4 + i) != num && g.cell (i * 4 + col) != num) &&
    (range 2).all fun r => (range 2).all fun c => g.cell ((br + r) * 4 + (bc + c)) != num

def backtrack : Nat → Grid → List Grid
  | 0, g => [g]
  | n + 1, g => [1, 2, 3, 4].flatMap fun num => if valid g num then backtrack n (g ++ [num]) else []

def generateAllGrids : List Grid := backtrack 16 []

/-! ### The shape of the results -/

theorem mem_backtrack_succ {n : Nat} {g h : Grid} : h ∈ backtrack (n + 1) g ↔
    ∃ num ∈ [1, 2, 3, 4], valid g num = true ∧ h ∈ backtrack n (g ++ [num]) := by
  rw [backtrack, mem_flatMap]
  refine exists_congr fun num => and_congr_right fun _ => ?_
  split_ifs with hvalid
  · rw [hvalid]
    exact (and_iff_right rfl).symm
  · exact iff_of_false not_mem_nil fun h => hvalid h.1

theorem eq_append_of_mem_backtrack {n : Nat} {g h : Grid} (hmem : h ∈ backtrack n g) :
    ∃ rest, h = g ++ rest ∧ rest.length = n ∧ ∀ v ∈ rest, v ∈ [1, 2, 3, 4] := by
  induction n generalizing g with
  | zero =>
    refine ⟨[], ?_, rfl, nofun⟩
    rw [append_nil]
    exact mem_singleton.mp hmem
  | succ n ih =>
    obtain ⟨num, hnum, -, hrest⟩ := mem_backtrack_succ.mp hmem
    obtain ⟨rest, rfl, hlength, hdigits⟩ := ih hrest
    refine ⟨num :: rest, ?_, ?_, ?_⟩
    · rw [append_assoc]
      rfl
    · rw [length_cons, hlength]
    · exact forall_mem_cons.mpr ⟨hnum, hdigits⟩

theorem backtrack_nodup (n : Nat) (g : Grid) : (backtrack n g).Nodup := by
  induction n generalizing g with
  | zero => exact nodup_singleton g
  | succ n ih =>
    rw [backtrack, nodup_flatMap]
    refine ⟨fun num _ => ?_, ?_⟩
    · split_ifs
      · exact ih _
      · exact nodup_nil
    · refine .imp_of_mem (R := (· ≠ ·)) ?_ (by decide)
      intro a b _ _ hne h ha hb
      -- the two branches differ in the next cell
      have hcell : ∀ num, h ∈ (if valid g num then backtrack n (g ++ [num]) else []) →
          h[g.length]? = some num := by
        intro num hmem
        split_ifs at hmem
        · obtain ⟨rest, rfl, -, -⟩ := eq_append_of_mem_backtrack hmem
          rw [append_assoc, getElem?_append_right (Nat.le_refl _), Nat.sub_self]
          rfl
        · cases hmem
      exact hne (Option.some.inj ((hcell a ha).symm.trans (hcell b hb)))

theorem backtrack_add (m n : Nat) (g : Grid) :
    backtrack (m + n) g = (backtrack m g).flatMap (backtrack n) := by
  induction m generalizing g with
  | zero => rw [Nat.zero_add, backtrack, flatMap_singleton]
  | succ m ih =>
    rw [succ_add, backtrack, backtrack, flatMap_assoc]
    congr 1
    funext num
    split_ifs
    · exact ih _
    · rfl

/-! ### Relabelling the digits -/

structure Relabels (f : Nat → Nat) : Prop where
  zero : f 0 = 0
  digits : ([1, 2, 3, 4].map f).Perm [1, 2, 3, 4]
  inj : ∀ v ≤ 4, ∀ w ≤ 4, f v = f w → v = w

variable {f : Nat → Nat} {g : Grid} {n : Nat}

theorem cell_map (hf : Relabels f) (g : Grid) (i : Nat) : Grid.cell (g.map f) i = f (g.cell i) := by
  rw [Grid.cell, Grid.cell, getD_eq_getElem?_getD, getD_eq_getElem?_getD, getElem?_map]
  cases g[i]? with
  | none => exact hf.zero.symm
  | some v => rfl

theorem cell_le (hg : ∀ v ∈ g, v ≤ 4) (i : Nat) : g.cell i ≤ 4 := by
  rw [Grid.cell, getD_eq_getElem?_getD]
  cases hi : g[i]? with
  | none => exact zero_le 4
  | some v => exact hg v (mem_of_getElem? hi)

theorem valid_map (hf : Relabels f) (hg : ∀ v ∈ g, v ≤ 4) {num : Nat} (hnum : num ≤ 4) :
    valid (g.map f) (f num) = valid g num := by
  have hcell : ∀ i, (Grid.cell (g.map f) i != f num) = (g.cell i != num) := by
    intro i
    rw [cell_map hf, Bool.eq_iff_iff, bne_iff_ne, bne_iff_ne, not_iff_not]
    exact ⟨hf.inj _ (cell_le hg i) _ hnum, congrArg f⟩
  simp [valid, hcell]

theorem backtrack_map (hf : Relabels f) (hg : ∀ v ∈ g, v ≤ 4) :
    ((backtrack n g).map (map f)).Perm (backtrack n (g.map f)) := by
  induction n generalizing g with
  | zero => exact .refl _
  | succ n ih =>
    rw [backtrack, map_flatMap]
    refine .trans ?_ (hf.digits.flatMap_right _)
    rw [flatMap_map]
    refine .flatMap_left _ fun num hnum => ?_
    have hle : num ≤ 4 := (by decide : ∀ v ∈ [1, 2, 3, 4], v ≤ 4) num hnum
    rw [valid_map hf hg hle]
    split_ifs
    · have hrest := ih (forall_mem_append.mpr ⟨hg, forall_mem_singleton.mpr hle⟩)
      rw [map_append] at hrest
      exact hrest
    · exact .refl _

theorem map_mem_generateAllGrids (hf : Relabels f) (h : g ∈ generateAllGrids) :
    g.map f ∈ generateAllGrids :=
  (backtrack_map hf (g := []) nofun).subset
    (mem_map_of_mem h)

def relabel (row : List Nat) (v : Nat) : Nat := (0 :: row).getD v 0

theorem relabel_rows : ∀ row ∈ backtrack 4 [],
    (relabel row 0 = 0 ∧ ([1, 2, 3, 4].map (relabel row)).Perm [1, 2, 3, 4] ∧
      (∀ v ∈ range 5, ∀ w ∈ range 5, relabel row v = relabel row w → v = w)) ∧
    [1, 2, 3, 4].map (relabel row) = row ∧
    ∃ inv ∈ backtrack 4 [], ∀ v ∈ range 5, relabel inv (relabel row v) = v := by
  decide +kernel

theorem relabels_of_mem {row : Grid} (h : row ∈ backtrack 4 []) : Relabels (relabel row) := by
  obtain ⟨⟨hzero, hdigits, hinj⟩, -⟩ := relabel_rows row h
  refine ⟨hzero, hdigits, fun v hv w hw => ?_⟩
  exact hinj v (mem_range.mpr (lt_succ_of_le hv)) w (mem_range.mpr (lt_succ_of_le hw))

/-! ### The grids with the first row 1, 2, 3, 4 -/

def canonical : List Grid :=
  [[1, 2, 3, 4, 3, 4, 1, 2, 2, 1, 4, 3, 4, 3, 2, 1],
    [1, 2, 3, 4, 3, 4, 1, 2, 2, 3, 4, 1, 4, 1, 2, 3],
    [1, 2, 3, 4, 3, 4, 1, 2, 4, 1, 2, 3, 2, 3, 4, 1],
    [1, 2, 3, 4, 3, 4, 1, 2, 4, 3, 2, 1, 2, 1, 4, 3],
    [1, 2, 3, 4, 3, 4, 2, 1, 2, 1, 4, 3, 4, 3, 1, 2],
    [1, 2, 3, 4, 3, 4, 2, 1, 4, 3, 1, 2, 2, 1, 4, 3],
    [1, 2, 3, 4, 4, 3, 1, 2, 2, 1, 4, 3, 3, 4, 2, 1],
    [1, 2, 3, 4, 4, 3, 1, 2, 3, 4, 2, 1, 2, 1, 4, 3],
    [1, 2, 3, 4, 4, 3, 2, 1, 2, 1, 4, 3, 3, 4, 1, 2],
    [1, 2, 3, 4, 4, 3, 2, 1, 2, 4, 1, 3, 3, 1, 4, 2],
    [1, 2, 3, 4, 4, 3, 2, 1, 3, 1, 4, 2, 2, 4, 1, 3],
    [1, 2, 3, 4, 4, 3, 2, 1, 3, 4, 1, 2, 2, 1, 4, 3]]

theorem backtrack_canonical : backtrack 12 [1, 2, 3, 4] = canonical := by
  decide +kernel

theorem backtrack_row {row : Grid} (h : row ∈ backtrack 4 []) :
    (canonical.map (map (relabel row))).Perm (backtrack 12 row) := by
  have hmap := backtrack_map (n := 12) (relabels_of_mem h) (g := [1, 2, 3, 4]) (by decide)
  rwa [backtrack_canonical, (relabel_rows row h).2.1] at hmap

theorem generateAllGrids_eq : generateAllGrids = (backtrack 4 []).flatMap (backtrack 12) :=
  backtrack_add 4 12 []

theorem mem_generateAllGrids {g : Grid} : g ∈ generateAllGrids ↔
    ∃ row ∈ backtrack 4 [], ∃ d ∈ canonical, d.map (relabel row) = g := by
  rw [generateAllGrids_eq, mem_flatMap]
  refine exists_congr fun row => and_congr_right fun hrow => ?_
  rw [← (backtrack_row hrow).mem_iff, mem_map]

theorem length_generateAllGrids : generateAllGrids.length = 288 := by
  have hrow : ∀ row ∈ backtrack 4 [], (backtrack 12 row).length = 12 := fun row h =>
    (backtrack_row h).length_eq.symm.trans (length_map _)
  rw [generateAllGrids_eq, length_flatMap, map_congr_left hrow]
  decide

/-! ### Four cells that determine a grid -/

def Determines (g : Grid) (positions : List Nat) : Prop :=
  ∀ h ∈ generateAllGrids, (∀ p ∈ positions, h.cell p = g.cell p) → h = g

theorem canonical_determined : ∀ c ∈ canonical,
    ∃ positions ∈ [[0, 2, 9, 11], [0, 3, 13, 14], [0, 2, 13, 15], [0, 3, 9, 10]],
      ∀ row ∈ backtrack 4 [], ∀ d ∈ canonical,
        (∀ p ∈ positions, Grid.cell (d.map (relabel row)) p = c.cell p) → d.map (relabel row) = c := by
  decide +kernel

theorem map_map_cancel {f' : Nat → Nat} (hcancel : ∀ v ∈ range 5, f' (f v) = v)
    (hg : ∀ v ∈ g, v ≤ 4) : (g.map f).map f' = g := by
  rw [map_map]
  refine (map_congr_left fun v hv => ?_).trans (map_id g)
  exact hcancel v (mem_range.mpr (lt_succ_of_le (hg v hv)))

theorem digits_of_mem (h : g ∈ generateAllGrids) : g.length = 16 ∧ ∀ v ∈ g, v ∈ [1, 2, 3, 4] := by
  obtain ⟨rest, rfl, hlength, hdigits⟩ := eq_append_of_mem_backtrack h
  exact ⟨hlength, hdigits⟩

theorem le_of_mem (h : g ∈ generateAllGrids) : ∀ v ∈ g, v ≤ 4 := fun v hv =>
  (by decide : ∀ v ∈ [1, 2, 3, 4], v ≤ 4) v ((digits_of_mem h).2 v hv)

theorem exists_determines (h : g ∈ generateAllGrids) :
    ∃ positions ∈ [[0, 2, 9, 11], [0, 3, 13, 14], [0, 2, 13, 15], [0, 3, 9, 10]],
      Determines g positions := by
  obtain ⟨row, hrow, c, hc, rfl⟩ := mem_generateAllGrids.mp h
  obtain ⟨positions, hmem, hunique⟩ := canonical_determined c hc
  obtain ⟨-, -, inv, hinv, hcancel⟩ := relabel_rows row hrow
  obtain ⟨-, -, inv', -, hcancel'⟩ := relabel_rows inv hinv
  have hle : ∀ v ∈ c, v ≤ 4 := (by decide : ∀ c ∈ canonical, ∀ v ∈ c, v ≤ 4) c hc
  refine ⟨positions, hmem, fun other hother hagree => ?_⟩
  -- the other grid is relabelled back and compared with the one in `canonical`
  have hsame : other.map (relabel inv) = c := by
    obtain ⟨row', hrow', d, hd, heq⟩ :=
      mem_generateAllGrids.mp (map_mem_generateAllGrids (relabels_of_mem hinv) hother)
    rw [← heq]
    refine hunique row' hrow' d hd fun p hp => ?_
    rw [heq, cell_map (relabels_of_mem hinv), hagree p hp, cell_map (relabels_of_mem hrow)]
    exact hcancel _ (mem_range.mpr (lt_succ_of_le (cell_le hle p)))
  rw [← map_map_cancel hcancel' (le_of_mem hother), hsame, ← map_map_cancel hcancel' (le_of_mem h),
    map_map_cancel hcancel hle]

end Mihomo.Sudoku
