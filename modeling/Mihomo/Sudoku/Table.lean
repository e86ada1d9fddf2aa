import Mihomo.Sudoku.Grid
import Mihomo.Sudoku.Layout

/-!
# Obfuscation tables (transport/sudoku/obfs/sudoku/table.go)

A byte stands for a grid, and it is encoded by four hints, digits with their cells, that no other
grid has. The decoder looks the hints up in any order, under a key that sorts them.
-/

namespace Mihomo.Sudoku
open Go List Nat UInt8
/-! ### The key of four hints -/

def compareSwap (a b : UInt8) : UInt8 × UInt8 := if a > b then (b, a) else (a, b)

/-- The sorting network of `packHintBytes`. -/
def sortHints (h0 h1 h2 h3 : UInt8) : UInt8 × UInt8 × UInt8 × UInt8 :=
  let c01 := compareSwap h0 h1
  let c23 := compareSwap h2 h3
  let c02 := compareSwap c01.1 c23.1
  let c13 := compareSwap c01.2 c23.2
  let c12 := compareSwap c13.1 c02.2
  (c02.1, c12.1, c12.2, c13.2)

def packHintBytes (h0 h1 h2 h3 : UInt8) : UInt32 :=
  let s := sortHints h0 h1 h2 h3
  s.1.toUInt32 <<< 24 ||| s.2.1.toUInt32 <<< 16 ||| s.2.2.1.toUInt32 <<< 8 ||| s.2.2.2.toUInt32

def listed (s : UInt8 × UInt8 × UInt8 × UInt8) : List UInt8 := [s.1, s.2.1, s.2.2.1, s.2.2.2]

theorem toNat_compareSwap (a b : UInt8) : (compareSwap a b).1.toNat = min a.toNat b.toNat ∧
    (compareSwap a b).2.toNat = max a.toNat b.toNat := by
  unfold compareSwap
  split
  next h =>
    have := lt_iff_toNat_lt.mp h
    exact ⟨(min_eq_right this.le).symm, (max_eq_left this.le).symm⟩
  next h =>
    have := le_iff_toNat_le.mp (not_lt.mp h)
    exact ⟨(min_eq_left this).symm, (max_eq_right this).symm⟩

theorem count_compareSwap (a b x : UInt8) :
    [(compareSwap a b).1, (compareSwap a b).2].count x = [a, b].count x := by
  unfold compareSwap
  split
  · exact (List.Perm.swap a b []).count_eq x
  · rfl

theorem sortHints_sorted (h0 h1 h2 h3 : UInt8) :
    (listed (sortHints h0 h1 h2 h3)).Pairwise (· ≤ ·) := by
  have c01 := toNat_compareSwap h0 h1
  have c23 := toNat_compareSwap h2 h3
  have c02 := toNat_compareSwap (compareSwap h0 h1).1 (compareSwap h2 h3).1
  have c13 := toNat_compareSwap (compareSwap h0 h1).2 (compareSwap h2 h3).2
  have c12 := toNat_compareSwap
    (compareSwap (compareSwap h0 h1).2 (compareSwap h2 h3).2).1
    (compareSwap (compareSwap h0 h1).1 (compareSwap h2 h3).1).2
  simp only [listed, sortHints, pairwise_cons, mem_cons, not_mem_nil, forall_eq_or_imp, le_iff_toNat_le, false_implies, implies_true,
    List.Pairwise.nil, and_true]
  omega

theorem sortHints_perm (h0 h1 h2 h3 : UInt8) :
    (listed (sortHints h0 h1 h2 h3)).Perm [h0, h1, h2, h3] := by
  apply perm_iff_count.mpr
  intro x
  have c01 := count_compareSwap h0 h1 x
  have c23 := count_compareSwap h2 h3 x
  have c02 := count_compareSwap (compareSwap h0 h1).1 (compareSwap h2 h3).1 x
  have c13 := count_compareSwap (compareSwap h0 h1).2 (compareSwap h2 h3).2 x
  have c12 := count_compareSwap
    (compareSwap (compareSwap h0 h1).2 (compareSwap h2 h3).2).1
    (compareSwap (compareSwap h0 h1).1 (compareSwap h2 h3).1).2 x
  simp only [count_cons, listed, sortHints] at c01 c23 c02 c13 c12 ⊢
  omega

theorem toNat_pack (a b c d : UInt8) :
    (a.toUInt32 <<< 24 ||| b.toUInt32 <<< 16 ||| c.toUInt32 <<< 8 ||| d.toUInt32).toNat =
      ((a.toNat * 256 + b.toNat) * 256 + c.toNat) * 256 + d.toNat := by
  have hb := b.toNat_lt
  have hc := c.toNat_lt
  have hd := d.toNat_lt
  have hshift : ∀ (w : UInt8) (k : Nat), k ≤ 24 → w.toNat <<< k % 2 ^ 32 = w.toNat <<< k := by
    intro w k hk
    have hw := w.toNat_lt
    rw [shiftLeft_eq]
    apply mod_eq_of_lt
    calc w.toNat * 2 ^ k < 2 ^ 8 * 2 ^ k := Nat.mul_lt_mul_of_pos_right hw (Nat.two_pow_pos k)
      _ ≤ 2 ^ 8 * 2 ^ 24 := Nat.mul_le_mul_left _ (Nat.pow_le_pow_right (by omega) hk)
  have hlow : c.toNat <<< 8 ||| d.toNat = c.toNat * 256 + d.toNat := by
    rw [← shiftLeft_add_eq_or_of_lt hd, shiftLeft_eq]
  have hmid : b.toNat <<< 16 ||| (c.toNat * 256 + d.toNat) =
      b.toNat * 65536 + (c.toNat * 256 + d.toNat) := by
    rw [← shiftLeft_add_eq_or_of_lt (by omega), shiftLeft_eq]
  have hhigh : a.toNat <<< 24 ||| (b.toNat * 65536 + (c.toNat * 256 + d.toNat)) =
      a.toNat * 16777216 + (b.toNat * 65536 + (c.toNat * 256 + d.toNat)) := by
    rw [← shiftLeft_add_eq_or_of_lt (by omega), shiftLeft_eq]
  change a.toNat <<< 24 % 2 ^ 32 ||| b.toNat <<< 16 % 2 ^ 32 ||| c.toNat <<< 8 % 2 ^ 32 |||
    d.toNat = _
  rw [hshift a 24 (by omega), hshift b 16 (by omega), hshift c 8 (by omega), Nat.or_assoc,
    Nat.or_assoc, hlow, hmid, hhigh]
  omega

variable {b : UInt8} {positions : List Nat} {g : Grid} {hints : Fin 4 → UInt8} {l : ByteLayout}
  {a : UInt8} {c : List Nat} {k s p : Nat} {g' : Grid} {others : Fin 4 → UInt8}

theorem pack_inj {c d a' b' c' d' : UInt8}
    (h : ((a.toNat * 256 + b.toNat) * 256 + c.toNat) * 256 + d.toNat =
      ((a'.toNat * 256 + b'.toNat) * 256 + c'.toNat) * 256 + d'.toNat) :
    a = a' ∧ b = b' ∧ c = c' ∧ d = d' := by
  have hb := b.toNat_lt
  have hc := c.toNat_lt
  have hd := d.toNat_lt
  have hb' := b'.toNat_lt
  have hc' := c'.toNat_lt
  have hd' := d'.toNat_lt
  simp only [← UInt8.toNat_inj]
  omega

theorem packHintBytes_eq_iff {h0 h1 h2 h3 k0 k1 k2 k3 : UInt8} :
    packHintBytes h0 h1 h2 h3 = packHintBytes k0 k1 k2 k3 ↔
      [h0, h1, h2, h3].Perm [k0, k1, k2, k3] := by
  have hs := sortHints_perm h0 h1 h2 h3
  have ks := sortHints_perm k0 k1 k2 k3
  constructor
  · intro heq
    have hnat := congrArg UInt32.toNat heq
    simp only [packHintBytes, toNat_pack] at hnat
    obtain ⟨e0, e1, e2, e3⟩ := pack_inj hnat
    have hlist : listed (sortHints h0 h1 h2 h3) = listed (sortHints k0 k1 k2 k3) := by
      simp [listed, e0, e1, e2, e3]
    rw [hlist] at hs
    exact hs.symm.trans ks
  · intro hperm
    have hsorted := sortHints_sorted h0 h1 h2 h3
    have ksorted := sortHints_sorted k0 k1 k2 k3
    have hlist := ((hs.trans hperm).trans ks.symm).eq_of_pairwise
      (fun a b _ _ => le_antisymm) hsorted ksorted
    simp only [listed, List.cons.injEq] at hlist
    obtain ⟨e0, e1, e2, e3⟩ := hlist
    simp [packHintBytes, e0, e1, e2, e3]

/-! ### The grids of the bytes -/

/-- `rng.Shuffle`; `draw i` is the index below `i + 1` that the generator gives for `i`. -/
def shuffleFrom (draw : (i : Nat) → Fin (i + 1)) : Nat → Array Grid → Array Grid
  | 0, gs => gs
  | i + 1, gs => shuffleFrom draw i (gs.swapIfInBounds (i + 1) (draw (i + 1)))

def shuffle (draw : (i : Nat) → Fin (i + 1)) (gs : Array Grid) : Array Grid :=
  shuffleFrom draw (gs.size - 1) gs

theorem shuffleFrom_perm (draw : (i : Nat) → Fin (i + 1)) (n : Nat) (gs : Array Grid) :
    (shuffleFrom draw n gs).Perm gs := by
  induction n generalizing gs with
  | zero => exact .refl gs
  | succ i ih =>
    apply (ih _).trans
    unfold Array.swapIfInBounds
    split
    · split
      · exact Array.swap_perm ..
      · exact .refl gs
    · exact .refl gs

def targetGrid (draw : (i : Nat) → Fin (i + 1)) (b : UInt8) : Grid :=
  (shuffle draw generateAllGrids.toArray).getD b.toNat []

section
variable (draw : (i : Nat) → Fin (i + 1))
include draw

-- for any list: at `generateAllGrids` the kernel would run `backtrack`
theorem shuffle_perm (gs : List Grid) : (shuffle draw gs.toArray).toList.Perm gs :=
  Array.perm_iff_toList_perm.mp (shuffleFrom_perm draw _ _)

theorem getElem?_shuffle {gs : List Grid} {i : Nat} (hi : i < gs.length) :
    (shuffle draw gs.toArray).toList[i]? = some ((shuffle draw gs.toArray).getD i []) := by
  rw [← (shuffle_perm draw gs).length_eq, Array.length_toList] at hi
  simp [hi]

theorem targetGrid_eq (b : UInt8) :
    (shuffle draw generateAllGrids.toArray).toList[b.toNat]? = some (targetGrid draw b) := by
  have hb := b.toNat_lt
  exact getElem?_shuffle draw (by rw [length_generateAllGrids]; omega)

theorem targetGrid_mem (b : UInt8) : targetGrid draw b ∈ generateAllGrids :=
  (shuffle_perm draw _).mem_iff.mp (mem_of_getElem? (targetGrid_eq draw b))

end

theorem targetGrid_inj {draw : (i : Nat) → Fin (i + 1)}
    (h : targetGrid draw a = targetGrid draw b) : a = b := by
  have hnodup : (shuffle draw generateAllGrids.toArray).toList.Nodup :=
    (shuffle_perm draw _).nodup_iff.mpr (backtrack_nodup 16 [])
  obtain ⟨hlt, -⟩ := List.getElem?_eq_some_iff.mp (targetGrid_eq draw a)
  apply UInt8.toNat_inj.mp
  apply (getElem?_inj hlt hnodup).mp
  rw [targetGrid_eq, targetGrid_eq, h]

/-! ### The sets of four cells -/

/-- `combine s k c`: the sets of `k` more cells from `s` on. -/
def combine : Nat → Nat → List Nat → List (List Nat)
  | 0, _, c => [c]
  | k + 1, s, c => (List.range' s (16 - k - s)).flatMap fun i => combine k (i + 1) (c ++ [i])

def combinations : List (List Nat) := combine 4 0 []

theorem mem_combine_succ :
    positions ∈ combine (k + 1) s c ↔
      ∃ i, s ≤ i ∧ i < 16 - k ∧ positions ∈ combine k (i + 1) (c ++ [i]) := by
  rw [combine, mem_flatMap]
  refine exists_congr fun i => ?_
  rw [mem_range'_1, and_assoc]
  exact and_congr_right fun hs => and_congr_left fun _ => by omega

theorem eq_append_of_mem_combine (h : positions ∈ combine k s c) :
    ∃ rest, positions = c ++ rest ∧ rest.length = k ∧ rest.Pairwise (· < ·) ∧
      ∀ p ∈ rest, s ≤ p ∧ p < 16 := by
  induction k generalizing s c with
  | zero =>
    refine ⟨[], ?_, rfl, .nil, nofun⟩
    rw [append_nil]
    exact mem_singleton.mp h
  | succ k ih =>
    obtain ⟨i, hsi, hi, hrest⟩ := mem_combine_succ.mp h
    obtain ⟨rest, rfl, hlength, hsorted, hbounds⟩ := ih hrest
    refine ⟨i :: rest, ?_, ?_, ?_, ?_⟩
    · rw [append_assoc, singleton_append]
    · rw [length_cons, hlength]
    · exact pairwise_cons.mpr ⟨fun p hp => (hbounds p hp).1, hsorted⟩
    · intro p hp
      rcases mem_cons.mp hp with rfl | hp
      · exact ⟨hsi, by omega⟩
      · exact ⟨by have := (hbounds p hp).1; omega, (hbounds p hp).2⟩

theorem mem_combinations {a b c d : Nat} (hab : a < b) (hbc : b < c) (hcd : c < d) (hd : d < 16) :
    [a, b, c, d] ∈ combinations := by
  refine mem_combine_succ.mpr ⟨a, by omega, by omega, ?_⟩
  refine mem_combine_succ.mpr ⟨b, by omega, by omega, ?_⟩
  refine mem_combine_succ.mpr ⟨c, by omega, by omega, ?_⟩
  refine mem_combine_succ.mpr ⟨d, by omega, by omega, ?_⟩
  exact mem_singleton.mpr rfl

/-! ### The table -/

def matchCount (g : Grid) (positions : List Nat) : Nat :=
  (generateAllGrids.filter fun h => positions.all fun p => h.cell p == g.cell p).length

theorem matchCount_eq_one_iff (hg : g ∈ generateAllGrids) :
    matchCount g positions = 1 ↔ Determines g positions := by
  let agreeing := generateAllGrids.filter fun h => positions.all fun p => h.cell p == g.cell p
  have hmem : ∀ h, h ∈ agreeing ↔ h ∈ generateAllGrids ∧ ∀ p ∈ positions, h.cell p = g.cell p := by
    intro h
    rw [mem_filter]
    simp
  have hself : g ∈ agreeing := (hmem g).mpr ⟨hg, fun _ _ => rfl⟩
  constructor
  · intro hcount h hh hagree
    obtain ⟨x, hx⟩ := length_eq_one_iff.mp (show agreeing.length = 1 from hcount)
    rw [hx, mem_singleton] at hself
    have hhx := (hmem h).mpr ⟨hh, hagree⟩
    rw [hx, mem_singleton] at hhx
    rw [hhx, hself]
  · intro hdetermines
    have hall : ∀ h ∈ agreeing, h = g := by
      intro h hh
      obtain ⟨hgrid, hagree⟩ := (hmem h).mp hh
      exact hdetermines h hgrid hagree
    have hrep := eq_replicate_of_mem hall
    have hnodup : agreeing.Nodup := (backtrack_nodup 16 []).filter _
    rw [hrep, nodup_replicate] at hnodup
    have hpos := length_pos_of_mem hself
    exact le_antisymm hnodup hpos

def currentHints (l : ByteLayout) (g : Grid) (positions : List Nat) : Fin 4 → UInt8 := fun i =>
  l.hintByte (g.cell (positions.getD i 0) - 1) (positions.getD i 0)

def puzzles (l : ByteLayout) (g : Grid) : List (Fin 4 → UInt8) :=
  combinations.filterMap fun positions =>
    if matchCount g positions = 1 then some (currentHints l g positions) else none

def packHintsToKey (hints : Fin 4 → UInt8) : UInt32 :=
  packHintBytes (hints 0) (hints 1) (hints 2) (hints 3)

structure Table where
  encodeTable : UInt8 → List (Fin 4 → UInt8)
  decodeMap : UInt32 → Option UInt8
  paddingPool : List UInt8
  layout : ByteLayout

def decodeEntries (encodeTable : UInt8 → List (Fin 4 → UInt8)) : List (UInt32 × UInt8) :=
  (List.range 256).flatMap fun byteVal =>
    (encodeTable (ofNat byteVal)).map fun hints =>
      (packHintsToKey hints, ofNat byteVal)

def storeEntries (entries : List (UInt32 × UInt8)) : UInt32 → Option UInt8 :=
  entries.foldl (fun m e => Function.update m e.1 (some e.2)) fun _ => none

/-- `draw key` are the choices of the generator that is seeded with the hash of the key. -/
def newSingleDirectionTable (draw : Str → (i : Nat) → Fin (i + 1)) (key mode customPattern : Str) :
    Except LayoutError Table :=
  match resolveLayout mode customPattern with
  | .error e => .error e
  | .ok layout =>
    let encodeTable := fun b => puzzles layout (targetGrid (draw key) b)
    .ok { encodeTable, decodeMap := storeEntries (decodeEntries encodeTable),
          paddingPool := layout.paddingPool, layout }

structure Table.Sound (t : Table) : Prop where
  layout : t.layout.Sound
  paddingPool : t.paddingPool = t.layout.paddingPool
  encodable : ∀ b, t.encodeTable b ≠ []
  hint : ∀ b, ∀ hints ∈ t.encodeTable b, ∀ i, t.layout.hintTable (hints i) = true
  decode : ∀ b, ∀ hints ∈ t.encodeTable b, t.decodeMap (packHintsToKey hints) = some b
  unique : ∀ a b, ∀ hints ∈ t.encodeTable a, ∀ others ∈ t.encodeTable b,
    Set.range hints = Set.range others → a = b

theorem mem_puzzles (hg : g ∈ generateAllGrids) : hints ∈ puzzles l g ↔
      ∃ positions ∈ combinations, Determines g positions ∧ currentHints l g positions = hints := by
  rw [puzzles, mem_filterMap]
  refine exists_congr fun positions => and_congr_right fun _ => ?_
  rw [← matchCount_eq_one_iff hg]
  split_ifs with hcount
  · rw [Option.some_inj]
    exact (and_iff_right hcount).symm
  · exact iff_of_false not_false fun h => hcount h.1

theorem puzzles_ne_nil (hg : g ∈ generateAllGrids) : puzzles l g ≠ [] := by
  obtain ⟨positions, hpositions, hdetermines⟩ := exists_determines hg
  have hcombination : positions ∈ combinations := by
    simp only [mem_cons, not_mem_nil, or_false] at hpositions
    rcases hpositions with rfl | rfl | rfl | rfl <;>
      exact mem_combinations (by omega) (by omega) (by omega) (by omega)
  exact ne_nil_of_mem ((mem_puzzles hg).mpr ⟨positions, hcombination, hdetermines, rfl⟩)

theorem cell_digit (hg : g ∈ generateAllGrids) (hp : p < 16) : 1 ≤ g.cell p ∧ g.cell p ≤ 4 := by
  obtain ⟨hlength, hdigits⟩ := digits_of_mem hg
  have hmem : g.cell p ∈ g := by
    rw [Grid.cell, getD_eq_getElem g 0 (by omega)]
    exact getElem_mem _
  exact (by decide : ∀ v ∈ [1, 2, 3, 4], 1 ≤ v ∧ v ≤ 4) _ (hdigits _ hmem)

theorem hintByte_inj (hl : l.Sound) (hg : g ∈ generateAllGrids)
    (hg' : g' ∈ generateAllGrids) {p' : Nat} (hp : p < 16) (hp' : p' < 16)
    (h : l.hintByte (g.cell p - 1) p = l.hintByte (g'.cell p' - 1) p') :
    p = p' ∧ g.cell p = g'.cell p' := by
  have hdecode := congrArg l.decodeGroup h
  rw [ByteLayout.hintByte, ByteLayout.hintByte, hl.decode_hint, hl.decode_hint] at hdecode
  have hnat := congrArg toNat hdecode
  simp only [Fin.val_ofNat, toNat_ofNat'] at hnat
  have hv := cell_digit hg hp
  have hv' := cell_digit hg' hp'
  omega

theorem mem_range_currentHints
    (hlength : positions.length = 4) : b ∈ Set.range (currentHints l g positions) ↔
      ∃ p ∈ positions, l.hintByte (g.cell p - 1) p = b := by
  constructor
  · rintro ⟨i, rfl⟩
    have hi : i.val < positions.length := by omega
    refine ⟨positions.getD i 0, ?_, rfl⟩
    rw [getD_eq_getElem positions 0 hi]
    exact getElem_mem hi
  · rintro ⟨p, hp, rfl⟩
    obtain ⟨i, hi, rfl⟩ := getElem_of_mem hp
    refine ⟨⟨i, by omega⟩, ?_⟩
    rw [currentHints, getD_eq_getElem positions 0 hi]

theorem of_mem_combinations (h : positions ∈ combinations) :
    positions.length = 4 ∧ ∀ p ∈ positions, p < 16 := by
  obtain ⟨rest, rfl, hlength, -, hbounds⟩ := eq_append_of_mem_combine h
  exact ⟨hlength, fun p hp => (hbounds p hp).2⟩

theorem eq_of_range_eq (hl : l.Sound) (hg : g ∈ generateAllGrids)
    (hg' : g' ∈ generateAllGrids) (hh : hints ∈ puzzles l g)
    (ho : others ∈ puzzles l g') (h : Set.range hints = Set.range others) : g' = g := by
  obtain ⟨ps, hps, hdetermines, rfl⟩ := (mem_puzzles hg).mp hh
  obtain ⟨ps', hps', -, rfl⟩ := (mem_puzzles hg').mp ho
  obtain ⟨hlength, hbounds⟩ := of_mem_combinations hps
  obtain ⟨hlength', hbounds'⟩ := of_mem_combinations hps'
  apply hdetermines g' hg'
  intro p hp
  have hrange := (mem_range_currentHints (l := l) (g := g) hlength).mpr ⟨p, hp, rfl⟩
  rw [h] at hrange
  obtain ⟨p', hp', heq⟩ := (mem_range_currentHints hlength').mp hrange
  obtain ⟨rfl, hcell⟩ := hintByte_inj hl hg' hg (hbounds' p' hp') (hbounds p hp) heq
  exact hcell

theorem storeEntries_eq {entries : List (UInt32 × UInt8)} {k : UInt32} {v : UInt8}
    (hmem : (k, v) ∈ entries) (hagree : ∀ w, (k, w) ∈ entries → w = v) :
    storeEntries entries k = some v := by
  -- from the end: the last entry of the key decides
  induction entries using reverseRecOn with
  | nil => cases hmem
  | append_singleton entries e ih =>
    obtain ⟨k', w⟩ := e
    rw [storeEntries, foldl_append, foldl_cons, foldl_nil]
    by_cases hk : k = k'
    · obtain rfl := hk
      rw [Function.update_self, hagree w (mem_append_right _ (mem_singleton.mpr rfl))]
    · rw [Function.update_of_ne hk]
      have hne : (k, v) ∉ [(k', w)] := by
        intro h
        exact hk (congrArg Prod.fst (mem_singleton.mp h))
      apply ih ((mem_append.mp hmem).resolve_right hne)
      intro w' hw'
      exact hagree w' (mem_append_left _ hw')

theorem mem_decodeEntries {encodeTable : UInt8 → List (Fin 4 → UInt8)} {k : UInt32} :
    (k, b) ∈ decodeEntries encodeTable ↔ ∃ hints ∈ encodeTable b, packHintsToKey hints = k := by
  rw [decodeEntries, mem_flatMap]
  constructor
  · rintro ⟨byteVal, -, hmem⟩
    obtain ⟨hints, hh, heq⟩ := mem_map.mp hmem
    obtain ⟨rfl, rfl⟩ := Prod.mk.inj heq
    exact ⟨hints, hh, rfl⟩
  · rintro ⟨hints, hh, rfl⟩
    refine ⟨b.toNat, mem_range.mpr b.toNat_lt, mem_map.mpr ⟨hints, ?_, ?_⟩⟩
    · rwa [UInt8.ofNat_toNat]
    · rw [UInt8.ofNat_toNat]

theorem range_eq_of_key_eq
    (h : packHintsToKey hints = packHintsToKey others) : Set.range hints = Set.range others := by
  have hperm := packHintBytes_eq_iff.mp h
  ext b
  have hrange : ∀ f : Fin 4 → UInt8, b ∈ Set.range f ↔ b ∈ [f 0, f 1, f 2, f 3] := by
    intro f
    simp only [mem_cons, not_mem_nil, or_false]
    constructor
    · rintro ⟨i, rfl⟩
      fin_cases i <;> simp
    · rintro (rfl | rfl | rfl | rfl) <;> exact ⟨_, rfl⟩
  rw [hrange, hrange]
  exact hperm.mem_iff

section
variable {l : ByteLayout} (hl : l.Sound) {g : UInt8 → Grid} (hg : ∀ b, g b ∈ generateAllGrids)
  (hinj : ∀ a b, g a = g b → a = b)
include hl hg hinj

theorem unique_of_grids (a b : UInt8) (hints : Fin 4 → UInt8) (hh : hints ∈ puzzles l (g a))
    (others : Fin 4 → UInt8) (ho : others ∈ puzzles l (g b))
    (heq : Set.range hints = Set.range others) : a = b :=
  (hinj b a (eq_of_range_eq hl (hg a) (hg b) hh ho heq)).symm

theorem decode_of_grids (b : UInt8) (hints : Fin 4 → UInt8) (hh : hints ∈ puzzles l (g b)) :
    storeEntries (decodeEntries fun b => puzzles l (g b)) (packHintsToKey hints) = some b := by
  apply storeEntries_eq
  · exact mem_decodeEntries.mpr ⟨hints, hh, rfl⟩
  · intro a ha
    obtain ⟨others, ho, hkey⟩ := mem_decodeEntries.mp ha
    exact unique_of_grids hl hg hinj a b others ho hints hh (range_eq_of_key_eq hkey)

end

theorem newSingleDirectionTable_sound {draw : Str → (i : Nat) → Fin (i + 1)}
    {key mode customPattern : Str} {t : Table}
    (h : newSingleDirectionTable draw key mode customPattern = .ok t) : t.Sound := by
  unfold newSingleDirectionTable at h
  split at h
  · cases h
  next l hlayout =>
    obtain rfl := Except.ok.inj h
    have hl := resolveLayout_sound hlayout
    have hgrid := targetGrid_mem (draw key)
    have hinj : ∀ a b, targetGrid (draw key) a = targetGrid (draw key) b → a = b :=
      fun a b => targetGrid_inj
    generalize targetGrid (draw key) = g at hgrid hinj
    constructor
    · exact hl
    · rfl
    · intro b
      exact puzzles_ne_nil (hgrid b)
    · intro b hints hh i
      obtain ⟨positions, -, -, rfl⟩ := (mem_puzzles (hgrid b)).mp hh
      exact hl.hint ..
    · exact decode_of_grids hl hgrid hinj
    · exact unique_of_grids hl hgrid hinj

end Mihomo.Sudoku
