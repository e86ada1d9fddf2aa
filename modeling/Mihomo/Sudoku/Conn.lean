import Mihomo.Lib.Draws
import Mihomo.Sudoku.Source
import Mihomo.Sudoku.Table

/-!
# Sudoku connections (transport/sudoku/obfs/sudoku/encode.go, conn.go)

`Conn.Write` encodes each byte by the hints of one of its puzzles in some order, with padding in
between. The decoder collects four hints and skips everything else.
-/

namespace Mihomo.Sudoku
open Go Lib List Decoding
/-! ### Random choices -/

section
variable {R α : Type} (next : R → UInt32 × R)

/-- `sudokuRand.Uint32`; the generator is any function of its state. -/
def uint32 : Draws R UInt32 := fun r => some (next r)

def fastIntnFromUint32 (u : UInt32) (n : Nat) : Nat := u.toNat * n / 2 ^ 32

def intn (n : Nat) : Draws R Nat :=
  if n ≤ 1 then pure 0 else do return fastIntnFromUint32 (← uint32 next) n

/-- `l[rng.Intn(len(l))]`. -/
def pick (l : List α) : Draws R α := do
  let i ← intn next l.length
  StateT.lift l[i]?

theorem fastIntnFromUint32_lt (u : UInt32) {n : Nat} (hn : 0 < n) : fastIntnFromUint32 u n < n := by
  apply Nat.div_lt_of_lt_mul
  exact Nat.mul_lt_mul_of_pos_right u.toNat_lt hn

theorem yields_intn {n : Nat} (hn : 0 < n) : Yields (intn next n) (· < n) := by
  unfold intn
  split
  · exact .pure hn
  · exact (yields_draw next).bind fun u _ => .pure (fastIntnFromUint32_lt u hn)

theorem yields_pick {l : List α} (hl : l ≠ []) : Yields (pick next l) (· ∈ l) :=
  (yields_intn next (length_pos_iff.mpr hl)).bind fun _ hi => yields_get hi

end

/-! ### Encoding -/

def perm4 : List (List (Fin 4)) :=
  [[0, 1, 2, 3], [0, 1, 3, 2], [0, 2, 1, 3], [0, 2, 3, 1], [0, 3, 1, 2], [0, 3, 2, 1],
    [1, 0, 2, 3], [1, 0, 3, 2], [1, 2, 0, 3], [1, 2, 3, 0], [1, 3, 0, 2], [1, 3, 2, 0],
    [2, 0, 1, 3], [2, 0, 3, 1], [2, 1, 0, 3], [2, 1, 3, 0], [2, 3, 0, 1], [2, 3, 1, 0],
    [3, 0, 1, 2], [3, 0, 2, 1], [3, 1, 0, 2], [3, 1, 2, 0], [3, 2, 0, 1], [3, 2, 1, 0]]

section
variable {R : Type} (next : R → UInt32 × R) (t : Table)

def probOne : Nat := 2 ^ 32

/-- The bytes of one payload byte; `pad` is the padding before it and before each of its hints. -/
def encodeByte (pad : Draws R Str) (b : UInt8) : Draws R Str := do
  let lead ← pad
  let puzzle ← pick next (t.encodeTable b)
  let perm ← pick next perm4
  let hints ← perm.mapM fun idx => do return (← pad) ++ [puzzle idx]
  return lead ++ hints.flatten

/-- The three loops of `encodeSudokuPayload` differ in the padding only. -/
def encodeWith (pad : Draws R Str) (p : Str) : Draws R Str := do
  let blocks ← p.mapM (encodeByte next t pad)
  return blocks.flatten ++ (← pad)

def encodeSudokuPayloadNoPadding (p : Str) : Draws R Str := encodeWith next t (pure []) p

def padByte : Draws R Str := do return [← pick next t.paddingPool]

def encodeSudokuPayload (paddingThreshold : Nat) (p : Str) : Draws R Str :=
  if p = [] then pure []
  else if paddingThreshold = 0 then encodeSudokuPayloadNoPadding next t p
  else if probOne ≤ paddingThreshold then encodeWith next t (padByte next t) p
  else
    encodeWith next t (do
      if (← uint32 next).toNat < paddingThreshold then padByte next t else pure []) p

def Conn.write (paddingThreshold : Nat) (p : Str) : Draws R Str :=
  if p = [] then pure [] else encodeSudokuPayload next t paddingThreshold p

end

/-! ### Decoding -/

def sudokuReadSize (decodedRemaining maxRaw : Nat) : Nat :=
  if maxRaw ≤ 64 ∨ decodedRemaining = 0 then maxRaw
  else if (maxRaw - 64) / 9 < decodedRemaining then maxRaw
  else decodedRemaining * 9 + 64

namespace Conn

section
variable (t : Table) (grow : Nat → Nat) (n : Nat)

def lookup (hintBuf : List UInt8) : Option UInt8 :=
  t.decodeMap (packHintBytes (hintBuf.getD 0 0) (hintBuf.getD 1 0) (hintBuf.getD 2 0)
    (hintBuf.getD 3 0))

/-- One byte of a chunk; the state is `hintBuf[:hintCount]`. -/
def takeByte (d : Decoding (List UInt8)) (b : UInt8) : Option (Decoding (List UInt8)) :=
  if t.layout.hintTable b = false then some d
  else
    let hintBuf := d.state ++ [b]
    if hintBuf.length ≠ 4 then some { d with state := hintBuf }
    else
      match lookup t hintBuf with
      | none => none
      | some val => some { appendDecodedByte grow n d val with state := [] }

def chunkLoop (d : Decoding (List UInt8)) : Str → Option (Decoding (List UInt8))
  | [] => some d
  | a :: b :: c :: e :: rest =>
    if d.state = [] ∧ d.out.length < n ∧ t.layout.hintTable a ∧ t.layout.hintTable b ∧
        t.layout.hintTable c ∧ t.layout.hintTable e then
      match t.decodeMap (packHintBytes a b c e) with
      | none => none
      | some val => chunkLoop { d with out := d.out ++ [val] } rest
    else
      match takeByte t grow n d a with
      | none => none
      | some d => chunkLoop d (b :: c :: e :: rest)
  | a :: rest =>
    match takeByte t grow n d a with
    | none => none
    | some d => chunkLoop d rest

theorem sudokuReadSize_pos (m : Nat) : 0 < sudokuReadSize m 32768 := by
  unfold sudokuReadSize
  split
  · omega
  · split <;> omega

def decoder : Decoder (List UInt8) where
  loop n := chunkLoop t grow n
  readSize m := sudokuReadSize m 32768
  fail _ state := state
  readSize_pos := sudokuReadSize_pos

def reader : Reader (List UInt8) := ⟨[], PendingBuffer.newPendingBuffer 4096⟩

def step (hints : List UInt8) (b : UInt8) : Option (List UInt8 × Str) :=
  if t.layout.hintTable b = false then some (hints, [])
  else
    let hintBuf := hints ++ [b]
    if hintBuf.length ≠ 4 then some (hintBuf, [])
    else (lookup t hintBuf).map fun val => ([], [val])

theorem step_padding {b : UInt8} (h : t.layout.hintTable b = false) (hints : List UInt8) :
    step t hints b = some (hints, []) := if_pos h

theorem step_collect {b : UInt8} (h : t.layout.hintTable b = true) {hints : List UInt8}
    (hlength : hints.length < 3) : step t hints b = some (hints ++ [b], []) := by
  rw [step, if_neg (by rw [h]; exact Bool.noConfusion)]
  apply if_pos
  rw [length_append, length_singleton]
  omega

theorem step_last {b : UInt8} (h : t.layout.hintTable b = true) (x y z : UInt8) :
    step t [x, y, z] b = (t.decodeMap (packHintBytes x y z b)).map fun val => ([], [val]) := by
  rw [step, if_neg (by rw [h]; exact Bool.noConfusion)]
  rfl

theorem feed_four {a b c e : UInt8} (ha : t.layout.hintTable a = true)
    (hb : t.layout.hintTable b = true) (hc : t.layout.hintTable c = true)
    (he : t.layout.hintTable e = true) :
    feed (step t) [] [a, b, c, e] =
      (t.decodeMap (packHintBytes a b c e)).map fun val => ([], [val]) := by
  have h₁ : step t [] a = some ([a], []) := step_collect t ha (by decide)
  have h₂ : step t [a] b = some ([a, b], []) := step_collect t hb (by decide : 1 < 3)
  have h₃ : step t [a, b] c = some ([a, b, c], []) := step_collect t hc (by decide : 2 < 3)
  rw [feed_cons h₁, feed_cons h₂, feed_cons h₃, feed, step_last t he]
  cases t.decodeMap (packHintBytes a b c e) <;> rfl

theorem takeByte_eq (d : Decoding (List UInt8)) (b : UInt8) :
    takeByte t grow n d b = (feed (step t) d.state [b]).map (d.absorb grow n) := by
  unfold takeByte feed step
  split
  · rfl
  · dsimp only
    split
    · rfl
    · cases lookup t (d.state ++ [b]) <;> rfl

theorem chunkLoop_eq (d : Decoding (List UInt8)) (chunk : Str) :
    chunkLoop t grow n d chunk = (feed (step t) d.state chunk).map (d.absorb grow n) := by
  fun_induction chunkLoop t grow n d chunk with
  | case1 d => rfl
  | case2 d a b c e rest hfast hmiss =>
    obtain ⟨hstate, -, ha, hb, hc, he⟩ := hfast
    have hfour := feed_four t ha hb hc he
    rw [hmiss] at hfour
    rw [hstate, show a :: b :: c :: e :: rest = [a, b, c, e] ++ rest from rfl, feed_append, hfour]
    rfl
  | case3 d a b c e rest hfast val hval ih =>
    obtain ⟨hstate, hroom, ha, hb, hc, he⟩ := hfast
    have hfour : feed (step t) d.state [a, b, c, e] = some ([], [val]) := by
      rw [hstate, feed_four t ha hb hc he, hval]
      rfl
    have habsorb : d.absorb grow n ([], [val]) = { d with out := d.out ++ [val] } := by
      rw [absorb_of_room grow hroom, hstate]
    rw [ih, show a :: b :: c :: e :: rest = [a, b, c, e] ++ rest from rfl,
      map_absorb_append grow hfour, habsorb, hstate]
  | case4 d a b c e rest hslow hmiss =>
    rw [takeByte_eq] at hmiss
    exact (map_absorb_of_none grow hmiss _).symm
  | case5 d a b c e rest hslow d' htake ih =>
    rw [takeByte_eq] at htake
    rw [ih]
    exact (map_absorb_of_some grow htake _).symm
  | case6 d a rest hshort hmiss =>
    rw [takeByte_eq] at hmiss
    exact (map_absorb_of_none grow hmiss rest).symm
  | case7 d a rest hshort d' htake ih =>
    rw [takeByte_eq] at htake
    rw [ih]
    exact (map_absorb_of_some grow htake rest).symm

theorem follows : (decoder t grow).Follows grow (step t) fun _ => False where
  loop_eq n := chunkLoop_eq t grow n
  fail_eq _ _ _ := rfl

end

/-! ### What is written is decoded -/

theorem feed_hint (t : Table) {ps : Str} (hps : ∀ x ∈ ps, t.layout.hintTable x = false)
    {hints hints' : List UInt8} {h : UInt8} {out : Str} (hstep : step t hints h = some (hints', out)) :
    feed (step t) hints (ps ++ [h]) = some (hints', out) := by
  have hskip : feed (step t) hints ps = some (hints, []) :=
    feed_of_skip fun x hx => step_padding t (hps x hx) hints
  have hone : feed (step t) hints [h] = some (hints', out) := by
    rw [feed_cons hstep]
    simp
  exact feed_trans hskip hone

section
variable {t : Table} (ht : t.Sound)
include ht

theorem decode_perm4 {b : UInt8} {puzzle : Fin 4 → UInt8} (hpuzzle : puzzle ∈ t.encodeTable b)
    {perm : List (Fin 4)} (hperm : perm ∈ perm4) : ∃ i j k l, perm = [i, j, k, l] ∧
      t.decodeMap (packHintBytes (puzzle i) (puzzle j) (puzzle k) (puzzle l)) = some b := by
  have hall : ∀ perm ∈ perm4, perm.Perm [0, 1, 2, 3] := by decide
  have hindices := hall perm hperm
  obtain ⟨i, j, k, l, rfl⟩ := length_eq_four.mp hindices.length_eq
  refine ⟨i, j, k, l, rfl, ?_⟩
  rw [packHintBytes_eq_iff.mpr (hindices.map puzzle)]
  exact ht.decode b puzzle hpuzzle

section
variable {R : Type} {next : R → UInt32 × R} {pad : Draws R Str}
  (hpad : Yields pad fun ps => ∀ x ∈ ps, t.layout.hintTable x = false)
include hpad

theorem yields_encodeByte (b : UInt8) :
    Yields (encodeByte next t pad b) fun out => feed (step t) [] out = some ([], [b]) := by
  refine hpad.bind fun lead hlead => ?_
  refine (yields_pick next (ht.encodable b)).bind fun puzzle hpuzzle => ?_
  refine (yields_pick next (by decide : perm4 ≠ [])).bind fun perm hperm => ?_
  have hblock : ∀ idx, Yields (do return (← pad) ++ [puzzle idx] : Draws R Str) fun block =>
      ∃ ps, block = ps ++ [puzzle idx] ∧ ∀ x ∈ ps, t.layout.hintTable x = false := fun idx =>
    hpad.bind fun ps hps => .pure ⟨ps, rfl, hps⟩
  refine (yields_mapM hblock perm).bind fun blocks hblocks => .pure ?_
  obtain ⟨i, j, k, l, rfl, hdecode⟩ := decode_perm4 ht hpuzzle hperm
  have hhint := ht.hint b puzzle hpuzzle
  have hlead' : feed (step t) [] lead = some ([], []) :=
    feed_of_skip fun x hx => step_padding t (hlead x hx) []
  -- the four blocks, one for each index
  cases hblocks with
  | cons h₁ hblocks => cases hblocks with
  | cons h₂ hblocks => cases hblocks with
  | cons h₃ hblocks => cases hblocks with
  | cons h₄ hblocks => cases hblocks with
  | nil =>
    obtain ⟨ps₁, rfl, hps₁⟩ := h₁
    obtain ⟨ps₂, rfl, hps₂⟩ := h₂
    obtain ⟨ps₃, rfl, hps₃⟩ := h₃
    obtain ⟨ps₄, rfl, hps₄⟩ := h₄
    have s₁ : step t [] (puzzle i) = some ([puzzle i], []) := step_collect t (hhint i) (by decide)
    have s₂ : step t [puzzle i] (puzzle j) = some ([puzzle i, puzzle j], []) :=
      step_collect t (hhint j) (by decide : 1 < 3)
    have s₃ : step t [puzzle i, puzzle j] (puzzle k) = some ([puzzle i, puzzle j, puzzle k], []) :=
      step_collect t (hhint k) (by decide : 2 < 3)
    have s₄ : step t [puzzle i, puzzle j, puzzle k] (puzzle l) = some ([], [b]) := by
      rw [step_last t (hhint l), hdecode]
      rfl
    have hfeed := feed_trans hlead' (feed_trans (feed_hint t hps₁ s₁)
      (feed_trans (feed_hint t hps₂ s₂) (feed_trans (feed_hint t hps₃ s₃) (feed_hint t hps₄ s₄))))
    simpa using hfeed

theorem yields_encodeWith (p : Str) :
    Yields (encodeWith next t pad p) fun out => feed (step t) [] out = some ([], p) := by
  refine (yields_mapM (yields_encodeByte ht hpad) p).bind fun blocks hblocks => ?_
  refine hpad.bind fun last hlast => .pure ?_
  have hflatten := feed_flatten hblocks
  have hskip : feed (step t) [] last = some ([], []) :=
    feed_of_skip fun x hx => step_padding t (hlast x hx) []
  have htrans := feed_trans hflatten hskip
  rwa [flatMap_singleton', append_nil] at htrans

end

theorem yields_padByte {R : Type} (next : R → UInt32 × R) : Yields (padByte next t) fun ps =>
    ∀ x ∈ ps, t.layout.hintTable x = false := by
  have hpool : t.paddingPool ≠ [] := by
    rw [ht.paddingPool]
    exact ne_nil_of_mem ht.layout.marker
  refine (yields_pick next hpool).bind fun x hx => .pure fun y hy => ?_
  rw [mem_singleton.mp hy]
  apply ht.layout.padding
  rwa [← ht.paddingPool]

theorem yields_write {R : Type} (next : R → UInt32 × R) (paddingThreshold : Nat) (p : Str) :
    Yields (write next t paddingThreshold p) fun out => feed (step t) [] out = some ([], p) := by
  have hnone : Yields (pure [] : Draws R Str) fun ps =>
      ∀ x ∈ ps, t.layout.hintTable x = false :=
    .pure nofun
  have hpad := yields_padByte ht next
  unfold write encodeSudokuPayload
  split
  next hp =>
    rw [hp]
    exact .pure rfl
  · split
    · exact yields_encodeWith ht hnone p
    · split
      · exact yields_encodeWith ht hpad p
      · apply yields_encodeWith ht
        refine (yields_draw next).bind fun u _ => ?_
        split
        · exact hpad
        · exact hnone

end

/-- Whatever is written is read, for every table that can be made. The four hints of a byte in the
table identify it, and padding is no hint. -/
theorem read_write {draw : Str → (i : Nat) → Fin (i + 1)} {key mode customPattern : Str} {t : Table}
    (ht : newSingleDirectionTable draw key mode customPattern = .ok t) {R : Type}
    (next : R → UInt32 × R) (paddingThreshold : Nat) (grow : Nat → Nat) (payloads : List Str)
    (r : R) :
    (∃ written r', payloads.mapM (write next t paddingThreshold) r = some (written, r') ∧
      ∀ src : Source, src.bytes = written.flatten →
        (decoder t grow).Delivers reader src payloads.flatten) ∧
    (∀ b, t.encodeTable b ≠ [] ∧ ∀ hints ∈ t.encodeTable b, ∀ i, t.layout.isHint (hints i)) ∧
    (∀ a b, ∀ hints ∈ t.encodeTable a, ∀ others ∈ t.encodeTable b,
      Set.range hints = Set.range others → a = b) ∧
    ∀ x ∈ t.paddingPool, t.layout.isHint x = false := by
  have hsound := newSingleDirectionTable_sound ht
  refine ⟨?_, fun b => ⟨hsound.encodable b, hsound.hint b⟩, hsound.unique, fun x hx => ?_⟩
  · obtain ⟨written, r', hwritten, hblocks⟩ :=
      yields_mapM (yields_write hsound next paddingThreshold) payloads r
    refine ⟨written, r', hwritten, fun src hsrc => ?_⟩
    have hfeed := feed_flatten (f := id) hblocks
    rw [List.flatMap_id, ← hsrc] at hfeed
    refine (follows t grow).delivers (Source.endsAt_of_forall_not (fun _ => not_false) src) ?_
    exact ⟨[], payloads.flatten, hfeed, rfl⟩
  · apply hsound.layout.padding
    rwa [← hsound.paddingPool]

theorem read_write_entropy : ∃ t, newSingleDirectionTable (fun _ => Fin.last) [] [] [] = .ok t ∧
    ∃ written r', [ascii "hi", ascii "!"].mapM
      (write (fun r : UInt32 => (r, r + 0x9E3779B9)) t 0x80000000) 1 = some (written, r') ∧
      ∀ src : Source, src.bytes = written.flatten →
        (decoder t id).Delivers reader src [ascii "hi", ascii "!"].flatten := by
  have htable : newSingleDirectionTable (fun _ => Fin.last) [] [] [] = .ok _ := rfl
  exact ⟨_, htable, (read_write htable _ _ _ _ _).1⟩

end Conn

end Mihomo.Sudoku
