import Mihomo.Lib.Bits
import Mihomo.Sudoku.Conn

/-!
# Packed connections (transport/sudoku/obfs/sudoku/packed.go)

`PackedConn` sends the stream of bits in groups of six. A write that does not end with a group is
filled up with zeros, and a marker tells the decoder to forget them.
-/

namespace Mihomo.Sudoku
open Go Lib List Nat
namespace Packed

/-- A bit accumulator, cleared when it has no bits; no more than 14 bits of the `uint64` are ever in
use. -/
structure BitBuf where
  buf : Nat
  count : Nat
  cleared : count = 0 → buf = 0

namespace BitBuf

def empty : BitBuf := ⟨0, 0, fun _ => rfl⟩

/-- `buf << k | word`, with `k` bits more. -/
def push (s : BitBuf) (k word : Nat) (hk : 0 < k) : BitBuf :=
  ⟨s.buf <<< k ||| word, s.count + k, fun h => by omega⟩

/-- The last `count` bits of a buffer. -/
def keep (buf count : Nat) : BitBuf :=
  ⟨if count = 0 then 0 else buf &&& (1 <<< count - 1), count, fun h => if_pos h⟩

def view (s : BitBuf) : List Bool := lowBits s.count s.buf

theorem view_empty : empty.view = [] := rfl

theorem length_view (s : BitBuf) : s.view.length = s.count := length_lowBits _ _

theorem eq_empty {s : BitBuf} (h : s.count = 0) : s = empty := by
  obtain ⟨buf, count, cleared⟩ := s
  obtain rfl : count = 0 := h
  obtain rfl := cleared rfl
  rfl

theorem view_push (s : BitBuf) {k word : Nat} (hk : 0 < k) (hword : word < 2 ^ k) :
    (s.push k word hk).view = s.view ++ lowBits k word :=
  lowBits_shiftLeft_or s.count s.buf hword

theorem view_keep (buf count : Nat) : (keep buf count).view = lowBits count buf := by
  change lowBits count (if count = 0 then 0 else buf &&& (1 <<< count - 1)) = _
  split
  next h =>
    rw [h]
    rfl
  · exact lowBits_mask count buf

end BitBuf

/-- What the writer needs of `PackedConn`. -/
structure Config where
  layout : ByteLayout
  paddingThreshold : Nat
  padMarker : UInt8
  padPool : List UInt8

def newPackedConn (t : Table) (paddingThreshold : Nat) : Config :=
  let padPool := t.paddingPool.filter (· != t.layout.padMarker)
  { layout := t.layout
    paddingThreshold
    padMarker := t.layout.padMarker
    padPool := if padPool = [] then [t.layout.padMarker] else padPool }

/-! ### Writing -/

section
variable {R : Type} (next : R → UInt32 × R) (pc : Config)

/-- `getPaddingByte`, appended. -/
def appendForcedPadding : Draws R Str := do return [← pick next pc.padPool]

def nextProtectedPrefixGap : Draws R Nat := do return 1 + (← intn next 2)

def maybeAppendPackedPadding : Draws R Str :=
  if pc.paddingThreshold = 0 then pure []
  else do
    if (← uint32 next).toNat < pc.paddingThreshold then
      let u ← uint32 next
      return [← StateT.lift pc.padPool[fastIntnFromUint32 u pc.padPool.length]?]
    else return []

def appendPackedGroup (group : Nat) : Draws R Str := do
  return (← maybeAppendPackedPadding next pc) ++ [pc.layout.groupByte group]

def emitGroups (s : BitBuf) : Draws R (Str × BitBuf) :=
  if 6 ≤ s.count then do
    let count := s.count - 6
    let group := s.buf >>> count
    let out ← appendPackedGroup next pc group
    let (rest, s) ← emitGroups (.keep s.buf count)
    return (out ++ rest, s)
  else pure ([], s)
termination_by s.count
decreasing_by exact sub_lt (by omega) (by omega)

def pushByte (s : BitBuf) (b : UInt8) : Draws R (Str × BitBuf) :=
  emitGroups next pc (s.push 8 b.toNat (by omega))

def pushBytes (s : BitBuf) : Str → Draws R (Str × BitBuf)
  | [] => pure ([], s)
  | b :: bs => do
    let (out, s) ← pushByte next pc s b
    let (rest, s) ← pushBytes s bs
    return (out ++ rest, s)

/-- The padding at the start. The bound of the loop is drawn in every round, and it is reached in
the third one at the latest. -/
def leadingPadding : Nat → Nat → Draws R Str
  | 0, _ => StateT.lift none
  | fuel + 1, padCount => do
    if padCount < 1 + (← intn next 2) then
      return (← appendForcedPadding next pc) ++ (← leadingPadding fuel (padCount + 1))
    else return []

def protectedBytes (s : BitBuf) (effective gap : Nat) : Str → Draws R (Str × BitBuf)
  | [] => pure ([], s)
  | b :: bs => do
    let (out, s) ← pushByte next pc s b
    if gap ≤ effective + 1 then
      let pad ← appendForcedPadding next pc
      let gap ← nextProtectedPrefixGap next
      let (rest, s) ← protectedBytes s 0 gap bs
      return (out ++ pad ++ rest, s)
    else
      let (rest, s) ← protectedBytes s (effective + 1) gap bs
      return (out ++ rest, s)

def writeProtectedPrefix (s : BitBuf) (p : Str) : Draws R (Str × BitBuf) :=
  if p = [] then pure ([], s)
  else do
    let lead ← leadingPadding next pc 3 0
    let gap ← nextProtectedPrefixGap next
    let (out, s) ← protectedBytes next pc s 0 gap p
    return (lead ++ out, s)

def alignBytes (s : BitBuf) : Str → Draws R (Str × BitBuf × Str)
  | [] => pure ([], s, [])
  | b :: bs =>
    if 0 < s.count then do
      let (out, s) ← pushByte next pc s b
      let (rest, s, left) ← alignBytes s bs
      return (out ++ rest, s, left)
    else pure ([], s, b :: bs)

def tripleLoop : Str → Draws R (Str × Str)
  | b1 :: b2 :: b3 :: bs => do
    let o1 ← appendPackedGroup next pc ((b1 >>> 2) &&& 0x3F).toNat
    let o2 ← appendPackedGroup next pc ((b1 &&& 0x03) <<< 4 ||| (b2 >>> 4) &&& 0x0F).toNat
    let o3 ← appendPackedGroup next pc ((b2 &&& 0x0F) <<< 2 ||| (b3 >>> 6) &&& 0x03).toNat
    let o4 ← appendPackedGroup next pc (b3 &&& 0x3F).toNat
    let (rest, left) ← tripleLoop bs
    return (o1 ++ o2 ++ o3 ++ o4 ++ rest, left)
  | bs => pure ([], bs)

def batchLoop (p : Str) : Draws R (Str × Str) :=
  if 12 ≤ p.length then do
    let (out, _) ← tripleLoop next pc (p.take 12)
    let (rest, left) ← batchLoop (p.drop 12)
    return (out ++ rest, left)
  else pure ([], p)
termination_by p.length

def fillGroup (s : BitBuf) : Draws R Str :=
  if 0 < s.count then do
    return (← appendPackedGroup next pc (s.buf <<< (6 - s.count))) ++ [pc.padMarker]
  else pure []

def write (s : BitBuf) (p : Str) : Draws R (Str × BitBuf) :=
  if p = [] then pure ([], s)
  else do
    let (o1, s) ← writeProtectedPrefix next pc s (p.take 14)
    let (o2, s, p) ← alignBytes next pc s (p.drop 14)
    let (o3, p) ← batchLoop next pc p
    let (o4, p) ← tripleLoop next pc p
    let (o5, s) ← pushBytes next pc s p
    let o6 ← fillGroup next pc s
    let o7 ← maybeAppendPackedPadding next pc
    return (o1 ++ o2 ++ o3 ++ o4 ++ o5 ++ o6 ++ o7, if 0 < s.count then .empty else s)

def flush (s : BitBuf) : Draws R (Str × BitBuf) := do
  let out := if 0 < s.count then
    [pc.layout.groupByte (s.buf <<< (6 - s.count)), pc.padMarker] else []
  let pad ← maybeAppendPackedPadding next pc
  return (out ++ pad, if 0 < s.count then .empty else s)

end

/-! ### The groups of a write -/

structure Config.Sound (pc : Config) : Prop where
  layout : pc.layout.Sound
  marker : pc.layout.hintTable pc.padMarker = false
  padPool : pc.padPool ≠ []
  padding : ∀ x ∈ pc.padPool, pc.layout.hintTable x = false ∧ x ≠ pc.padMarker

theorem newPackedConn_sound {t : Table} (ht : t.Sound) (paddingThreshold : Nat) :
    (newPackedConn t paddingThreshold).Sound := by
  have hother : t.paddingPool.filter (· != t.layout.padMarker) ≠ [] := by
    obtain ⟨b, hb, hne⟩ := ht.layout.other
    rw [← ht.paddingPool] at hb
    exact ne_nil_of_mem (mem_filter.mpr ⟨hb, bne_iff_ne.mpr hne⟩)
  constructor
  · exact ht.layout
  · exact ht.layout.padding _ ht.layout.marker
  · simp only [newPackedConn, if_neg hother]
    exact hother
  · intro x hx
    simp only [newPackedConn, if_neg hother] at hx
    obtain ⟨hx, hne⟩ := mem_filter.mp hx
    refine ⟨ht.layout.padding x ?_, bne_iff_ne.mp hne⟩
    rwa [← ht.paddingPool]

def groupBits (g : Fin 64) : List Bool := lowBits 6 g

def byteBits (b : UInt8) : List Bool := lowBits 8 b.toNat

def sent (pc : Config) (out : Str) : Str :=
  out.filter fun b => pc.layout.hintTable b || b == pc.padMarker

def Sends (pc : Config) (out : Str) (bits : List Bool) : Prop :=
  ∃ gs : List (Fin 64), sent pc out = gs.map pc.layout.encodeGroup ∧
    bits = gs.flatMap groupBits

def Emits (pc : Config) (s : BitBuf) (bits : List Bool) (r : Str × BitBuf) : Prop :=
  r.2.count < 6 ∧ ∃ w, Sends pc r.1 w ∧ s.view ++ bits = w ++ r.2.view

variable {pc : Config} {s s' : BitBuf} {out out' : Str} {bits bits' : List Bool}

theorem sent_append (out out' : Str) : sent pc (out ++ out') = sent pc out ++ sent pc out' :=
  filter_append out out'

theorem Sends.nil (h : sent pc out = []) : Sends pc out [] := ⟨[], h, rfl⟩

theorem Sends.append (h : Sends pc out bits) (h' : Sends pc out' bits') :
    Sends pc (out ++ out') (bits ++ bits') := by
  obtain ⟨gs, hsent, rfl⟩ := h
  obtain ⟨gs', hsent', rfl⟩ := h'
  refine ⟨gs ++ gs', ?_, ?_⟩
  · rw [sent_append, hsent, hsent', map_append]
  · rw [flatMap_append]

theorem Emits.refl (hs : s.count < 6) : Emits pc s [] ([], s) :=
  ⟨hs, [], .nil rfl, append_nil _⟩

theorem Emits.trans {r : Str × BitBuf} (h : Emits pc s bits (out, s'))
    (h' : Emits pc s' bits' r) : Emits pc s (bits ++ bits') (out ++ r.1, r.2) := by
  obtain ⟨-, w, hw, hview⟩ := h
  obtain ⟨hcount, w', hw', hview'⟩ := h'
  refine ⟨hcount, w ++ w', hw.append hw', ?_⟩
  rw [← append_assoc, hview, append_assoc, hview', append_assoc]

theorem Emits.padded {r : Str × BitBuf} (hpad : sent pc out = []) (h : Emits pc s bits r) :
    Emits pc s bits (out ++ r.1, r.2) := by
  obtain ⟨hcount, w, hw, hview⟩ := h
  exact ⟨hcount, w, (Sends.nil hpad).append hw, hview⟩

section
variable {R : Type} (next : R → UInt32 × R) (hpc : pc.Sound)
include hpc

theorem sent_padding {x : UInt8} (hx : x ∈ pc.padPool) : sent pc [x] = [] := by
  obtain ⟨hhint, hne⟩ := hpc.padding x hx
  simp [sent, hhint, hne]

theorem sent_group (g : Nat) : sent pc [pc.layout.groupByte g] = [pc.layout.groupByte g] := by
  have hhint : pc.layout.hintTable (pc.layout.groupByte g) = true := hpc.layout.group _
  simp [sent, hhint]

theorem sends_group (g : Nat) : Sends pc [pc.layout.groupByte g] (lowBits 6 g) := by
  refine ⟨[Fin.ofNat 64 g], sent_group hpc g, ?_⟩
  exact (lowBits_mod 6 g (le_refl 6)).symm

theorem yields_appendForcedPadding :
    Yields (appendForcedPadding next pc) fun out => sent pc out = [] :=
  (yields_pick next hpc.padPool).bind fun _ hx => .pure (sent_padding hpc hx)

theorem yields_maybeAppendPackedPadding :
    Yields (maybeAppendPackedPadding next pc) fun out => sent pc out = [] := by
  unfold maybeAppendPackedPadding
  split
  · exact .pure rfl
  · refine (yields_draw next).bind fun u _ => ?_
    split
    · refine (yields_draw next).bind fun u _ => ?_
      have hlt := fastIntnFromUint32_lt u (length_pos_iff.mpr hpc.padPool)
      exact (yields_get hlt).bind fun x hx => .pure (sent_padding hpc hx)
    · exact .pure rfl

theorem yields_appendPackedGroup (g : Nat) :
    Yields (appendPackedGroup next pc g) fun out => Sends pc out (lowBits 6 g) :=
  (yields_maybeAppendPackedPadding next hpc).bind fun _ hpad =>
    .pure ((Sends.nil hpad).append (sends_group hpc g))

theorem yields_emitGroups (s : BitBuf) : Yields (emitGroups next pc s) (Emits pc s []) := by
  induction hm : s.count using Nat.strong_induction_on generalizing s with
  | _ m ih =>
  rw [emitGroups]
  split
  next hle =>
    refine (yields_appendPackedGroup next hpc _).bind fun out hout => ?_
    have hlt : s.count - 6 < m := by omega
    refine (ih _ hlt (.keep s.buf (s.count - 6)) rfl).bind fun r hr => .pure ?_
    obtain ⟨hcount, w, hw, hview⟩ := hr
    refine ⟨hcount, _, hout.append hw, ?_⟩
    rw [append_nil, BitBuf.view_keep] at hview
    rw [append_nil, append_assoc, ← hview, ← lowBits_add, BitBuf.view, add_sub_of_le hle]
  next hlt =>
    exact .pure (.refl (by omega))

theorem yields_pushByte (s : BitBuf) (b : UInt8) :
    Yields (pushByte next pc s b) (Emits pc s (byteBits b)) := by
  refine (yields_emitGroups next hpc _).mono fun r hr => ?_
  obtain ⟨hcount, w, hw, hview⟩ := hr
  refine ⟨hcount, w, hw, ?_⟩
  rw [append_nil, BitBuf.view_push s (by omega) b.toNat_lt] at hview
  exact hview

theorem yields_pushBytes (p : Str) {s : BitBuf} (hs : s.count < 6) :
    Yields (pushBytes next pc s p) (Emits pc s (p.flatMap byteBits)) := by
  induction p generalizing s with
  | nil => exact .pure (.refl hs)
  | cons b bs ih =>
    refine (yields_pushByte next hpc s b).bind fun r hr => ?_
    refine (ih hr.1).bind fun q hq => .pure ?_
    exact hr.trans hq

theorem yields_leadingPadding {fuel padCount : Nat} (hle : padCount ≤ 2)
    (hfuel : 3 ≤ padCount + fuel) :
    Yields (leadingPadding next pc fuel padCount) fun out => sent pc out = [] := by
  induction fuel generalizing padCount with
  | zero => omega
  | succ fuel ih =>
    refine (yields_intn next (by omega)).bind fun d hd => ?_
    split
    · refine (yields_appendForcedPadding next hpc).bind fun pad hpad => ?_
      refine (ih (by omega) (by omega)).bind fun rest hrest => .pure ?_
      rw [sent_append, hpad, hrest]
      rfl
    · exact .pure rfl

omit hpc in
theorem yields_nextProtectedPrefixGap : Yields (nextProtectedPrefixGap next) fun _ => True :=
  (yields_intn next (by omega)).bind fun _ _ => .pure trivial

theorem yields_protectedBytes (p : Str) {s : BitBuf} (hs : s.count < 6) (effective gap : Nat) :
    Yields (protectedBytes next pc s effective gap p) (Emits pc s (p.flatMap byteBits)) := by
  induction p generalizing s effective gap with
  | nil => exact .pure (.refl hs)
  | cons b bs ih =>
    refine (yields_pushByte next hpc s b).bind fun r hr => ?_
    dsimp only
    split
    · refine (yields_appendForcedPadding next hpc).bind fun pad hpad => ?_
      refine (yields_nextProtectedPrefixGap next).bind fun gap _ => ?_
      refine (ih hr.1 0 gap).bind fun q hq => .pure ?_
      rw [append_assoc]
      exact hr.trans (hq.padded hpad)
    · exact (ih hr.1 _ gap).bind fun q hq => .pure (hr.trans hq)

theorem yields_writeProtectedPrefix (p : Str) {s : BitBuf} (hs : s.count < 6) :
    Yields (writeProtectedPrefix next pc s p) (Emits pc s (p.flatMap byteBits)) := by
  unfold writeProtectedPrefix
  split
  next hp =>
    rw [hp]
    exact .pure (.refl hs)
  · refine (yields_leadingPadding next hpc (by omega) (by omega)).bind fun lead hlead => ?_
    refine (yields_nextProtectedPrefixGap next).bind fun gap _ => ?_
    exact (yields_protectedBytes next hpc p hs 0 gap).bind fun r hr => .pure (hr.padded hlead)

theorem yields_alignBytes (p : Str) {s : BitBuf} (hs : s.count < 6) :
    Yields (alignBytes next pc s p) fun r => ∃ done, p = done ++ r.2.2 ∧
      Emits pc s (done.flatMap byteBits) (r.1, r.2.1) ∧ (r.2.2 ≠ [] → r.2.1.count = 0) := by
  induction p generalizing s with
  | nil => exact .pure ⟨[], rfl, .refl hs, absurd rfl⟩
  | cons b bs ih =>
    unfold alignBytes
    split
    · refine (yields_pushByte next hpc s b).bind fun r hr => ?_
      refine (ih hr.1).bind fun q hq => .pure ?_
      obtain ⟨done, rfl, hemits, hleft⟩ := hq
      exact ⟨b :: done, rfl, hr.trans hemits, hleft⟩
    next hcount =>
      exact .pure ⟨[], rfl, .refl hs, fun _ => Nat.eq_zero_of_not_pos hcount⟩

omit hpc in
theorem bits_join {a b y : Nat} (hab : a + b ≤ 8) (x : Nat) (hy : y < 2 ^ b) :
    lowBits (a + b) (x <<< b % 2 ^ 8 ||| y) = lowBits a x ++ lowBits b y := by
  have hmod : lowBits (a + b) (x <<< b % 2 ^ 8 ||| y) = lowBits (a + b) (x <<< b ||| y) := by
    apply lowBits_congr
    intro i hi
    rw [testBit_or, testBit_or, testBit_mod_two_pow, decide_eq_true (by omega), Bool.true_and]
  rw [hmod, lowBits_shiftLeft_or a x hy]

omit hpc in
theorem bits_group {a b : Nat} (hab : a + b = 6) (x y : Nat) :
    lowBits 6 (((x &&& (1 <<< a - 1)) <<< b) % 2 ^ 8 ||| (y &&& (1 <<< b - 1))) =
      lowBits a x ++ lowBits b y := by
  have hy : y &&& (1 <<< b - 1) < 2 ^ b := by
    rw [one_shiftLeft, and_two_pow_sub_one_eq_mod]
    omega
  rw [← hab, bits_join (by omega) _ hy, lowBits_mask, lowBits_mask]

omit hpc in
theorem bits_triple (b1 b2 b3 : UInt8) :
    lowBits 6 ((b1 >>> 2) &&& 0x3F).toNat ++
      lowBits 6 ((b1 &&& 0x03) <<< 4 ||| (b2 >>> 4) &&& 0x0F).toNat ++
      lowBits 6 ((b2 &&& 0x0F) <<< 2 ||| (b3 >>> 6) &&& 0x03).toNat ++
      lowBits 6 (b3 &&& 0x3F).toNat = byteBits b1 ++ byteBits b2 ++ byteBits b3 := by
  have h1 : lowBits 6 ((b1 >>> 2) &&& 0x3F).toNat = lowBits 6 (b1.toNat >>> 2) := by
    exact lowBits_mask 6 _
  have h2 : lowBits 6 ((b1 &&& 0x03) <<< 4 ||| (b2 >>> 4) &&& 0x0F).toNat =
      lowBits 2 b1.toNat ++ lowBits 4 (b2.toNat >>> 4) := by
    exact bits_group (b := 4) rfl ..
  have h3 : lowBits 6 ((b2 &&& 0x0F) <<< 2 ||| (b3 >>> 6) &&& 0x03).toNat =
      lowBits 4 b2.toNat ++ lowBits 2 (b3.toNat >>> 6) := by
    exact bits_group (b := 2) rfl ..
  have h4 : lowBits 6 (b3 &&& 0x3F).toNat = lowBits 6 b3.toNat := by
    exact lowBits_mask 6 _
  rw [h1, h2, h3, h4, byteBits, byteBits, byteBits, lowBits_add 6 2 b1.toNat,
    lowBits_add 4 4 b2.toNat, lowBits_add 2 6 b3.toNat]
  simp

theorem yields_tripleLoop (p : Str) : Yields (tripleLoop next pc p) fun r =>
    ∃ done, p = done ++ r.2 ∧ Sends pc r.1 (done.flatMap byteBits) ∧ r.2.length < 3 ∧
      done.length % 3 = 0 := by
  fun_induction tripleLoop next pc p with
  | case1 b1 b2 b3 bs ih =>
    refine (yields_appendPackedGroup next hpc _).bind fun o1 h1 => ?_
    refine (yields_appendPackedGroup next hpc _).bind fun o2 h2 => ?_
    refine (yields_appendPackedGroup next hpc _).bind fun o3 h3 => ?_
    refine (yields_appendPackedGroup next hpc _).bind fun o4 h4 => ?_
    refine ih.bind fun r hr => .pure ?_
    obtain ⟨done, rfl, hsends, hleft, hthree⟩ := hr
    have hfour := ((h1.append h2).append h3).append h4
    rw [bits_triple] at hfour
    refine ⟨b1 :: b2 :: b3 :: done, rfl, ?_, hleft, ?_⟩
    · have h := hfour.append hsends
      exact h
    · simp only [length_cons]
      omega
  | case2 p hshort =>
    refine .pure ⟨[], rfl, .nil rfl, ?_, rfl⟩
    match p, hshort with
    | [], _ => exact zero_lt_succ 2
    | [_], _ => exact lt_succ_of_lt (lt_succ_self 1)
    | [_, _], _ => exact lt_succ_self 2
    | b1 :: b2 :: b3 :: bs, hshort => exact (hshort b1 b2 b3 bs rfl).elim

theorem yields_batchLoop (p : Str) : Yields (batchLoop next pc p) fun r =>
    ∃ done, p = done ++ r.2 ∧ Sends pc r.1 (done.flatMap byteBits) := by
  induction hm : p.length using Nat.strong_induction_on generalizing p with
  | _ m ih =>
  rw [batchLoop]
  split
  next hle =>
    refine (yields_tripleLoop next hpc (p.take 12)).bind fun r hr => ?_
    have hlt : (p.drop 12).length < m := by
      rw [length_drop]
      omega
    refine (ih _ hlt (p.drop 12) rfl).bind fun q hq => .pure ?_
    obtain ⟨first, htake, hfirst, hleft, hthree⟩ := hr
    obtain ⟨done, hdrop, hdone⟩ := hq
    have hnil : r.2 = [] := by
      have hlength := congrArg List.length htake
      rw [length_take_of_le hle, length_append] at hlength
      exact eq_nil_of_length_eq_zero (by omega)
    rw [hnil, append_nil] at htake
    refine ⟨first ++ done, ?_, ?_⟩
    · rw [append_assoc, ← hdrop, ← htake, take_append_drop]
    · rw [flatMap_append]
      exact hfirst.append hdone
  · exact .pure ⟨[], rfl, .nil rfl⟩

omit hpc in
theorem sent_marker : sent pc [pc.padMarker] = [pc.padMarker] := by
  simp [sent]

omit hpc in
theorem lowBits_fill {s : BitBuf} (hs : s.count < 6) :
    lowBits 6 (s.buf <<< (6 - s.count)) = s.view ++ List.replicate (6 - s.count) false := by
  have hshift := lowBits_shiftLeft_or s.count s.buf (Nat.two_pow_pos (6 - s.count))
  rwa [or_zero, add_sub_of_le hs.le, lowBits_zero] at hshift

end

theorem Emits.sends {w : List Bool} (h : Emits pc s bits (out, s')) (h' : Sends pc out' w)
    (haligned : w ≠ [] → s'.count = 0) : Emits pc s (bits ++ w) (out ++ out', s') := by
  obtain ⟨hcount, v, hv, hview⟩ := h
  refine ⟨hcount, v ++ w, hv.append h', ?_⟩
  rw [← append_assoc, hview, append_assoc, append_assoc]
  congr 1
  by_cases hw : w = []
  · rw [hw, append_nil]
    rfl
  · rw [BitBuf.eq_empty (haligned hw)]
    exact (append_nil w).symm

/-- The code of a payload: its bits in groups of six, filled up with zeros, and the marker after
a fill. -/
def Coded (pc : Config) (p out : Str) : Prop :=
  ∃ (gs : List (Fin 64)) (fill : Nat), fill < 6 ∧
    gs.flatMap groupBits = p.flatMap byteBits ++ List.replicate fill false ∧
    sent pc out = gs.map pc.layout.encodeGroup ++ if fill = 0 then [] else [pc.padMarker]

section
variable {R : Type} (next : R → UInt32 × R) (hpc : pc.Sound)
include hpc

theorem yields_fillGroup {p : Str} (h : Emits pc .empty (p.flatMap byteBits) (out, s)) :
    Yields (fillGroup next pc s) fun o => Coded pc p (out ++ o) := by
  obtain ⟨hcount, w, ⟨gs, hsent, rfl⟩, hview⟩ := h
  rw [BitBuf.view_empty, nil_append] at hview
  unfold fillGroup
  split
  · refine (yields_appendPackedGroup next hpc _).bind fun o ho => .pure ?_
    obtain ⟨last, hlast, hbits⟩ := ho
    refine ⟨gs ++ last, 6 - s.count, by omega, ?_, ?_⟩
    · rw [flatMap_append, ← hbits, lowBits_fill hcount, hview, append_assoc]
    · rw [if_neg (by have : s.count < 6 := hcount; omega), ← append_assoc, sent_append,
        sent_append, hlast, sent_marker, map_append, ← hsent]
  next hzero =>
    have hzero := Nat.eq_zero_of_not_pos hzero
    refine .pure ⟨gs, 0, by omega, ?_, ?_⟩
    · rw [hview, BitBuf.eq_empty hzero, BitBuf.view_empty, append_nil]
      exact (append_nil _).symm
    · rw [append_nil, show sent pc out = _ from hsent, if_pos rfl, append_nil]

theorem yields_write (p : Str) :
    Yields (write next pc .empty p) fun r => r.2 = .empty ∧ Coded pc p r.1 := by
  unfold write
  split
  next hp =>
    rw [hp]
    exact .pure ⟨rfl, [], 0, by omega, rfl, rfl⟩
  · refine (yields_writeProtectedPrefix next hpc (p.take 14) (by decide)).bind fun r1 h1 => ?_
    refine (yields_alignBytes next hpc (p.drop 14) h1.1).bind fun r2 h2 => ?_
    refine (yields_batchLoop next hpc r2.2.2).bind fun r3 h3 => ?_
    refine (yields_tripleLoop next hpc r3.2).bind fun r4 h4 => ?_
    obtain ⟨d2, hd2, he2, haligned⟩ := h2
    refine (yields_pushBytes next hpc r4.2 he2.1).bind fun r5 h5 => ?_
    obtain ⟨d3, hd3, he3⟩ := h3
    obtain ⟨d4, hd4, he4, -, -⟩ := h4
    -- if bytes are left for the loops in the middle, no bits are over
    have hd : ∀ d, (d.flatMap byteBits ≠ [] → d ≠ []) := by
      rintro d h rfl
      exact h rfl
    have halign3 : d3.flatMap byteBits ≠ [] → r2.2.1.count = 0 := by
      intro h
      apply haligned
      rw [hd3]
      exact append_ne_nil_of_left_ne_nil (hd d3 h) _
    have halign4 : d4.flatMap byteBits ≠ [] → r2.2.1.count = 0 := by
      intro h
      apply haligned
      rw [hd3, hd4, ← append_assoc]
      exact append_ne_nil_of_left_ne_nil
        (append_ne_nil_of_right_ne_nil _ (hd d4 h)) _
    have hall := (((h1.trans he2).sends he3 halign3).sends he4 halign4).trans h5
    have hp : p = p.take 14 ++ d2 ++ d3 ++ d4 ++ r4.2 := by
      rw [append_assoc _ d4, ← hd4, append_assoc _ d3, ← hd3, append_assoc, ← hd2, take_append_drop]
    rw [← flatMap_append, ← flatMap_append, ← flatMap_append, ← flatMap_append, ← hp] at hall
    refine (yields_fillGroup next hpc hall).bind fun o6 h6 => ?_
    refine (yields_maybeAppendPackedPadding next hpc).bind fun o7 h7 => .pure ⟨?_, ?_⟩
    · split
      · rfl
      next hzero =>
        exact BitBuf.eq_empty (Nat.eq_zero_of_not_pos hzero)
    · obtain ⟨gs, fill, hfill, hbits, hsent⟩ := h6
      refine ⟨gs, fill, hfill, hbits, ?_⟩
      rw [sent_append, h7, append_nil]
      exact hsent

theorem yields_flush : Yields (flush next pc .empty) fun r => r.2 = .empty ∧ Coded pc [] r.1 := by
  refine (yields_maybeAppendPackedPadding next hpc).bind fun pad hpad => .pure ⟨rfl, ?_⟩
  exact ⟨[], 0, by omega, rfl, hpad⟩

end

/-! ### Reading -/

def packedReadSize (decodedRemaining maxRaw : Nat) : Nat :=
  if maxRaw ≤ 64 ∨ decodedRemaining = 0 then maxRaw
  else if (maxRaw - 64) / 2 < decodedRemaining then maxRaw
  else decodedRemaining * 2 + 64

section
variable (pc : Config) (grow : Nat → Nat) (n : Nat)

def takeByte (d : Decoding BitBuf) (b : UInt8) : Option (Decoding BitBuf) :=
  if pc.layout.hintTable b = false then
    some (if b = pc.padMarker then { d with state := .empty } else d)
  else
    let group := pc.layout.decodePackedGroup b
    if group.2 = false then none
    else
      let s := d.state.push 6 group.1.toNat (by omega)
      if 8 ≤ s.count then
        let count := s.count - 8
        some { appendDecodedByte grow n d (UInt8.ofNat (s.buf >>> count)) with
          state := .keep s.buf count }
      else some { d with state := s }

def unpackGroups (g1 g2 g3 g4 : UInt8) : Str :=
  [g1 <<< 2 ||| g2 >>> 4, g2 <<< 4 ||| g3 >>> 2, g3 <<< 6 ||| g4]

def chunkLoop (d : Decoding BitBuf) : Str → Option (Decoding BitBuf)
  | [] => some d
  | a :: b :: c :: e :: rest =>
    if d.state.count = 0 ∧ d.out.length + 3 ≤ n ∧ pc.layout.hintTable a ∧ pc.layout.hintTable b ∧
        pc.layout.hintTable c ∧ pc.layout.hintTable e then
      let bytes := unpackGroups (pc.layout.decodeGroup a) (pc.layout.decodeGroup b)
        (pc.layout.decodeGroup c) (pc.layout.decodeGroup e)
      chunkLoop { d with out := d.out ++ bytes } rest
    else
      match takeByte pc grow n d a with
      | none => none
      | some d => chunkLoop d (b :: c :: e :: rest)
  | a :: rest =>
    match takeByte pc grow n d a with
    | none => none
    | some d => chunkLoop d rest

theorem packedReadSize_pos (m : Nat) : 0 < packedReadSize m 32768 := by
  unfold packedReadSize
  split
  · omega
  · split <;> omega

def decoder : Decoder BitBuf where
  loop n := chunkLoop pc grow n
  readSize m := packedReadSize m 32768
  fail
    | .eof, _ => .empty
    | .other _, s => s
  readSize_pos := packedReadSize_pos

def reader : Reader BitBuf := ⟨.empty, PendingBuffer.newPendingBuffer 4096⟩

def step (s : BitBuf) (b : UInt8) : Option (BitBuf × Str) :=
  if pc.layout.hintTable b = false then some (if b = pc.padMarker then .empty else s, [])
  else
    let group := pc.layout.decodePackedGroup b
    if group.2 = false then none
    else
      let s := s.push 6 group.1.toNat (by omega)
      if 8 ≤ s.count then
        let count := s.count - 8
        some (.keep s.buf count, [UInt8.ofNat (s.buf >>> count)])
      else some (s, [])

theorem takeByte_eq (d : Decoding BitBuf) (b : UInt8) :
    takeByte pc grow n d b = (feed (step pc) d.state [b]).map (d.absorb grow n) := by
  unfold takeByte feed step
  split
  · split <;> rfl
  · dsimp only
    split
    · rfl
    · split <;> rfl

end

section
variable {pc : Config} (hpc : pc.Sound)
include hpc

theorem step_group {s : BitBuf} (hs : s.count < 8) {b : UInt8}
    (hb : pc.layout.hintTable b = true) : ∃ s' out, step pc s b = some (s', out) ∧
      s.view ++ lowBits 6 (pc.layout.decodeGroup b).toNat = out.flatMap byteBits ++ s'.view ∧
      s'.count < 8 := by
  have hview := s.view_push (by omega : 0 < 6) (hpc.layout.decode_lt b)
  have hcount : (s.push 6 (pc.layout.decodeGroup b).toNat (by omega)).count = s.count + 6 := rfl
  rw [step, if_neg (by rw [hb]; exact Bool.noConfusion)]
  dsimp only [ByteLayout.decodePackedGroup]
  rw [if_neg (by rw [hpc.layout.groupValid b hb]; exact Bool.noConfusion), ← hview]
  generalize s.push 6 (pc.layout.decodeGroup b).toNat _ = q at *
  split
  next hle =>
    refine ⟨_, _, rfl, ?_, ?_⟩
    · rw [flatMap_singleton, BitBuf.view_keep, byteBits, UInt8.toNat_ofNat', lowBits_mod 8 _
        (le_refl 8), ← lowBits_add, add_sub_of_le hle]
      rfl
    · change q.count - 8 < 8
      omega
  next hlt =>
    exact ⟨_, _, rfl, rfl, Nat.lt_of_not_le hlt⟩

theorem feed_groups {s : BitBuf} (hs : s.count < 8) {bs : Str}
    (hbs : ∀ b ∈ bs, pc.layout.hintTable b = true) : ∃ s' out, feed (step pc) s bs = some (s', out) ∧
      s.view ++ bs.flatMap (fun b => lowBits 6 (pc.layout.decodeGroup b).toNat) =
        out.flatMap byteBits ++ s'.view ∧ s'.count < 8 := by
  induction bs generalizing s with
  | nil => exact ⟨s, [], rfl, append_nil _, hs⟩
  | cons b bs ih =>
    obtain ⟨s₁, out₁, hstep, hview₁, hs₁⟩ := step_group hpc hs (hbs b mem_cons_self)
    obtain ⟨s₂, out₂, hfeed, hview₂, hs₂⟩ := ih hs₁ fun c hc => hbs c (mem_cons_of_mem b hc)
    refine ⟨s₂, out₁ ++ out₂, ?_, ?_, hs₂⟩
    · rw [feed_cons hstep, hfeed]
      rfl
    · rw [flatMap_cons, ← append_assoc, hview₁, append_assoc, hview₂, flatMap_append, append_assoc]

omit hpc in
theorem byteBits_inj (x y : UInt8) (h : byteBits x = byteBits y) : x = y :=
  UInt8.toNat_inj.mp (eq_of_lowBits_eq x.toNat_lt y.toNat_lt h)

omit hpc in
theorem length_byteBits (x : UInt8) : (byteBits x).length = 8 := length_lowBits 8 _

omit hpc in
theorem bits_unpackGroups {g1 g2 g3 g4 : UInt8} (h2 : g2.toNat < 64)
    (h3 : g3.toNat < 64) (h4 : g4.toNat < 64) :
    (unpackGroups g1 g2 g3 g4).flatMap byteBits =
      lowBits 6 g1.toNat ++ lowBits 6 g2.toNat ++ lowBits 6 g3.toNat ++ lowBits 6 g4.toNat := by
  have hx : byteBits (g1 <<< 2 ||| g2 >>> 4) = lowBits 6 g1.toNat ++ lowBits 2 (g2.toNat >>> 4) := by
    refine bits_join (b := 2) (by omega) _ ?_
    change g2.toNat >>> 4 < 2 ^ 2
    omega
  have hy : byteBits (g2 <<< 4 ||| g3 >>> 2) = lowBits 4 g2.toNat ++ lowBits 4 (g3.toNat >>> 2) := by
    refine bits_join (b := 4) (by omega) _ ?_
    change g3.toNat >>> 2 < 2 ^ 4
    omega
  have hz : byteBits (g3 <<< 6 ||| g4) = lowBits 2 g3.toNat ++ lowBits 6 g4.toNat := by
    exact bits_join (b := 6) (by omega) _ h4
  rw [lowBits_add 2 4 g2.toNat, lowBits_add 4 2 g3.toNat]
  simp [unpackGroups, hx, hy, hz]

theorem feed_four {a b c e : UInt8} (ha : pc.layout.hintTable a = true)
    (hb : pc.layout.hintTable b = true) (hc : pc.layout.hintTable c = true)
    (he : pc.layout.hintTable e = true) :
    feed (step pc) .empty [a, b, c, e] = some (.empty, unpackGroups (pc.layout.decodeGroup a)
      (pc.layout.decodeGroup b) (pc.layout.decodeGroup c) (pc.layout.decodeGroup e)) := by
  have hlt := hpc.layout.decode_lt
  have hall : ∀ x ∈ [a, b, c, e], pc.layout.hintTable x = true := by simp [ha, hb, hc, he]
  obtain ⟨s, out, hfeed, hview, hs⟩ := feed_groups hpc (s := .empty) (by decide) hall
  have hcut : out.flatMap byteBits ++ s.view = (unpackGroups (pc.layout.decodeGroup a)
      (pc.layout.decodeGroup b) (pc.layout.decodeGroup c) (pc.layout.decodeGroup e)).flatMap
        byteBits ++ [] := by
    rw [bits_unpackGroups (hlt b) (hlt c) (hlt e), ← hview]
    simp [BitBuf.view_empty]
  obtain ⟨rfl, hnil⟩ := cut_unique length_byteBits byteBits_inj (by rwa [BitBuf.length_view])
    (by decide) hcut
  have hcount : s.count = 0 := by rw [← BitBuf.length_view, hnil]; rfl
  rw [hfeed, BitBuf.eq_empty hcount]

theorem chunkLoop_eq (grow : Nat → Nat) (n : Nat) (d : Decoding BitBuf) (chunk : Str) :
    chunkLoop pc grow n d chunk = (feed (step pc) d.state chunk).map (d.absorb grow n) := by
  fun_induction chunkLoop pc grow n d chunk with
  | case1 d => rfl
  | case2 d a b c e rest hfast bytes ih =>
    obtain ⟨hcount, hroom, ha, hb, hc, he⟩ := hfast
    have hstate := BitBuf.eq_empty hcount
    have hfour : feed (step pc) d.state [a, b, c, e] = some (.empty, bytes) := by
      rw [hstate]
      exact feed_four hpc ha hb hc he
    have habsorb : d.absorb grow n (.empty, bytes) = { d with out := d.out ++ bytes } := by
      rw [Decoding.absorb_of_room grow hroom, hstate]
    rw [ih, show a :: b :: c :: e :: rest = [a, b, c, e] ++ rest from rfl,
      Decoding.map_absorb_append grow hfour, habsorb, hstate]
  | case3 d a b c e rest hslow hmiss =>
    rw [takeByte_eq] at hmiss
    exact (Decoding.map_absorb_of_none grow hmiss _).symm
  | case4 d a b c e rest hslow d' htake ih =>
    rw [takeByte_eq] at htake
    rw [ih]
    exact (Decoding.map_absorb_of_some grow htake _).symm
  | case5 d a rest hshort hmiss =>
    rw [takeByte_eq] at hmiss
    exact (Decoding.map_absorb_of_none grow hmiss rest).symm
  | case6 d a rest hshort d' htake ih =>
    rw [takeByte_eq] at htake
    rw [ih]
    exact (Decoding.map_absorb_of_some grow htake rest).symm

theorem follows (grow : Nat → Nat) : (decoder pc grow).Follows grow (step pc) (· = .eof) where
  loop_eq n := chunkLoop_eq hpc grow n
  fail_eq e s h := by
    cases e with
    | eof => exact absurd rfl h
    | other id => rfl

omit hpc in
theorem feed_sent (s : BitBuf) (out : Str) :
    feed (step pc) s out = feed (step pc) s (sent pc out) := by
  induction out generalizing s with
  | nil => rfl
  | cons b out ih =>
    by_cases hb : pc.layout.hintTable b || b == pc.padMarker
    · have hkeep : sent pc (b :: out) = b :: sent pc out := by
        rw [sent, filter_cons, if_pos hb]
        rfl
      rw [hkeep, feed, feed]
      cases step pc s b with
      | none => rfl
      | some r =>
        dsimp only
        rw [ih]
    · have hdrop : sent pc (b :: out) = sent pc out := by
        rw [sent, filter_cons, if_neg hb]
        rfl
      rw [Bool.or_eq_true, not_or, Bool.not_eq_true, beq_iff_eq] at hb
      have hskip : step pc s b = some (s, []) := by rw [step, if_pos hb.1, if_neg hb.2]
      rw [feed_cons hskip, ih, hdrop]
      simp

theorem Coded.feed_eq {p out : Str} (h : Coded pc p out) :
    feed (step pc) .empty out = some (.empty, p) := by
  obtain ⟨gs, fill, hfill, hbits, hsent⟩ := h
  have hdecode : ∀ g, lowBits 6 (pc.layout.decodeGroup (pc.layout.encodeGroup g)).toNat =
      groupBits g := by
    intro g
    rw [hpc.layout.decode_group g]
    exact congrArg (lowBits 6) (mod_eq_of_lt (by omega))
  have hhint : ∀ b ∈ gs.map pc.layout.encodeGroup, pc.layout.hintTable b = true := by
    intro b hb
    obtain ⟨g, -, rfl⟩ := mem_map.mp hb
    exact hpc.layout.group g
  obtain ⟨s, bytes, hfeed, hview, hs⟩ := feed_groups hpc (s := .empty) (by decide) hhint
  rw [flatMap_map, flatMap_congr fun g _ => hdecode g, hbits] at hview
  obtain ⟨rfl, hrest⟩ := cut_unique length_byteBits byteBits_inj
    (by rw [length_replicate]; omega) (by rwa [BitBuf.length_view]) hview
  have hcount : s.count = fill := by
    rw [← BitBuf.length_view, ← hrest, length_replicate]
  rw [feed_sent, hsent]
  split
  next hzero =>
    rw [append_nil, hfeed, BitBuf.eq_empty (hcount.trans hzero)]
  · have hmarker : step pc s pc.padMarker = some (.empty, []) := by
      rw [step, if_pos hpc.marker, if_pos rfl]
    have hlast : feed (step pc) s [pc.padMarker] = some (.empty, []) := by
      rw [feed_cons hmarker]
      rfl
    have htrans := feed_trans hfeed hlast
    rwa [append_nil] at htrans

end

/-! ### Runs of the writer -/

inductive Op where
  | write (p : Str)
  | flush

def Op.payload : Op → Str
  | .write p => p
  | .flush => []

section
variable {R : Type} (next : R → UInt32 × R) (pc : Config)

def apply (s : BitBuf) : Op → Draws R (Str × BitBuf)
  | .write p => write next pc s p
  | .flush => flush next pc s

def applyAll (s : BitBuf) : List Op → Draws R (List (Str × BitBuf))
  | [] => pure []
  | op :: ops => do
    let r ← apply next pc s op
    let rest ← applyAll r.2 ops
    return r :: rest

end

theorem yields_applyAll {R : Type} (next : R → UInt32 × R) {pc : Config} (hpc : pc.Sound)
    (ops : List Op) : Yields (applyAll next pc .empty ops) fun rs =>
      List.Forall₂ (fun r op => r.2 = .empty ∧ Coded pc op.payload r.1) rs ops := by
  induction ops with
  | nil => exact .pure .nil
  | cons op ops ih =>
    have happly : Yields (apply next pc .empty op) fun r =>
        r.2 = .empty ∧ Coded pc op.payload r.1 := by
      cases op with
      | write p => exact yields_write next hpc p
      | flush => exact yields_flush next hpc
    refine happly.bind fun r hr => ?_
    rw [hr.1]
    exact ih.bind fun rs hrs => .pure (.cons hr hrs)

/-- Every run of writes and flushes leaves no bits over after any call and sends the code of its
payloads, and a reader hands over exactly their concatenation. -/
theorem packed_delivers {draw : Str → (i : Nat) → Fin (i + 1)} {key mode customPattern : Str} {t : Table}
    (ht : newSingleDirectionTable draw key mode customPattern = .ok t) {R : Type}
    (next : R → UInt32 × R) (paddingThreshold : Nat) (grow : Nat → Nat) (ops : List Op) (r : R) :
    let pc := newPackedConn t paddingThreshold
    ∃ calls r', applyAll next pc .empty ops r = some (calls, r') ∧
      List.Forall₂ (fun call op => call.2.count = 0 ∧ Coded pc op.payload call.1) calls ops ∧
      ∀ src : Source, src.bytes = calls.flatMap Prod.fst → src.EndsAt (· = .eof) →
        (decoder pc grow).Delivers reader src (ops.flatMap Op.payload) := by
  intro pc
  have hpc : pc.Sound := newPackedConn_sound (newSingleDirectionTable_sound ht) paddingThreshold
  obtain ⟨calls, r', hcalls, hall⟩ := yields_applyAll next hpc ops r
  refine ⟨calls, r', hcalls, hall.imp fun call op h => ⟨by rw [h.1]; rfl, h.2⟩, ?_⟩
  intro src hsrc hends
  have hblocks : List.Forall₂ (fun block op => feed (step pc) .empty block =
      some (.empty, Op.payload op)) (calls.map Prod.fst) ops :=
    List.forall₂_map_left_iff.mpr (hall.imp fun call op h => h.2.feed_eq hpc)
  have hfeed := feed_flatten hblocks
  rw [← List.flatMap_def, ← hsrc] at hfeed
  exact (follows hpc grow).delivers hends ⟨.empty, _, hfeed, rfl⟩

theorem packed_delivers_ascii : ∃ t, newSingleDirectionTable (fun _ => Fin.last) [] (ascii "ascii") [] =
      .ok t ∧
    ∃ calls r', applyAll (fun r : UInt32 => (r, r + 0x9E3779B9)) (newPackedConn t probOne) .empty
        [.write (ascii "hello"), .flush, .write (ascii "!")] 1 = some (calls, r') ∧
      ∀ src : Source, src.bytes = calls.flatMap Prod.fst → src.EndsAt (· = .eof) →
        (decoder (newPackedConn t probOne) id).Delivers reader src (ascii "hello!") := by
  have htable : newSingleDirectionTable (fun _ => Fin.last) [] (ascii "ascii") [] = .ok _ := rfl
  obtain ⟨calls, r', hcalls, -, hdelivers⟩ := packed_delivers htable
    (fun r : UInt32 => (r, r + 0x9E3779B9)) probOne id
    [.write (ascii "hello"), .flush, .write (ascii "!")] 1
  exact ⟨_, htable, calls, r', hcalls, hdelivers⟩

end Packed

end Mihomo.Sudoku
