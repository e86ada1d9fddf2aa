import Mathlib.Order.Bounds.Basic
import Mihomo.Lib.Run
import Mihomo.Sniffer.Bitmap

/-!
# The crypto stream of QUIC Initial packets (component/sniffer/quic_sniffer.go, addCryptoData)

CRYPTO frames carry pieces of one stream in any order. The bytes go into a buffer that is replaced by a
larger one of a pool when they do not fit; a buffer of the pool still has the bytes of its last user. A
bitmap says which bytes have been received.
-/

namespace Mihomo.Sniffer
open Lib List Nat
def maxCryptoStreamOffset : Nat := 64 * (1 <<< 10)

def writeAt (mem : List UInt8) (offset : Nat) (data : List UInt8) : List UInt8 :=
  mem.take offset ++ data ++ mem.drop (offset + data.length)

variable {offset : Nat} {mem data : List UInt8}

theorem length_writeAt (h : offset + data.length ≤ mem.length) :
    (writeAt mem offset data).length = mem.length := by
  simp only [writeAt, length_append, length_take, length_drop]
  omega

theorem getElem?_writeAt (h : offset + data.length ≤ mem.length)
    (i : Nat) :
    (writeAt mem offset data)[i]? =
      if offset ≤ i ∧ i < offset + data.length then data[i - offset]? else mem[i]? := by
  have htake : (mem.take offset).length = offset := by
    rw [length_take]
    omega
  rw [writeAt, append_assoc, getElem?_append, htake]
  by_cases hbefore : i < offset
  · rw [if_pos hbefore, if_neg (by omega), getElem?_take_of_lt hbefore]
  · rw [if_neg hbefore, getElem?_append]
    by_cases hin : i - offset < data.length
    · rw [if_pos hin, if_pos (by omega)]
    · rw [if_neg hin, if_neg (by omega), getElem?_drop]
      congr 1
      omega

structure Buffer where
  mem : List UInt8 := []
  len : Nat := 0
  le : len ≤ mem.length := by exact Nat.le_refl _

def poolCap (size : Nat) : Nat :=
  if 65536 < size then size
  else if size ≤ 64 then 64
  else if size = 2 ^ size.log2 then size
  else 2 ^ (size.log2 + 1)

theorem le_poolCap (size : Nat) : size ≤ poolCap size := by
  have hlt := @Nat.lt_log2_self size
  unfold poolCap
  split_ifs <;> omega

/-- `pool.Get`, with the bytes of the last user. -/
def poolGet (stale : Nat → UInt8) (size : Nat) : Buffer where
  mem := (List.range (poolCap size)).map stale
  len := size
  le := by
    rw [List.length_map, List.length_range]
    exact le_poolCap size

namespace Buffer

def visible (b : Buffer) : List UInt8 := b.mem.take b.len

theorem length_visible (b : Buffer) : b.visible.length = b.len := by
  rw [visible, length_take]
  exact min_eq_left b.le

/-- `copy(buffer[offset:end], data)`; `none` is the panic of the slice expression. -/
def write (b : Buffer) (offset : Nat) (data : List UInt8) : Option Buffer :=
  if h : offset + data.length ≤ b.len then
    some ⟨writeAt b.mem offset data, b.len, by
      rw [length_writeAt (h.trans b.le)]
      exact b.le⟩
  else none

def reserve (b : Buffer) (stale : Nat → UInt8) (stop : Nat) : Option Buffer :=
  if b.mem.length < stop then (poolGet stale stop).write 0 b.visible
  else if h : b.len < stop ∧ stop ≤ b.mem.length then some ⟨b.mem, stop, h.2⟩
  else some b

end Buffer

structure Sender where
  buffer : Buffer := {}
  receivedCryptoData : Bitmap := {}
  contiguousCryptoEnd : Nat := 0
  closed : Bool := false

structure Frame where
  offset : Nat
  data : List UInt8

/-- `io.ErrShortBuffer`. -/
inductive CryptoError where
  | shortBuffer
deriving DecidableEq

/-- The state after the call and the error; `none` is a panic. `stale` is what a buffer of the pool
holds, if one is taken. -/
def Sender.addCryptoData (q : Sender) (f : Frame) (stale : Nat → UInt8) :
    Option (Sender × Option CryptoError) :=
  if f.data.length = 0 then some (q, none)
  else if maxCryptoStreamOffset < f.offset ∨ maxCryptoStreamOffset - f.offset < f.data.length then
    some (q, some .shortBuffer)
  else
    let stop := f.offset + f.data.length
    if q.closed then some (q, none)
    else do
      let buffer ← q.buffer.reserve stale stop
      let buffer ← buffer.write f.offset f.data
      let received ← q.receivedCryptoData.setRange f.offset stop
      if f.offset ≤ q.contiguousCryptoEnd ∧ q.contiguousCryptoEnd < stop then
        let contiguous ← received.firstUnset q.contiguousCryptoEnd buffer.len
        some (⟨buffer, received, contiguous, false⟩, none)
      else some (⟨buffer, received, q.contiguousCryptoEnd, false⟩, none)

def Sender.add (q : Sender) (f : Frame × (Nat → UInt8)) : Except Unit Sender :=
  match q.addCryptoData f.1 f.2 with
  | some (q, none) => .ok q
  | _ => .error ()

/-! ### What the frames say -/

namespace Frame

def Covers (f : Frame) (i : Nat) : Prop := f.offset ≤ i ∧ i < f.offset + f.data.length

def Agrees (stream : List UInt8) (f : Frame) : Prop :=
  ∀ i, f.Covers i → stream[i]? = f.data[i - f.offset]?

def Beyond (f : Frame) : Prop := ∃ i, maxCryptoStreamOffset ≤ i ∧ f.Covers i

variable {f : Frame} {stream : List UInt8}

theorem Agrees.lt (h : f.Agrees stream) {i : Nat} (hi : f.Covers i) : i < stream.length := by
  have hget := h i hi
  rw [getElem?_eq_getElem (show i - f.offset < f.data.length by unfold Covers at hi; omega)] at hget
  exact (List.getElem?_eq_some_iff.mp hget).1

theorem Agrees.stop_le (h : f.Agrees stream)
    (hne : f.data.length ≠ 0) : f.offset + f.data.length ≤ stream.length := by
  have hlast := h.lt (i := f.offset + f.data.length - 1) ⟨by omega, by omega⟩
  omega

end Frame

/-! ### Buffers -/

namespace Buffer

theorem write_spec {b : Buffer} {offset : Nat} {data : List UInt8} (h : offset + data.length ≤ b.len) :
    ∃ b', b.write offset data = some b' ∧ b'.len = b.len ∧ ∀ i, b'.mem[i]? =
      if offset ≤ i ∧ i < offset + data.length then data[i - offset]? else b.mem[i]? := by
  unfold write
  rw [dif_pos h]
  exact ⟨_, rfl, rfl, getElem?_writeAt (h.trans b.le)⟩

theorem reserve_spec (b : Buffer) (stale : Nat → UInt8) (stop : Nat) :
    ∃ b', b.reserve stale stop = some b' ∧ stop ≤ b'.len ∧ b.len ≤ b'.len ∧
      ∀ i < b.len, b'.mem[i]? = b.mem[i]? := by
  unfold reserve
  split
  · have hle := b.le
    have hroom : 0 + b.visible.length ≤ (poolGet stale stop).len := by
      rw [length_visible]
      change 0 + b.len ≤ stop
      omega
    obtain ⟨b', hwrite, hlen, hmem⟩ := write_spec hroom
    have hstop : b'.len = stop := hlen
    refine ⟨b', hwrite, by omega, by omega, fun i hi => ?_⟩
    rw [hmem, if_pos ⟨Nat.zero_le i, by rw [length_visible]; omega⟩]
    exact getElem?_take_of_lt hi
  · split
    next h =>
      exact ⟨_, rfl, le_refl _, le_of_lt h.1, fun _ _ => rfl⟩
    · exact ⟨b, rfl, by omega, le_refl _, fun _ _ => rfl⟩

end Buffer

/-! ### The state after some frames -/

/-- The bitmap says which bytes are covered, the buffer has them, and the prefix ends at the first one
that is missing. -/
structure Sender.Holds (stream : List UInt8) (covered : Nat → Prop) (q : Sender) : Prop where
  opened : q.closed = false
  bits : ∀ i, q.receivedCryptoData.bit i = true ↔ covered i
  inside : ∀ i, covered i → i < q.buffer.len
  bytes : ∀ i, covered i → q.buffer.mem[i]? = stream[i]?
  contiguous : ∀ i < q.contiguousCryptoEnd, covered i
  missing : ¬ covered q.contiguousCryptoEnd

namespace Sender.Holds

variable {stream : List UInt8} {covered : Nat → Prop} {q : Sender}

theorem congr (h : q.Holds stream covered) {covered' : Nat → Prop} (heq : ∀ i, covered i ↔ covered' i) :
    q.Holds stream covered' := by
  obtain rfl : covered = covered' := funext fun i => propext (heq i)
  exact h

theorem contiguous_le (h : q.Holds stream covered) : q.contiguousCryptoEnd ≤ q.buffer.len := by
  cases hend : q.contiguousCryptoEnd with
  | zero => exact zero_le _
  | succ n => exact h.inside n (h.contiguous n (by omega))

theorem newSender (stream : List UInt8) : ({} : Sender).Holds stream fun _ => False := by
  refine ⟨rfl, fun i => ?_, fun i h => h.elim, fun i h => h.elim, fun i hi => ?_, fun h => h⟩
  · refine iff_of_false ?_ fun h => h
    change ¬ (0#64).getLsbD (i % 64) = true
    rw [BitVec.getLsbD_zero]
    exact Bool.false_ne_true
  · exact absurd hi (not_lt_zero i)

variable {f : Frame}

theorem store (h : q.Holds stream covered) (hagrees : f.Agrees stream)
    (stale : Nat → UInt8) :
    ∃ b₁ b₂ bits, q.buffer.reserve stale (f.offset + f.data.length) = some b₁ ∧
      b₁.write f.offset f.data = some b₂ ∧
      q.receivedCryptoData.setRange f.offset (f.offset + f.data.length) = some bits ∧
      q.buffer.len ≤ b₂.len ∧ (∀ i, bits.bit i = true ↔ covered i ∨ f.Covers i) ∧
      (∀ i, covered i ∨ f.Covers i → i < b₂.len) ∧
      ∀ i, covered i ∨ f.Covers i → b₂.mem[i]? = stream[i]? := by
  obtain ⟨b₁, hreserve, hroom, hgrown, hkept⟩ :=
    q.buffer.reserve_spec stale (f.offset + f.data.length)
  obtain ⟨b₂, hwrite, hlen, hmem⟩ := Buffer.write_spec hroom
  obtain ⟨bits, hset, hbits⟩ :=
    q.receivedCryptoData.setRange_spec (le_add_right f.offset f.data.length)
  refine ⟨b₁, b₂, bits, hreserve, hwrite, hset, by omega, ?_, ?_, ?_⟩
  · intro i
    rw [hbits, Bool.or_eq_true, h.bits, decide_eq_true_iff]
    rfl
  · intro i hi
    rcases hi with hi | hi
    · have := h.inside i hi
      omega
    · have := hi.2
      omega
  · intro i hi
    rw [hmem]
    split
    next hcovers =>
      exact (hagrees i hcovers).symm
    next hcovers =>
      have hi := hi.resolve_right hcovers
      rw [hkept i (h.inside i hi)]
      exact h.bytes i hi

theorem add (h : q.Holds stream covered) (hstream : stream.length ≤ maxCryptoStreamOffset)
    (hagrees : f.Agrees stream) (stale : Nat → UInt8) :
    ∃ q', q.add (f, stale) = .ok q' ∧ q'.Holds stream fun i => covered i ∨ f.Covers i := by
  by_cases hempty : f.data.length = 0
  · have hnone : ∀ i, ¬ f.Covers i := by
      intro i hi
      unfold Frame.Covers at hi
      omega
    refine ⟨q, ?_, h.congr fun i => (or_iff_left (hnone i)).symm⟩
    simp only [Sender.add, addCryptoData, if_pos hempty]
  · have hstop := hagrees.stop_le hempty
    have hbound : ¬ (maxCryptoStreamOffset < f.offset ∨
        maxCryptoStreamOffset - f.offset < f.data.length) := by omega
    obtain ⟨b₁, b₂, bits, hreserve, hwrite, hset, hgrown, hbits, hinside, hbytes⟩ :=
      h.store hagrees stale
    simp only [Sender.add, addCryptoData, if_neg hempty, if_neg hbound, h.opened, hreserve, hwrite,
      hset, Option.bind_eq_bind, Option.bind_some]
    by_cases hin : f.offset ≤ q.contiguousCryptoEnd ∧
        q.contiguousCryptoEnd < f.offset + f.data.length
    · -- The first missing byte has come: the prefix goes on to the next gap.
      have hle := h.contiguous_le
      obtain ⟨r, hunset, hlow, hr, hall, hgap⟩ :=
        bits.firstUnset_spec (show q.contiguousCryptoEnd ≤ b₂.len by omega)
      rw [if_pos hin, hunset]
      refine ⟨_, rfl, rfl, hbits, hinside, hbytes, fun i hi => ?_, fun hcovered => ?_⟩
      · by_cases hlt : i < q.contiguousCryptoEnd
        · exact .inl (h.contiguous i hlt)
        · exact (hbits i).mp (hall i (by omega) hi)
      · have hset := (hbits r).mpr hcovered
        rw [hgap (hinside r hcovered)] at hset
        cases hset
    · rw [if_neg hin]
      refine ⟨_, rfl, rfl, hbits, hinside, hbytes, fun i hi => .inl (h.contiguous i hi), ?_⟩
      intro hcovered
      rcases hcovered with hcovered | hcovers
      · exact h.missing hcovered
      · exact hin hcovers

theorem addAll (h : q.Holds stream covered) (hstream : stream.length ≤ maxCryptoStreamOffset)
    {frames : List (Frame × (Nat → UInt8))} (hagree : ∀ f ∈ frames, f.1.Agrees stream) :
    ∃ q', exec Sender.add q frames = .ok q' ∧
      q'.Holds stream fun i => covered i ∨ ∃ f ∈ frames, f.1.Covers i := by
  induction frames generalizing q covered with
  | nil => exact ⟨q, rfl, h.congr fun i => by simp⟩
  | cons f frames ih =>
    rw [forall_mem_cons] at hagree
    obtain ⟨q₁, hadd, hq₁⟩ := h.add hstream hagree.1 f.2
    obtain ⟨q₂, hrest, hq₂⟩ := ih hq₁ hagree.2
    refine ⟨q₂, ?_, hq₂.congr fun i => ?_⟩
    · rw [exec, hadd]
      exact hrest
    · simp [or_assoc]

end Sender.Holds

theorem Frame.Beyond.rejected {f : Frame} (h : f.Beyond) (q : Sender) (stale : Nat → UInt8) :
    q.addCryptoData f stale = some (q, some .shortBuffer) := by
  obtain ⟨i, hi, hlow, hhigh⟩ := h
  unfold Sender.addCryptoData
  rw [if_neg (by omega), if_pos (by omega)]

/-- After any sequence of frames of a stream the end of the contiguous bytes is the length of the
longest covered prefix of the stream, and the buffer starts with that prefix; a frame that reaches
beyond the bound is rejected and changes nothing. -/
theorem crypto_stream_assembled (stream : List UInt8) (hstream : stream.length ≤ maxCryptoStreamOffset)
    (frames : List (Frame × (Nat → UInt8))) (hagree : ∀ f ∈ frames, f.1.Agrees stream) :
    (∃ q, exec Sender.add {} frames = .ok q ∧
      IsGreatest {n | n ≤ stream.length ∧ ∀ i < n, ∃ f ∈ frames, f.1.Covers i} q.contiguousCryptoEnd ∧
      q.buffer.visible.take q.contiguousCryptoEnd = stream.take q.contiguousCryptoEnd) ∧
    ∀ (q : Sender) (f : Frame) (stale : Nat → UInt8), f.Beyond →
      q.addCryptoData f stale = some (q, some .shortBuffer) := by
  refine ⟨?_, fun q f stale hbeyond => hbeyond.rejected q stale⟩
  obtain ⟨q, hrun, hq⟩ := (Sender.Holds.newSender stream).addAll hstream hagree
  have hq := hq.congr fun i => iff_of_eq (false_or _)
  refine ⟨q, hrun, ⟨⟨?_, hq.contiguous⟩, ?_⟩, ?_⟩
  · cases hend : q.contiguousCryptoEnd with
    | zero => exact Nat.zero_le _
    | succ n =>
      obtain ⟨f, hf, hcovers⟩ := hq.contiguous n (by omega)
      exact (hagree f hf).lt hcovers
  · rintro n ⟨-, hcovered⟩
    by_contra hlt
    exact hq.missing (hcovered _ (by omega))
  · apply List.ext_getElem?
    intro i
    have hle := hq.contiguous_le
    by_cases hi : i < q.contiguousCryptoEnd
    · rw [List.getElem?_take_of_lt hi, List.getElem?_take_of_lt hi, Buffer.visible,
        List.getElem?_take_of_lt (by omega)]
      exact hq.bytes i (hq.contiguous i hi)
    · rw [List.getElem?_take_eq_none (by omega), List.getElem?_take_eq_none (by omega)]

theorem crypto_stream_assembled_swapped :
    ∃ q, exec Sender.add {} [(⟨2, [3, 4]⟩, fun _ => 9), (⟨0, [1, 2, 3]⟩, fun _ => 7)] = .ok q ∧
      q.contiguousCryptoEnd ≤ 4 := by
  have hagree :
      ∀ f ∈ [((⟨2, [3, 4]⟩, fun _ => 9) : Frame × (Nat → UInt8)), (⟨0, [1, 2, 3]⟩, fun _ => 7)],
      f.1.Agrees [1, 2, 3, 4] := by
    intro f hf i hi
    simp only [List.mem_cons, List.not_mem_nil, or_false] at hf
    rcases hf with rfl | rfl
    · obtain rfl | rfl : i = 2 ∨ i = 3 := by
        have := hi.1
        have := hi.2
        simp at *
        omega
      · rfl
      · rfl
    · obtain rfl | rfl | rfl : i = 0 ∨ i = 1 ∨ i = 2 := by
        have := hi.2
        simp at *
        omega
      · rfl
      · rfl
      · rfl
  obtain ⟨⟨q, hrun, hgreatest, -⟩, -⟩ :=
    crypto_stream_assembled [1, 2, 3, 4] (by decide) _ hagree
  exact ⟨q, hrun, hgreatest.1.1⟩

end Mihomo.Sniffer
