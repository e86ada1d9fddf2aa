import Mihomo.Go.Text
import Mihomo.Lib.Transducer

/-!
# The read side of a connection (transport/sudoku/obfs/sudoku/pending.go, conn.go, packed.go)

`Conn.Read` and `PackedConn.Read` take a chunk of the raw stream, decode it, give what fits into the
caller's buffer and keep the rest. `Decoder` is what they differ in. A decoder that follows a
transducer hands over its output on the raw stream, however the stream and the buffers are cut.
-/

namespace Mihomo.Sudoku
open Go Lib List Option Nat
/-! ### pendingBuffer -/

/-- Decoded bytes; those before `off` have been read. -/
structure PendingBuffer where
  data : Str
  off : Nat
  cap : Nat
  off_le : off ≤ data.length

namespace PendingBuffer

def newPendingBuffer (capacity : Nat) : PendingBuffer := ⟨[], 0, capacity, le_refl 0⟩

def available (p : PendingBuffer) : Nat := p.data.length - p.off

def reset (p : PendingBuffer) : PendingBuffer := ⟨[], 0, p.cap, le_refl 0⟩

def ensureAppendCapacity (p : PendingBuffer) (extra : Nat) : PendingBuffer :=
  if extra = 0 ∨ p.off = 0 ∨ extra ≤ p.cap - p.data.length then p
  else ⟨p.data.drop p.off, 0, p.cap, zero_le _⟩

/-- `grow` is the capacity that `append` chooses for a length. -/
def appendByte (grow : Nat → Nat) (p : PendingBuffer) (b : UInt8) : PendingBuffer :=
  let p := p.ensureAppendCapacity 1
  { data := p.data ++ [b]
    off := p.off
    cap := if p.data.length + 1 ≤ p.cap then p.cap else grow (p.data.length + 1)
    off_le := by
      have := p.off_le
      rw [List.length_append]
      omega }

def unread (p : PendingBuffer) : Str := p.data.drop p.off

theorem length_unread (p : PendingBuffer) : p.unread.length = p.available := length_drop

theorem off_add_take_le (p : PendingBuffer) (n : Nat) :
    p.off + (p.unread.take n).length ≤ p.data.length := by
  have := p.off_le
  rw [length_take, length_unread, available]
  omega

def drainPending (n : Nat) (p : PendingBuffer) : Option (Str × PendingBuffer) :=
  if p.available = 0 then none
  else
    let out := p.unread.take n
    let p' := { p with off := p.off + out.length, off_le := p.off_add_take_le n }
    some (out, if p'.off = p'.data.length then p'.reset else p')

theorem unread_ensureAppendCapacity (p : PendingBuffer) (extra : Nat) :
    (p.ensureAppendCapacity extra).unread = p.unread := by
  unfold ensureAppendCapacity
  split <;> rfl

theorem unread_appendByte (grow : Nat → Nat) (p : PendingBuffer) (b : UInt8) :
    (p.appendByte grow b).unread = p.unread ++ [b] := by
  rw [← unread_ensureAppendCapacity p 1]
  exact drop_append_of_le_length (p.ensureAppendCapacity 1).off_le

variable {p : PendingBuffer} {n : Nat}

theorem drainPending_eq_none (h : p.unread = []) : p.drainPending n = none := by
  have havailable := p.length_unread
  rw [h] at havailable
  exact if_pos havailable.symm

theorem drainPending_of_ne (h : p.unread ≠ []) (hn : 0 < n) :
    ∃ out p', p.drainPending n = some (out, p') ∧ p.unread = out ++ p'.unread ∧ out ≠ [] ∧
      out.length ≤ n := by
  have havailable : p.available ≠ 0 := by
    rw [← length_unread]
    exact length_eq_zero_iff.not.mpr h
  refine ⟨_, _, if_neg havailable, ?_, ?_, length_take_le n _⟩
  · have hdrop : p.unread.drop n = p.data.drop (p.off + (p.unread.take n).length) := by
      by_cases hle : n ≤ p.unread.length
      · rw [length_take, min_eq_left hle, unread, drop_drop]
      · have hall : p.unread.length = p.data.length - p.off := p.length_unread
        rw [take_of_length_le (by omega), drop_of_length_le (by omega), drop_of_length_le (by omega)]
    conv_lhs => rw [← take_append_drop n p.unread, hdrop]
    congr 1
    split
    next hend =>
      exact drop_of_length_le hend.ge
    · rfl
  · intro hempty
    rcases take_eq_nil_iff.mp hempty with hzero | hnil
    · omega
    · exact h hnil

end PendingBuffer

/-! ### The raw stream -/

inductive RawErr where
  | eof
  | other (id : Nat)
  deriving DecidableEq

/-- What the connection below gives: chunks, each with an error that may come along with its last
byte. -/
abbrev Source := List (Str × Option RawErr)

namespace Source

def bytes (src : Source) : Str := (src.map Prod.fst).flatten

/-- `readRawLimited`: one read into a buffer of `size` bytes; without a chunk it waits. -/
def read (size : Nat) : Source → Option (Str × Option RawErr × Source)
  | [] => none
  | (chunk, err) :: rest =>
    if chunk.length ≤ size then some (chunk, err, rest)
    else some (chunk.take size, none, (chunk.drop size, err) :: rest)

def errors (src : Source) : List RawErr := src.filterMap Prod.snd

def EndsAt (ends : RawErr → Prop) : Source → Prop
  | [] => True
  | (_, err) :: rest => (∀ e ∈ err, ends e → bytes rest = []) ∧ EndsAt ends rest

variable {size : Nat} {src rest : Source} {chunk : Str} {err : Option RawErr}
  {ends : RawErr → Prop}

theorem endsAt_of_forall_not (h : ∀ e, ¬ ends e) (src : Source) : src.EndsAt ends := by
  induction src with
  | nil => trivial
  | cons p rest ih => exact ⟨fun e _ he => absurd he (h e), ih⟩

theorem read_cases (h : src.read size = some (chunk, err, rest)) :
    (src = (chunk, err) :: rest) ∨
      ∃ left e tail, left ≠ [] ∧ chunk.length = size ∧ err = none ∧
        src = (chunk ++ left, e) :: tail ∧ rest = (left, e) :: tail := by
  match src, h with
  | (c, e) :: tail, h =>
    rw [read] at h
    split at h
    · cases h
      exact .inl rfl
    next hlt =>
      cases h
      refine .inr ⟨c.drop size, e, tail, ?_, ?_, rfl, ?_, rfl⟩
      · intro hnil
        exact hlt (drop_eq_nil_iff.mp hnil)
      · exact length_take_of_le (by omega)
      · rw [take_append_drop]

theorem eq_nil_of_read (h : src.read size = none) : src = [] := by
  match src, h with
  | [], _ => rfl
  | (c, e) :: tail, h =>
    rw [read] at h
    split at h <;> cases h

theorem bytes_cons (c : Str) (e : Option RawErr) (tail : Source) :
    bytes ((c, e) :: tail) = c ++ bytes tail := rfl

section
variable (h : src.read size = some (chunk, err, rest))
include h

theorem bytes_of_read : src.bytes = chunk ++ rest.bytes := by
  rcases read_cases h with rfl | ⟨left, e, tail, -, -, -, rfl, rfl⟩
  · rfl
  · rw [bytes_cons, bytes_cons, append_assoc]

theorem errors_of_read : src.errors = err.toList ++ rest.errors := by
  rcases read_cases h with rfl | ⟨left, e, tail, -, -, rfl, rfl, rfl⟩
  · cases err <;> rfl
  · rfl

theorem endsAt_of_read (hsrc : src.EndsAt ends) :
    rest.EndsAt ends ∧ ∀ e ∈ err, ends e → rest.bytes = [] := by
  rcases read_cases h with rfl | ⟨left, e, tail, -, -, rfl, rfl, rfl⟩
  · exact ⟨hsrc.2, hsrc.1⟩
  · refine ⟨hsrc, fun e he => ?_⟩
    cases he

theorem measure_of_read (hsize : 0 < size) :
    rest.bytes.length + rest.length < src.bytes.length + src.length := by
  have hbytes := congrArg List.length (bytes_of_read h)
  rw [length_append] at hbytes
  rcases read_cases h with rfl | ⟨left, e, tail, -, hlength, -, rfl, rfl⟩
  · rw [length_cons]
    omega
  · rw [length_cons, length_cons]
    omega

end

end Source

/-! ### Reading -/

inductive ReadResult where
  | data (out : Str)
  | failed (err : RawErr)
  | blocked
  deriving DecidableEq

def ReadResult.bytes : ReadResult → Str
  | .data out => out
  | _ => []

/-- The state of a decoder in a call, the bytes in the caller's buffer and the bytes kept. -/
structure Decoding (σ : Type) where
  state : σ
  out : Str
  pending : PendingBuffer

/-- A decoded byte goes to the caller's `n` bytes while they last. -/
def appendDecodedByte {σ : Type} (grow : Nat → Nat) (n : Nat) (d : Decoding σ) (b : UInt8) :
    Decoding σ :=
  if d.out.length < n then { d with out := d.out ++ [b] }
  else { d with pending := d.pending.appendByte grow b }

/-- The parts in which the two connections differ: the loop over a chunk, which stops at hints that
stand for no byte, the size of a raw read for the bytes still wanted, and what an error from below
does to the state. -/
structure Decoder (σ : Type) where
  loop : Nat → Decoding σ → Str → Option (Decoding σ)
  readSize : Nat → Nat
  fail : RawErr → σ → σ
  readSize_pos : ∀ n, 0 < readSize n

structure Reader (σ : Type) where
  state : σ
  pending : PendingBuffer

namespace Decoder

variable {σ : Type} (dec : Decoder σ)

/-- The loop of `Read` into `n` bytes; `none` is `ErrInvalidSudokuMapMiss`, after which the
connection is not used any more. -/
def readLoop (n : Nat) (d : Decoding σ) (src : Source) :
    Option (ReadResult × Reader σ × Source) :=
  match _hread : src.read (dec.readSize (n - d.out.length)) with
  | none => some (.blocked, { d with }, src)
  | some (chunk, err, rest) =>
    match dec.loop n d chunk with
    | none => none
    | some d =>
      match err with
      | some e =>
        let state := dec.fail e d.state
        if d.out ≠ [] then some (.data d.out, ⟨state, d.pending⟩, rest)
        else
          match d.pending.drainPending n with
          | some (out, pending) => some (.data out, ⟨state, pending⟩, rest)
          | none => some (.failed e, ⟨state, d.pending⟩, rest)
      | none =>
        if d.out ≠ [] then some (.data d.out, { d with }, rest)
        else readLoop n d rest
termination_by src.bytes.length + src.length
decreasing_by exact Source.measure_of_read _hread (dec.readSize_pos _)

def read (n : Nat) (c : Reader σ) (src : Source) : Option (ReadResult × Reader σ × Source) :=
  if n = 0 then some (.data [], c, src)
  else
    match c.pending.drainPending n with
    | some (out, pending) => some (.data out, { c with pending }, src)
    | none => dec.readLoop n ⟨c.state, [], c.pending⟩ src

def reads : List Nat → Reader σ → Source → Option (List ReadResult × Reader σ × Source)
  | [], c, src => some ([], c, src)
  | n :: ns, c, src =>
    match dec.read n c src with
    | none => none
    | some (res, c, src) => (reads ns c src).map fun r => (res :: r.1, r.2)

end Decoder

/-! ### What is read is what is decoded -/

namespace Decoding

variable {σ : Type} (grow : Nat → Nat) {n : Nat} {d : Decoding σ}

def decoded (d : Decoding σ) : Str := d.out ++ d.pending.unread

structure Fits (n : Nat) (d : Decoding σ) : Prop where
  length_le : d.out.length ≤ n
  unread : d.out.length < n → d.pending.unread = []

theorem appendDecodedByte_spec (h : d.Fits n) (b : UInt8) :
    (appendDecodedByte grow n d b).Fits n ∧
      (appendDecodedByte grow n d b).decoded = d.decoded ++ [b] := by
  unfold appendDecodedByte
  split
  next hlt =>
    have hnil := h.unread hlt
    refine ⟨⟨?_, fun _ => hnil⟩, ?_⟩
    · rw [length_append]
      exact hlt
    · simp [decoded, hnil]
  next hge =>
    refine ⟨⟨h.length_le, fun hlt => absurd hlt hge⟩, ?_⟩
    simp [decoded, PendingBuffer.unread_appendByte]

def absorb (n : Nat) (d : Decoding σ) (r : σ × Str) : Decoding σ :=
  { r.2.foldl (appendDecodedByte grow n) d with state := r.1 }

theorem absorb_nil (d : Decoding σ) (s : σ) : d.absorb grow n (s, []) = { d with state := s } := rfl

theorem absorb_of_room {s : σ} {bs : Str} (h : d.out.length + bs.length ≤ n) :
    d.absorb grow n (s, bs) = { d with state := s, out := d.out ++ bs } := by
  induction bs generalizing d with
  | nil => rw [absorb_nil, append_nil]
  | cons b bs ih =>
    rw [length_cons] at h
    have hroom : d.out.length < n := by omega
    have happend : appendDecodedByte grow n d b = { d with out := d.out ++ [b] } := if_pos hroom
    have hrest := ih (d := { d with out := d.out ++ [b] }) (by
      rw [length_append, length_singleton]
      omega)
    rw [absorb, foldl_cons, happend]
    refine hrest.trans ?_
    rw [append_assoc, singleton_append]

theorem appendDecodedByte_withState (d : Decoding σ) (s : σ) (b : UInt8) :
    appendDecodedByte grow n { d with state := s } b =
      { appendDecodedByte grow n d b with state := s } := by
  unfold appendDecodedByte
  split <;> rfl

theorem foldl_withState (d : Decoding σ) (s : σ) (bs : Str) :
    bs.foldl (appendDecodedByte grow n) { d with state := s } =
      { bs.foldl (appendDecodedByte grow n) d with state := s } := by
  induction bs generalizing d with
  | nil => rfl
  | cons b bs ih =>
    rw [foldl_cons, appendDecodedByte_withState]
    exact ih _

theorem absorb_absorb (d : Decoding σ) (r q : σ × Str) :
    (d.absorb grow n r).absorb grow n q = d.absorb grow n (q.1, r.2 ++ q.2) := by
  unfold absorb
  rw [foldl_withState, foldl_append]

theorem absorb_spec (h : d.Fits n) (r : σ × Str) :
    (d.absorb grow n r).Fits n ∧ (d.absorb grow n r).decoded = d.decoded ++ r.2 := by
  obtain ⟨s, bs⟩ := r
  induction bs generalizing d with
  | nil => exact ⟨⟨h.1, h.2⟩, (append_nil _).symm⟩
  | cons b bs ih =>
    obtain ⟨hfits, hdecoded⟩ := appendDecodedByte_spec grow h b
    obtain ⟨hfits', hdecoded'⟩ := ih hfits
    refine ⟨hfits', hdecoded'.trans ?_⟩
    rw [hdecoded, append_assoc, singleton_append]

variable {block : Str} {step : σ → UInt8 → Option (σ × Str)}

theorem map_absorb_append {r : σ × Str} (h : feed step d.state block = some r) (rest : Str) :
    (feed step d.state (block ++ rest)).map (d.absorb grow n) =
      (feed step r.1 rest).map ((d.absorb grow n r).absorb grow n) := by
  rw [feed_append, h, bind_some, Option.map_map]
  congr 1
  funext q
  exact (absorb_absorb grow d r q).symm

theorem map_absorb_of_none (h : (feed step d.state block).map (d.absorb grow n) = none)
    (rest : Str) : (feed step d.state (block ++ rest)).map (d.absorb grow n) = none := by
  rw [feed_append, map_eq_none_iff.mp h]
  rfl

theorem map_absorb_of_some {d' : Decoding σ}
    (h : (feed step d.state block).map (d.absorb grow n) = some d') (rest : Str) :
    (feed step d.state (block ++ rest)).map (d.absorb grow n) =
      (feed step d'.state rest).map (d'.absorb grow n) := by
  obtain ⟨r, hfeed, rfl⟩ := map_eq_some_iff.mp h
  exact map_absorb_append grow hfeed rest

theorem Fits.unread_of_out (h : d.Fits n) (hn : 0 < n) (hout : d.out = []) :
    d.pending.unread = [] := by
  apply h.unread
  rw [hout]
  exact hn

end Decoding

namespace Decoder

variable {σ : Type}

/-- The loop over a chunk decodes it as the transducer does, byte by byte, and only an error that
ends the stream changes the state otherwise. -/
structure Follows (dec : Decoder σ) (grow : Nat → Nat) (step : σ → UInt8 → Option (σ × Str))
    (ends : RawErr → Prop) : Prop where
  loop_eq : ∀ n d chunk, dec.loop n d chunk = (feed step d.state chunk).map (d.absorb grow n)
  fail_eq : ∀ e s, ¬ ends e → dec.fail e s = s

def Owes (step : σ → UInt8 → Option (σ × Str)) (c : Reader σ) (src : Source) (rest : Str) : Prop :=
  ∃ s more, feed step c.state src.bytes = some (s, more) ∧ rest = c.pending.unread ++ more

def Answers (n : Nat) (c : Reader σ) (src : Source) : ReadResult → Prop
  | .data out => out.length ≤ n ∧ (0 < n → out ≠ [])
  | .failed _ => c.pending.unread = []
  | .blocked => c.pending.unread = [] ∧ src = []

/-- What a call on a source does: it takes from what is owed and owes the rest, and it only fails
with an error of the source. -/
def Serves (step : σ → UInt8 → Option (σ × Str)) (ends : RawErr → Prop) (n : Nat) (before : Source)
    (owed : Str) (outcome : Option (ReadResult × Reader σ × Source)) : Prop :=
  ∃ res c src rest, outcome = some (res, c, src) ∧ owed = res.bytes ++ rest ∧
    Owes step c src rest ∧ src.EndsAt ends ∧ Answers n c src res ∧
    (before.errors = [] → src.errors = [] ∧ ∀ e, res ≠ .failed e)

variable {dec : Decoder σ} {grow : Nat → Nat} {step : σ → UInt8 → Option (σ × Str)}
  {ends : RawErr → Prop} {n : Nat}

variable {src : Source} {c : Reader σ} {owed : Str}

theorem serves_data {before : Source} {out rest : Str}
    (howed : owed = out ++ rest) (hrest : Owes step c src rest) (hsrc : src.EndsAt ends)
    (hle : out.length ≤ n) (hne : out ≠ []) (herrors : before.errors = [] → src.errors = []) :
    Serves step ends n before owed (some (.data out, c, src)) := by
  refine ⟨_, _, _, rest, rfl, howed, hrest, hsrc, ⟨hle, fun _ => hne⟩, fun h => ⟨herrors h, ?_⟩⟩
  intro e he
  cases he

section
variable (h : dec.Follows grow step ends)
include h

theorem Follows.owes_fail {e : RawErr} {state : σ}
    {pending : PendingBuffer} {rest : Str} (hends : ends e → src.bytes = [])
    (howes : Owes step ⟨state, pending⟩ src rest) :
    Owes step ⟨dec.fail e state, pending⟩ src rest := by
  by_cases he : ends e
  · obtain ⟨s, more, hfeed, rfl⟩ := howes
    rw [hends he] at hfeed
    obtain ⟨-, rfl⟩ := Prod.mk.inj (some.inj hfeed)
    refine ⟨dec.fail e state, [], ?_, rfl⟩
    rw [hends he, feed_nil]
  · rwa [h.fail_eq e state he]

theorem Follows.readLoop_serves (hn : 0 < n)
    (hsrc : src.EndsAt ends) {d : Decoding σ} (hfits : d.Fits n) (hout : d.out = [])
    (howes : Owes step { d with } src owed) :
    Serves step ends n src owed (dec.readLoop n d src) := by
  induction hm : src.bytes.length + src.length using Nat.strong_induction_on
    generalizing src d owed with
  | _ m ih =>
  have hunread := hfits.unread_of_out hn hout
  rw [readLoop]
  split
  next hread =>
    have hnil : src = [] := Source.eq_nil_of_read hread
    refine ⟨_, _, _, owed, rfl, rfl, howes, hsrc, ⟨hunread, hnil⟩, fun h => ⟨h, ?_⟩⟩
    intro e he
    cases he
  next chunk err rest hread =>
    obtain ⟨s, more, hfeed, rfl⟩ := howes
    obtain ⟨hrest, hends⟩ := Source.endsAt_of_read hread hsrc
    have hmeasure := Source.measure_of_read hread (dec.readSize_pos _)
    have herrors := Source.errors_of_read hread
    rw [Source.bytes_of_read hread] at hfeed
    obtain ⟨t, now, later, hnow, hlater, rfl⟩ := exists_of_feed_append hfeed
    obtain ⟨hfits', hdecoded⟩ := Decoding.absorb_spec grow hfits (t, now)
    have hstate : (d.absorb grow n (t, now)).state = t := rfl
    rw [h.loop_eq, show feed step d.state chunk = _ from hnow, map_some]
    generalize d.absorb grow n (t, now) = d' at *
    -- what the chunk gave is now in the caller's buffer or kept
    have howed : d.pending.unread ++ (now ++ later) = d'.out ++ (d'.pending.unread ++ later) := by
      have hsplit : d'.out ++ d'.pending.unread = d.out ++ d.pending.unread ++ now := hdecoded
      rw [← append_assoc d'.out, hsplit, hout]
      simp
    have howes' : Owes step { d' with } rest (d'.pending.unread ++ later) := by
      refine ⟨s, later, ?_, rfl⟩
      rw [hstate]
      exact hlater
    rw [howed]
    cases err with
    | some e =>
      have hfail := h.owes_fail (hends e rfl) howes'
      have hnot : src.errors ≠ [] := by
        rw [herrors]
        exact cons_ne_nil e _
      dsimp only
      split
      next hne =>
        exact serves_data rfl hfail hrest hfits'.length_le hne fun h => absurd h hnot
      next hempty =>
        have hempty := not_not.mp hempty
        have hunread' := hfits'.unread_of_out hn hempty
        rw [PendingBuffer.drainPending_eq_none hunread', hempty]
        exact ⟨_, _, _, _, rfl, rfl, hfail, hrest, hunread', fun h => absurd h hnot⟩
    | none =>
      have hsame : src.errors = rest.errors := herrors
      dsimp only
      split
      next hne =>
        exact serves_data rfl howes' hrest hfits'.length_le hne fun h => hsame ▸ h
      next hempty =>
        have hempty := not_not.mp hempty
        rw [hempty, Serves, hsame]
        exact ih _ (hm ▸ hmeasure) hrest hfits' hempty howes' rfl

theorem Follows.read_serves (hsrc : src.EndsAt ends)
    (howes : Owes step c src owed) : Serves step ends n src owed (dec.read n c src) := by
  unfold read
  split
  · refine ⟨_, _, _, owed, rfl, rfl, howes, hsrc, ⟨zero_le n, fun hpos => by omega⟩, ?_⟩
    exact fun herrors => ⟨herrors, fun e he => by cases he⟩
  next hn =>
    have hn := Nat.pos_of_ne_zero hn
    by_cases hunread : c.pending.unread = []
    · rw [PendingBuffer.drainPending_eq_none hunread]
      exact h.readLoop_serves hn hsrc
        ⟨zero_le n, fun _ => hunread⟩ rfl howes
    · obtain ⟨out, pending, hdrain, hsplit, hne, hle⟩ := PendingBuffer.drainPending_of_ne hunread hn
      obtain ⟨s, more, hfeed, rfl⟩ := howes
      rw [hdrain, hsplit, append_assoc]
      exact serves_data rfl ⟨s, more, hfeed, rfl⟩ hsrc hle hne id

end

theorem eq_nil_of_answers {res : ReadResult}
    (howes : Owes step c src owed) (hanswer : Answers n c src res) (hres : ∀ out, res ≠ .data out)
    (hsrc : src.bytes = []) : owed = [] := by
  obtain ⟨s, more, hfeed, rfl⟩ := howes
  rw [hsrc] at hfeed
  obtain ⟨-, rfl⟩ := Prod.mk.inj (some.inj hfeed)
  cases res with
  | data out => exact absurd rfl (hres out)
  | failed e => rw [show c.pending.unread = [] from hanswer]; rfl
  | blocked => rw [hanswer.1]; rfl

/-- The calls together hand over what is owed, from the start and in order. Without an error from
below, as many calls as there are bytes hand over everything. -/
theorem Follows.reads_serve (h : dec.Follows grow step ends) (ns : List Nat)
    (hsrc : src.EndsAt ends) (howes : Owes step c src owed) :
    ∃ results c' src' rest, dec.reads ns c src = some (results, c', src') ∧
      owed = results.flatMap ReadResult.bytes ++ rest ∧ Owes step c' src' rest ∧
      src'.EndsAt ends ∧
      (src.errors = [] → (∀ n ∈ ns, 0 < n) → owed.length ≤ ns.length → rest = []) := by
  induction ns generalizing c src owed with
  | nil =>
    exact ⟨[], c, src, owed, rfl, rfl, howes, hsrc,
      fun _ _ hle => eq_nil_of_length_eq_zero (le_zero.mp hle)⟩
  | cons n ns ih =>
    obtain ⟨res, c₁, src₁, rest₁, hread, rfl, howes₁, hsrc₁, hanswer, herrors⟩ :=
      h.read_serves hsrc howes
    obtain ⟨results, c₂, src₂, rest, hreads, hrest, howes₂, hsrc₂, hall⟩ := ih hsrc₁ howes₁
    refine ⟨res :: results, c₂, src₂, rest, ?_, ?_, howes₂, hsrc₂, ?_⟩
    · rw [reads, hread]
      dsimp only
      rw [hreads]
      rfl
    · rw [flatMap_cons, append_assoc, hrest]
    · intro hnone hpos hle
      obtain ⟨hnone₁, hfailed⟩ := herrors hnone
      have hpos₁ : ∀ m ∈ ns, 0 < m := fun m hm => hpos m (mem_cons_of_mem n hm)
      rw [length_append, length_cons] at hle
      cases res with
      | failed e => exact absurd rfl (hfailed e)
      | data out =>
        have hne := length_pos_iff.mpr (hanswer.2 (hpos n mem_cons_self))
        have hout : (ReadResult.data out).bytes.length = out.length := rfl
        exact hall hnone₁ hpos₁ (by omega)
      | blocked =>
        have hnil : rest₁ = [] := by
          refine eq_nil_of_answers howes₁ hanswer (fun out he => by cases he) ?_
          rw [hanswer.2]
          rfl
        rw [hnil] at hrest
        exact (append_eq_nil_iff.mp hrest.symm).2

/-- A reader hands over these bytes and no others: every sequence of calls gives their start, with
enough calls it gives all of them, and so it does once a call has nothing to give and the raw stream
is used up. -/
def Delivers (dec : Decoder σ) (c : Reader σ) (src : Source) (payload : Str) : Prop :=
  ∀ sizes : List Nat, ∃ results c' src', dec.reads sizes c src = some (results, c', src') ∧
    results.flatMap ReadResult.bytes <+: payload ∧
    (src.errors = [] → (∀ n ∈ sizes, 0 < n) → payload.length ≤ sizes.length →
      results.flatMap ReadResult.bytes = payload) ∧
    ∀ n res last rest, dec.read n c' src' = some (res, last, rest) → (∀ out, res ≠ .data out) →
      rest.bytes = [] → results.flatMap ReadResult.bytes = payload

theorem Follows.delivers (h : dec.Follows grow step ends) (hsrc : src.EndsAt ends) {payload : Str}
    (howes : Owes step c src payload) : dec.Delivers c src payload := by
  intro sizes
  obtain ⟨results, c', src', rest, hreads, rfl, howes', hsrc', hall⟩ :=
    h.reads_serve sizes hsrc howes
  refine ⟨results, c', src', hreads, prefix_append .., ?_, ?_⟩
  · intro herrors hpos hle
    rw [hall herrors hpos hle, append_nil]
  · intro n res last end' hread hres hbytes
    obtain ⟨res', c'', src'', rest', heq, rfl, howes'', -, hanswer, -⟩ :=
      h.read_serves hsrc' howes'
    rw [hread] at heq
    cases heq
    have hnil := eq_nil_of_answers howes'' hanswer hres hbytes
    have hbytes' : res.bytes = [] := by
      cases res with
      | data out => exact absurd rfl (hres out)
      | failed | blocked => rfl
    rw [hnil, hbytes', append_nil, append_nil]

end Decoder

end Mihomo.Sudoku
