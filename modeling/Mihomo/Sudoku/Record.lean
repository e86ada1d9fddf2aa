import Mihomo.Net.Slice

/-!
# Record connections (transport/sudoku/crypto/record_conn.go)

`RecordConn` cuts what is written into records. A record has an epoch and a sequence number that start
at random values, and it is sealed with a key of its epoch. The epoch changes whenever another 32 MiB
have been written, and the sequence number then starts anew.
-/

namespace Mihomo.Sudoku.Crypto
open Go Net List
def keyUpdateAfterBytes : Nat := 33554432

/-- `maxFrameBodySize - recordHeaderSize - aead.Overhead()`; both ciphers have a tag of 16 bytes. -/
def maxPlain : Nat := 65535 - 12 - 16

structure Record where
  epoch : UInt32
  seq : UInt64
  plain : Str
  deriving DecidableEq

/-! ### Sending -/

/-- The send state; `sendBytes` stays far below the limit of an `int64` before the epoch wraps.
`rotations` says how many sequence numbers have been drawn. -/
structure Sender where
  sendEpoch : UInt32
  sendSeq : UInt64
  sendBytes : Nat
  sendEpochUpdates : UInt32
  rotations : Nat

/-- `resetTrafficState` with the counters that were drawn. -/
def newSender (epoch : UInt32) (seq : UInt64) : Sender := ⟨epoch, seq, 0, 0, 0⟩

section
variable (rand : Nat → UInt64)

def maybeBumpSendEpochLocked (s : Sender) (addedPlain : Nat) : Sender :=
  let sendBytes := s.sendBytes + addedPlain
  let threshold := keyUpdateAfterBytes * (s.sendEpochUpdates + 1).toNat
  if sendBytes < threshold then { s with sendBytes }
  else
    { sendEpoch := s.sendEpoch + 1
      sendSeq := rand s.rotations
      sendBytes
      sendEpochUpdates := s.sendEpochUpdates + 1
      rotations := s.rotations + 1 }

def cut (p : Str) : List Str :=
  if p = [] then [] else p.take maxPlain :: cut (p.drop maxPlain)
termination_by p.length
decreasing_by
  have : 0 < p.length := List.length_pos_iff.mpr ‹p ≠ []›
  rw [List.length_drop]
  unfold maxPlain
  omega

def sendPieces : Sender → List Str → List Record × Sender
  | s, [] => ([], s)
  | s, chunk :: rest =>
    let record := ⟨s.sendEpoch, s.sendSeq, chunk⟩
    let s := maybeBumpSendEpochLocked rand { s with sendSeq := s.sendSeq + 1 } chunk.length
    let r := sendPieces s rest
    (record :: r.1, r.2)

def write (s : Sender) (p : Str) : List Record × Sender := sendPieces rand s (cut p)

def writes : Sender → List Str → List Record
  | _, [] => []
  | s, p :: ps => (write rand s p).1 ++ writes (write rand s p).2 ps

theorem sendPieces_append (s : Sender) (ps qs : List Str) :
    sendPieces rand s (ps ++ qs) =
      ((sendPieces rand s ps).1 ++ (sendPieces rand (sendPieces rand s ps).2 qs).1,
        (sendPieces rand (sendPieces rand s ps).2 qs).2) := by
  induction ps generalizing s with
  | nil => rfl
  | cons p ps ih =>
    rw [cons_append, sendPieces, ih]
    rfl

theorem writes_eq (s : Sender) (payloads : List Str) :
    writes rand s payloads = (sendPieces rand s (payloads.flatMap cut)).1 := by
  induction payloads generalizing s with
  | nil => rfl
  | cons p ps ih => rw [writes, flatMap_cons, sendPieces_append, ih, write]

end

/-- A record on the wire: the length of its body, the header and the ciphertext, which is 16 bytes
longer than the plaintext. -/
def frame (aeadSeal : UInt32 → UInt64 → Str → Str) (r : Record) : Str :=
  bytesBE 2 (12 + (r.plain.length + 16)) ++ bytesBE 4 r.epoch.toNat ++ bytesBE 8 r.seq.toNat ++
    aeadSeal r.epoch r.seq r.plain

theorem cut_of_le {p : Str} (hp : p ≠ []) (hle : p.length ≤ maxPlain) : cut p = [p] := by
  rw [cut, if_neg hp, take_of_length_le hle, drop_of_length_le hle, cut, if_pos rfl]

def Piece (p : Str) : Prop := 0 < p.length ∧ p.length ≤ maxPlain

theorem piece_of_mem_cut {p q : Str} (h : q ∈ cut p) : Piece q := by
  induction hm : p.length using Nat.strong_induction_on generalizing p with
  | _ m ih =>
  rw [cut] at h
  split at h
  · cases h
  next hp =>
    have hpos := length_pos_iff.mpr hp
    rcases mem_cons.mp h with rfl | h
    · rw [Piece, length_take]
      unfold maxPlain
      omega
    · have hlt : (p.drop maxPlain).length < m := by
        rw [length_drop]
        unfold maxPlain
        omega
      exact ih _ hlt h rfl

theorem flatten_cut (p : Str) : (cut p).flatten = p := by
  induction hm : p.length using Nat.strong_induction_on generalizing p with
  | _ m ih =>
  rw [cut]
  split
  next hp =>
    rw [hp]
    rfl
  next hp =>
    have hpos := length_pos_iff.mpr hp
    have hlt : (p.drop maxPlain).length < m := by
      rw [length_drop]
      unfold maxPlain
      omega
    rw [flatten_cons, ih _ hlt _ rfl, take_append_drop]

theorem flatten_flatMap_cut (payloads : List Str) :
    (payloads.flatMap cut).flatten = payloads.flatten := by
  induction payloads with
  | nil => rfl
  | cons p ps ih => rw [flatMap_cons, flatten_append, flatten_cut, ih, flatten_cons]

theorem piece_of_mem {payloads : List Str} : ∀ q ∈ payloads.flatMap cut, Piece q := by
  intro q hq
  obtain ⟨p, -, hcut⟩ := mem_flatMap.mp hq
  exact piece_of_mem_cut hcut

/-! ### Where a record is in the stream -/

structure Place where
  offset : Nat
  index : Nat

namespace Place

def updates (pl : Place) : Nat := pl.offset / keyUpdateAfterBytes

def advance (pl : Place) (n : Nat) : Place :=
  ⟨pl.offset + n,
    if (pl.offset + n) / keyUpdateAfterBytes = pl.updates then pl.index + 1 else 0⟩

def Valid (pl : Place) : Prop := pl.index ≤ pl.offset % keyUpdateAfterBytes

def Before (pl pl' : Place) : Prop :=
  pl.updates < pl'.updates ∨ pl.updates = pl'.updates ∧ pl.index < pl'.index

variable {pl pl' pl'' : Place} {n : Nat}

theorem advance_cases (pl : Place) (hn : n ≤ maxPlain) :
    (pl.advance n).updates = pl.updates ∧ (pl.advance n).index = pl.index + 1 ∨
      (pl.advance n).updates = pl.updates + 1 ∧ (pl.advance n).index = 0 := by
  unfold maxPlain at hn
  by_cases heq : (pl.offset + n) / keyUpdateAfterBytes = pl.updates
  · exact .inl ⟨heq, if_pos heq⟩
  · refine .inr ⟨?_, if_neg heq⟩
    change (pl.offset + n) / keyUpdateAfterBytes = pl.updates + 1
    unfold updates keyUpdateAfterBytes at *
    omega

theorem Valid.advance (h : pl.Valid) (hpos : 0 < n) : (pl.advance n).Valid := by
  unfold Valid Place.advance updates at *
  dsimp only
  split
  · unfold keyUpdateAfterBytes at *
    omega
  · omega

theorem Valid.index_lt (h : pl.Valid) : pl.index < keyUpdateAfterBytes :=
  Nat.lt_of_le_of_lt h (Nat.mod_lt _ (by decide))

theorem before_advance (pl : Place) (hn : n ≤ maxPlain) : pl.Before (pl.advance n) := by
  unfold Before
  have := pl.advance_cases hn
  omega

theorem Before.trans (h : pl.Before pl') (h' : pl'.Before pl'') : pl.Before pl'' := by
  unfold Before at *
  omega

end Place

def places : Place → List Str → List Place
  | _, [] => []
  | pl, p :: ps => pl :: places (pl.advance p.length) ps

def placeAfter : Place → List Str → Place
  | pl, [] => pl
  | pl, p :: ps => placeAfter (pl.advance p.length) ps

theorem length_places (pl : Place) (ps : List Str) : (places pl ps).length = ps.length := by
  induction ps generalizing pl with
  | nil => rfl
  | cons p ps ih => rw [places, length_cons, ih, length_cons]

theorem valid_of_mem_places {pl pl' : Place} {ps : List Str} (hps : ∀ p ∈ ps, Piece p)
    (hpl : pl.Valid) (h : pl' ∈ places pl ps) : pl'.Valid := by
  induction ps generalizing pl with
  | nil => cases h
  | cons p ps ih =>
    rcases mem_cons.mp h with rfl | h
    · exact hpl
    · have hpos := (hps p mem_cons_self).1
      exact ih (fun q hq => hps q (mem_cons_of_mem p hq)) (hpl.advance hpos) h

theorem places_before {pl : Place} {ps : List Str} (hps : ∀ p ∈ ps, Piece p) :
    (places pl ps).Pairwise Place.Before := by
  have hall : ∀ pl ps, (∀ p ∈ ps, Piece p) → (∀ pl' ∈ places pl ps, pl' = pl ∨ pl.Before pl') ∧
      (places pl ps).Pairwise Place.Before := by
    intro pl ps
    induction ps generalizing pl with
    | nil => exact fun _ => ⟨nofun, .nil⟩
    | cons p ps ih =>
      intro hps
      have hstep := pl.before_advance (hps p mem_cons_self).2
      obtain ⟨hfrom, hsorted⟩ := ih (pl.advance p.length) fun q hq =>
        hps q (mem_cons_of_mem p hq)
      have hlater : ∀ pl' ∈ places (pl.advance p.length) ps, pl.Before pl' := by
        intro pl' h
        rcases hfrom pl' h with rfl | hbefore
        · exact hstep
        · exact hstep.trans hbefore
      refine ⟨fun pl' h => ?_, pairwise_cons.mpr ⟨hlater, hsorted⟩⟩
      rcases mem_cons.mp h with rfl | h
      · exact .inl rfl
      · exact .inr (hlater pl' h)
  exact (hall pl ps hps).2

theorem offset_lt_of_mem_places {pl pl' : Place} {ps : List Str} (hps : ∀ p ∈ ps, Piece p)
    (h : pl' ∈ places pl ps) : pl'.offset < pl.offset + ps.flatten.length := by
  induction ps generalizing pl with
  | nil => cases h
  | cons p ps ih =>
    have hpos := (hps p mem_cons_self).1
    rw [flatten_cons, length_append]
    rcases mem_cons.mp h with rfl | h
    · omega
    · have := ih (fun q hq => hps q (mem_cons_of_mem p hq)) h
      have hoffset : (pl.advance p.length).offset = pl.offset + p.length := rfl
      omega

/-! ### The counters at a place -/

section
variable (epoch : UInt32) (seq : UInt64) (rand : Nat → UInt64)

def startSeq : Nat → UInt64
  | 0 => seq
  | k + 1 => rand k

def epochAt (pl : Place) : UInt32 := epoch + UInt32.ofNat pl.updates

def seqAt (pl : Place) : UInt64 := startSeq seq rand pl.updates + UInt64.ofNat pl.index

def recordAt (pl : Place) (p : Str) : Record := ⟨epochAt epoch pl, seqAt seq rand pl, p⟩

def senderAt (pl : Place) : Sender :=
  ⟨epochAt epoch pl, seqAt seq rand pl, pl.offset, UInt32.ofNat pl.updates, pl.updates⟩

variable {epoch seq rand}

theorem seqAt_succ {pl : Place} {n : Nat} (hupdates : (pl.advance n).updates = pl.updates)
    (hindex : (pl.advance n).index = pl.index + 1) :
    seqAt seq rand (pl.advance n) = seqAt seq rand pl + 1 := by
  rw [seqAt, hupdates, hindex, UInt64.ofNat_add, ← UInt64.add_assoc]
  rfl

theorem bump_senderAt {pl : Place} {n : Nat} (hn : n ≤ maxPlain)
    (hupdates : pl.updates + 1 < 2 ^ 32) :
    maybeBumpSendEpochLocked rand { senderAt epoch seq rand pl with
      sendSeq := seqAt seq rand pl + 1 } n = senderAt epoch seq rand (pl.advance n) := by
  have hnext : (UInt32.ofNat pl.updates + 1).toNat = pl.updates + 1 := by
    change (pl.updates % 2 ^ 32 + 1) % 2 ^ 32 = _
    omega
  have hoffset : (pl.advance n).updates = (pl.offset + n) / keyUpdateAfterBytes := rfl
  have hthreshold : pl.offset + n < keyUpdateAfterBytes * (pl.updates + 1) ↔
      (pl.advance n).updates < pl.updates + 1 := by
    rw [hoffset, Nat.div_lt_iff_lt_mul (by decide), Nat.mul_comm]
  unfold maybeBumpSendEpochLocked
  dsimp only [senderAt]
  rw [hnext]
  rcases pl.advance_cases hn with ⟨hsame, hindex⟩ | ⟨hlater, hindex⟩
  · rw [if_pos (hthreshold.mpr (by omega)), epochAt, epochAt, hsame, seqAt_succ hsame hindex]
    rfl
  · rw [if_neg (mt hthreshold.mp (by omega)), epochAt, epochAt, seqAt, hlater, hindex, UInt32.ofNat_add, ← UInt32.add_assoc]
    congr 1
    exact (UInt64.add_zero _).symm

theorem sendPieces_senderAt {pl : Place} {ps : List Str} (hps : ∀ p ∈ ps, Piece p)
    (hplaces : ∀ pl' ∈ places pl ps, pl'.updates + 1 < 2 ^ 32) :
    sendPieces rand (senderAt epoch seq rand pl) ps =
      (zipWith (recordAt epoch seq rand) (places pl ps) ps,
        senderAt epoch seq rand (placeAfter pl ps)) := by
  induction ps generalizing pl with
  | nil => rfl
  | cons p ps ih =>
    have hbump : maybeBumpSendEpochLocked rand { senderAt epoch seq rand pl with
        sendSeq := (senderAt epoch seq rand pl).sendSeq + 1 } p.length =
          senderAt epoch seq rand (pl.advance p.length) :=
      bump_senderAt (hps p mem_cons_self).2 (hplaces pl mem_cons_self)
    rw [sendPieces, hbump, ih (fun q hq => hps q (mem_cons_of_mem p hq))
      (fun pl' h => hplaces pl' (mem_cons_of_mem pl h))]
    rfl

theorem newSender_eq : newSender epoch seq = senderAt epoch seq rand ⟨0, 0⟩ := by
  congr 1
  · exact (UInt32.add_zero epoch).symm
  · exact (UInt64.add_zero seq).symm

end

end Mihomo.Sudoku.Crypto
