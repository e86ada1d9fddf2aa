import Mihomo.Sudoku.Record

/-!
# Reading records (transport/sudoku/crypto/record_conn.go)

A reader takes the first record that opens, whatever its position. After that it wants the next
sequence number of the epoch, or any record of one of the next eight epochs.
-/

namespace Mihomo.Sudoku.Crypto
open Go Net List UInt32
inductive RecordErr where
  /-- "replayed epoch: got %d want >=%d" -/
  | replayedEpoch (got want : UInt32)
  /-- "out of order: epoch=%d got=%d want=%d" -/
  | outOfOrder (epoch : UInt32) (got want : UInt64)
  /-- "epoch jump too large: got=%d want<=%d" -/
  | jumpTooLarge (got : UInt32)
  /-- "frame too short" -/
  | frameTooShort
  /-- "decryption failed: epoch=%d seq=%d: %w" -/
  | decryption (epoch : UInt32) (seq : UInt64)
  /-- `io.EOF` of an empty `bytes.Buffer` -/
  | eof
  deriving DecidableEq

/-- The receive state; `accepted` is the history of the records that were opened. -/
structure Receiver where
  recvEpoch : UInt32 := 0
  recvSeq : UInt64 := 0
  recvInitialized : Bool := false
  readBuf : Str := []
  accepted : List Record := []

namespace Receiver

def validateRecvPosition (c : Receiver) (epoch : UInt32) (seq : UInt64) : Option RecordErr :=
  if c.recvInitialized = false then none
  else if epoch < c.recvEpoch then some (.replayedEpoch epoch c.recvEpoch)
  else if epoch = c.recvEpoch ∧ seq ≠ c.recvSeq then some (.outOfOrder epoch seq c.recvSeq)
  else if c.recvEpoch < epoch ∧ 8 < epoch - c.recvEpoch then
    some (.jumpTooLarge (epoch - c.recvEpoch))
  else none

def markRecvPosition (c : Receiver) (epoch : UInt32) (seq : UInt64) : Receiver :=
  { c with recvEpoch := epoch, recvSeq := seq + 1, recvInitialized := true }

end Receiver

/-- What a call of `Read` comes back with; it may also wait for the connection below. -/
inductive Outcome where
  | data (out : Str)
  | failed (err : RecordErr)
  | waiting
  deriving DecidableEq

def Outcome.bytes : Outcome → Str
  | .data out => out
  | _ => []

inductive Frame where
  | incomplete
  | short (rest : Str)
  | record (epoch : UInt32) (seq : UInt64) (ciphertext rest : Str)

/-- The two `io.ReadFull` and the header. -/
def nextFrame (wire : Str) : Frame :=
  if wire.length < 2 then .incomplete
  else
    let bodyLen := ofBytesBE (wire.take 2)
    let rest := wire.drop 2
    if bodyLen < 12 then .short rest
    else if rest.length < bodyLen then .incomplete
    else
      let body := rest.take bodyLen
      .record (UInt32.ofNat (ofBytesBE (body.take 4))) (UInt64.ofNat (ofBytesBE ((body.drop 4).take 8)))
        (body.drop 12) (rest.drop bodyLen)

def readBuffered (n : Nat) (c : Receiver) (wire : Str) : Outcome × Receiver × Str :=
  if c.readBuf = [] ∧ n ≠ 0 then (.failed .eof, c, wire)
  else (.data (c.readBuf.take n), { c with readBuf := c.readBuf.drop n }, wire)

section
variable (aeadOpen : UInt32 → UInt64 → Str → Option Str)

/-- `Read` into `n` bytes. The cipher of an epoch opens a record with its header as the nonce and
the additional data, so that `aeadOpen` takes the epoch and the sequence number. -/
def read (n : Nat) (c : Receiver) (wire : Str) : Outcome × Receiver × Str :=
  if c.readBuf ≠ [] then readBuffered n c wire
  else
    match nextFrame wire with
    | .incomplete => (.waiting, c, wire)
    | .short rest => (.failed .frameTooShort, c, rest)
    | .record epoch seq ciphertext rest =>
      match c.validateRecvPosition epoch seq with
      | some e => (.failed e, c, rest)
      | none =>
        match aeadOpen epoch seq ciphertext with
        | none => (.failed (.decryption epoch seq), c, rest)
        | some plain =>
          readBuffered n { c.markRecvPosition epoch seq with
            readBuf := plain
            accepted := c.accepted ++ [⟨epoch, seq, plain⟩] } rest

def reads : List Nat → Receiver → Str → List Outcome × Receiver × Str
  | [], c, wire => ([], c, wire)
  | n :: ns, c, wire =>
    let r := read aeadOpen n c wire
    let rest := reads ns r.2.1 r.2.2
    (r.1 :: rest.1, rest.2)

theorem reads_append (ns ms : List Nat) (c : Receiver) (wire : Str) :
    (reads aeadOpen (ns ++ ms) c wire).1 = (reads aeadOpen ns c wire).1 ++
      (reads aeadOpen ms (reads aeadOpen ns c wire).2.1 (reads aeadOpen ns c wire).2.2).1 := by
  induction ns generalizing c wire with
  | nil => rfl
  | cons n ns ih =>
    rw [cons_append, reads, ih]
    rfl

/-! ### What is given is what was opened -/

/-- What a call does to the receiver: it gives bytes that it has, or it opens a record at a valid
position and gives bytes of it. -/
inductive Step (c : Receiver) : Outcome → Receiver → Prop where
  | kept {o : Outcome} {rest : Str} : c.readBuf = o.bytes ++ rest →
    Step c o { c with readBuf := rest }
  | opened {o : Outcome} {rest ciphertext plain : Str} {epoch : UInt32} {seq : UInt64} :
    c.validateRecvPosition epoch seq = none → aeadOpen epoch seq ciphertext = some plain →
    c.readBuf = [] → plain = o.bytes ++ rest →
    Step c o { c.markRecvPosition epoch seq with
      readBuf := rest
      accepted := c.accepted ++ [⟨epoch, seq, plain⟩] }

theorem readBuffered_spec (n : Nat) (c : Receiver) (wire : Str) :
    ∃ rest, (readBuffered n c wire).2.1 = { c with readBuf := rest } ∧
      c.readBuf = (readBuffered n c wire).1.bytes ++ rest := by
  unfold readBuffered
  split
  · exact ⟨c.readBuf, rfl, rfl⟩
  · exact ⟨c.readBuf.drop n, rfl, (take_append_drop n c.readBuf).symm⟩

theorem step_read (n : Nat) (c : Receiver) (wire : Str) :
    Step aeadOpen c (read aeadOpen n c wire).1 (read aeadOpen n c wire).2.1 := by
  have hsame : ∀ o, o.bytes = [] → Step aeadOpen c o c := by
    intro o ho
    exact .kept (show c.readBuf = o.bytes ++ c.readBuf by rw [ho]; rfl)
  fun_cases read aeadOpen n c wire
  case case1 =>
    obtain ⟨rest, hstate, hbytes⟩ := readBuffered_spec n c wire
    rw [hstate]
    exact .kept hbytes
  case case6 hempty epoch seq ciphertext rest _ hvalid plain hopen =>
    obtain ⟨left, hstate, hbytes⟩ := readBuffered_spec n { c.markRecvPosition epoch seq with
      readBuf := plain
      accepted := c.accepted ++ [⟨epoch, seq, plain⟩] } rest
    rw [hstate]
    exact .opened hvalid hopen (not_not.mp hempty) hbytes
  all_goals exact hsame _ rfl

theorem reads_bytes (given : Str) (ns : List Nat) (c : Receiver) (wire : Str)
    (h : given ++ c.readBuf = c.accepted.flatMap Record.plain) :
    given ++ (reads aeadOpen ns c wire).1.flatMap Outcome.bytes ++
        (reads aeadOpen ns c wire).2.1.readBuf =
      (reads aeadOpen ns c wire).2.1.accepted.flatMap Record.plain := by
  induction ns generalizing c wire given with
  | nil =>
    rw [reads, flatMap_nil, append_nil]
    exact h
  | cons n ns ih =>
    have hnext : given ++ (read aeadOpen n c wire).1.bytes ++ (read aeadOpen n c wire).2.1.readBuf =
        (read aeadOpen n c wire).2.1.accepted.flatMap Record.plain := by
      have hstep := step_read aeadOpen n c wire
      generalize (read aeadOpen n c wire).2.1 = c' at hstep ⊢
      cases hstep with
      | kept hbytes =>
        rw [append_assoc, ← hbytes]
        exact h
      | opened _ _ hempty hbytes =>
        rw [append_assoc, ← hbytes, flatMap_append, ← h, hempty, append_nil, flatMap_singleton]
    have hrest := ih _ _ (read aeadOpen n c wire).2.2 hnext
    rw [reads, flatMap_cons]
    rw [← append_assoc given]
    exact hrest

end

/-! ### Only records of the peer, in their order -/

section
variable {epoch : UInt32} {seq : UInt64} {rand : Nat → UInt64} {ps : List Str}

def sentRecords (epoch : UInt32) (seq : UInt64) (rand : Nat → UInt64) (ps : List Str) :
    List Record :=
  zipWith (recordAt epoch seq rand) (places ⟨0, 0⟩ ps) ps

theorem writes_eq_sentRecords {payloads : List Str}
    (hplaces : ∀ pl ∈ places ⟨0, 0⟩ (payloads.flatMap cut), pl.updates + 1 < 2 ^ 32) :
    writes rand (newSender epoch seq) payloads =
      sentRecords epoch seq rand (payloads.flatMap cut) := by
  rw [writes_eq, newSender_eq, sendPieces_senderAt piece_of_mem hplaces, sentRecords]

variable {k l : Nat} {a b : Place} {c : Receiver}

theorem getElem?_sentRecords {r : Record} (h : (sentRecords epoch seq rand ps)[k]? = some r) :
    ∃ pl, (places ⟨0, 0⟩ ps)[k]? = some pl ∧ r.epoch = epochAt epoch pl ∧
      r.seq = seqAt seq rand pl := by
  rw [sentRecords, getElem?_zipWith_eq_some] at h
  obtain ⟨pl, p, hpl, hp, rfl⟩ := h
  exact ⟨pl, hpl, rfl, rfl⟩

theorem places_succ {pl : Place} (hps : ∀ p ∈ ps, Piece p) (ha : (places pl ps)[k]? = some a)
    (hb : (places pl ps)[k + 1]? = some b) : ∃ n, n ≤ maxPlain ∧ b = a.advance n := by
  induction ps generalizing pl k with
  | nil => cases ha
  | cons p ps ih =>
    have hps' : ∀ q ∈ ps, Piece q := fun q hq => hps q (mem_cons_of_mem p hq)
    cases k with
    | zero =>
      obtain rfl : pl = a := Option.some.inj ha
      refine ⟨p.length, (hps p mem_cons_self).2, ?_⟩
      cases ps with
      | nil => cases hb
      | cons q ps => exact (Option.some.inj hb).symm
    | succ k => exact ih hps' ha hb

section

variable (hps : ∀ p ∈ ps, Piece p) (ha : (places ⟨0, 0⟩ ps)[k]? = some a)
  (hb : (places ⟨0, 0⟩ ps)[l]? = some b)
include hps ha hb

theorem lt_of_before (h : a.Before b) : k < l := by
  obtain ⟨hk, rfl⟩ := List.getElem?_eq_some_iff.mp ha
  obtain ⟨hl, rfl⟩ := List.getElem?_eq_some_iff.mp hb
  by_contra hle
  rcases Nat.lt_or_eq_of_le (Nat.le_of_not_lt hle) with hlt | rfl
  · have hback := pairwise_iff_getElem.mp (places_before hps) l k hl hk hlt
    unfold Place.Before at h hback
    omega
  · unfold Place.Before at h
    omega

theorem eq_succ_of_index
    (hupdates : b.updates = a.updates) (hindex : b.index = a.index + 1) : l = k + 1 := by
  have hlt : k < l := lt_of_before hps ha hb (.inr ⟨hupdates.symm, by omega⟩)
  obtain ⟨hl, -⟩ := List.getElem?_eq_some_iff.mp hb
  obtain ⟨m, hm⟩ : ∃ m, (places ⟨0, 0⟩ ps)[k + 1]? = some m :=
    ⟨_, List.getElem?_eq_getElem (by omega)⟩
  obtain ⟨n, hn, rfl⟩ := places_succ hps ha hm
  by_contra hne
  -- the place after the first one would be before the second one
  have hbefore : (a.advance n).Before b := by
    obtain ⟨hk', heq⟩ := List.getElem?_eq_some_iff.mp hm
    obtain ⟨hl', heq'⟩ := List.getElem?_eq_some_iff.mp hb
    rw [← heq, ← heq']
    exact pairwise_iff_getElem.mp (places_before hps) (k + 1) l hk' hl' (by omega)
  have := a.advance_cases hn
  unfold Place.Before at hbefore
  omega

end

theorem updates_of_epoch_eq (ha : a.updates < 2 ^ 32) (hb : b.updates < 2 ^ 32)
    (h : epochAt epoch b = epochAt epoch a) : b.updates = a.updates := by
  have hnat := congrArg UInt32.toNat ((add_right_inj _).mp h)
  rw [toNat_ofNat', toNat_ofNat'] at hnat
  omega

theorem updates_of_epoch_jump (ha : a.updates + 8 < 2 ^ 32)
    (hb : b.updates + 8 < 2 ^ 32) (hlt : epochAt epoch a < epochAt epoch b)
    (hjump : ¬ 8 < epochAt epoch b - epochAt epoch a) : a.updates < b.updates := by
  have hle : (epochAt epoch b - epochAt epoch a).toNat ≤ 8 :=
    UInt32.le_iff_toNat_le.mp (UInt32.not_lt.mp hjump)
  have hlt := UInt32.lt_iff_toNat_lt.mp hlt
  rw [UInt32.toNat_sub_of_le _ _ (UInt32.le_iff_toNat_le.mpr hlt.le)] at hle
  simp only [epochAt, UInt32.toNat_add, UInt32.toNat_ofNat'] at hlt hle
  omega

theorem index_of_seq_eq (ha : a.Valid) (hb : b.Valid) (hupdates : b.updates = a.updates)
    (h : seqAt seq rand b = seqAt seq rand a + 1) : b.index = a.index + 1 := by
  have hla := ha.index_lt
  have hlb := hb.index_lt
  unfold keyUpdateAfterBytes at hla hlb
  rw [seqAt, seqAt, hupdates, UInt64.add_assoc] at h
  have hnat := congrArg UInt64.toNat ((UInt64.add_right_inj _).mp h)
  change b.index % 2 ^ 64 = (a.index % 2 ^ 64 + 1) % 2 ^ 64 at hnat
  omega

/-- The record that is accepted after another one is the next one, or one of a later epoch, at most
eight epochs on. -/
def Succeeds (sent : List Record) (k l : Nat) : Prop :=
  l = k + 1 ∨ k < l ∧ ∃ r ∈ sent[k]?, ∃ r' ∈ sent[l]?,
    r.epoch ≠ r'.epoch ∧ (r'.epoch - r.epoch).toNat ≤ 8

inductive InOrder (sent : List Record) : List Record → Nat → Prop where
  | first {k : Nat} {r : Record} : sent[k]? = some r → InOrder sent [r] k
  | next {records : List Record} {k l : Nat} {r : Record} : InOrder sent records k →
    Succeeds sent k l → sent[l]? = some r → InOrder sent (records ++ [r]) l

def Follows (sent : List Record) (c : Receiver) : Prop :=
  c.recvInitialized = false ∧ c.accepted = [] ∨
    ∃ k r, InOrder sent c.accepted k ∧ sent[k]? = some r ∧ c.recvInitialized = true ∧
      c.recvEpoch = r.epoch ∧ c.recvSeq = r.seq + 1

variable {aeadOpen : UInt32 → UInt64 → Str → Option Str}

theorem succeeds_of_valid (hps : ∀ p ∈ ps, Piece p)
    (hplaces : ∀ pl ∈ places ⟨0, 0⟩ ps, pl.updates + 8 < 2 ^ 32)
    (hinit : c.recvInitialized = true) {r r' : Record}
    (hr : (sentRecords epoch seq rand ps)[k]? = some r) (hepoch : c.recvEpoch = r.epoch)
    (hseq : c.recvSeq = r.seq + 1) (hr' : (sentRecords epoch seq rand ps)[l]? = some r')
    (hvalid : c.validateRecvPosition r'.epoch r'.seq = none) :
    Succeeds (sentRecords epoch seq rand ps) k l := by
  obtain ⟨a, ha, hae, has⟩ := getElem?_sentRecords hr
  obtain ⟨b, hb, hbe, hbs⟩ := getElem?_sentRecords hr'
  have hua := hplaces a (mem_of_getElem? ha)
  have hub := hplaces b (mem_of_getElem? hb)
  have hvalid₀ : Place.Valid ⟨0, 0⟩ := Nat.zero_le _
  unfold Receiver.validateRecvPosition at hvalid
  rw [if_neg (by rw [hinit]; exact Bool.noConfusion), hepoch, hseq] at hvalid
  split_ifs at hvalid with hlt horder hjump
  by_cases heq : r'.epoch = r.epoch
  · have hnext : r'.seq = r.seq + 1 := by
      by_contra hne
      exact horder ⟨heq, hne⟩
    rw [hbe, hae] at heq
    rw [hbs, has] at hnext
    have hupdates := updates_of_epoch_eq (by omega) (by omega) heq
    exact .inl (eq_succ_of_index hps ha hb hupdates
      (index_of_seq_eq (valid_of_mem_places hps hvalid₀ (mem_of_getElem? ha))
        (valid_of_mem_places hps hvalid₀ (mem_of_getElem? hb)) hupdates hnext))
  · have hgt : r.epoch < r'.epoch := by
      rcases UInt32.lt_or_eq_of_le (UInt32.not_lt.mp hlt) with h | h
      · exact h
      · exact absurd h.symm heq
    have hle : ¬ 8 < r'.epoch - r.epoch := fun h => hjump ⟨hgt, h⟩
    refine .inr ⟨?_, r, hr, r', hr', .symm heq, UInt32.le_iff_toNat_le.mp (UInt32.not_lt.mp hle)⟩
    rw [hbe, hae] at hgt hle
    exact lt_of_before hps ha hb (.inl (updates_of_epoch_jump hua hub hgt hle))

section

variable (hps : ∀ p ∈ ps, Piece p) (hplaces : ∀ pl ∈ places ⟨0, 0⟩ ps, pl.updates + 8 < 2 ^ 32)
  (hideal : ∀ e q ciphertext p, aeadOpen e q ciphertext = some p → ⟨e, q, p⟩ ∈ sentRecords epoch seq rand ps)
include hps hplaces hideal

theorem Follows.step {c' : Receiver} {o : Outcome}
    (hstep : Step aeadOpen c o c') (h : Follows (sentRecords epoch seq rand ps) c) :
    Follows (sentRecords epoch seq rand ps) c' := by
  cases hstep with
  | kept => exact h
  | opened hvalid hopen hempty hbytes =>
    obtain ⟨l, hl⟩ := getElem?_of_mem (hideal _ _ _ _ hopen)
    refine .inr ⟨l, _, ?_, hl, rfl, rfl, rfl⟩
    rcases h with ⟨-, hnone⟩ | ⟨k, r, horder, hr, hinit, hepoch, hseq⟩
    · rw [hnone]
      exact .first hl
    · exact .next horder (succeeds_of_valid hps hplaces hinit hr hepoch hseq hl hvalid) hl

theorem Follows.reads (ns : List Nat) (wire : Str) (h : Follows (sentRecords epoch seq rand ps) c) :
    Follows (sentRecords epoch seq rand ps) (Crypto.reads aeadOpen ns c wire).2.1 := by
  induction ns generalizing c wire with
  | nil => exact h
  | cons n ns ih => exact ih _ (h.step hps hplaces hideal (step_read aeadOpen n c wire))

end

end

/-- With an ideal cipher, whatever comes in on the wire: what a reader has accepted are records of
the peer, in the order in which they were sent and none of them twice. Only the first one may be any
record, and only a later epoch, at most eight epochs on, may leave some out. The peer has not come
round to the epochs again. -/
theorem accepted_in_order (epoch : UInt32) (seq : UInt64) (rand : Nat → UInt64)
    (payloads : List Str) (aeadOpen : UInt32 → UInt64 → Str → Option Str)
    (hideal : ∀ e q ciphertext p, aeadOpen e q ciphertext = some p →
      ⟨e, q, p⟩ ∈ writes rand (newSender epoch seq) payloads)
    (htotal : payloads.flatten.length ≤ (2 ^ 32 - 8) * keyUpdateAfterBytes) (wire : Str)
    (sizes : List Nat) :
    let r := reads aeadOpen sizes {} wire
    r.1.flatMap Outcome.bytes ++ r.2.1.readBuf = r.2.1.accepted.flatMap Record.plain ∧
      (r.2.1.accepted = [] ∨
        ∃ k, InOrder (writes rand (newSender epoch seq) payloads) r.2.1.accepted k) := by
  have hplaces : ∀ pl ∈ places ⟨0, 0⟩ (payloads.flatMap cut), pl.updates + 8 < 2 ^ 32 := by
    intro pl hpl
    have hlt := offset_lt_of_mem_places piece_of_mem hpl
    rw [flatten_flatMap_cut] at hlt
    have hupdates : pl.updates < 2 ^ 32 - 8 := by
      apply (Nat.div_lt_iff_lt_mul (by decide)).mpr
      have : Place.offset ⟨0, 0⟩ = 0 := rfl
      omega
    omega
  have hsent : writes rand (newSender epoch seq) payloads =
      sentRecords epoch seq rand (payloads.flatMap cut) := by
    apply writes_eq_sentRecords
    intro pl hpl
    have := hplaces pl hpl
    omega
  rw [hsent] at hideal ⊢
  refine ⟨?_, ?_⟩
  · exact reads_bytes aeadOpen [] sizes {} wire rfl
  · have hstart : Follows (sentRecords epoch seq rand (payloads.flatMap cut)) {} := .inl ⟨rfl, rfl⟩
    rcases hstart.reads piece_of_mem hplaces hideal sizes wire with ⟨-, hnone⟩ | ⟨k, -, h, -⟩
    · exact .inl hnone
    · exact .inr ⟨k, h⟩

def plainSeal (_ : UInt32) (_ : UInt64) (p : Str) : Str := p ++ replicate 16 0

def openSent (sent : List Record) (e : UInt32) (q : UInt64) (ciphertext : Str) : Option Str :=
  (sent.find? fun r => r.epoch = e ∧ r.seq = q ∧ plainSeal e q r.plain = ciphertext).map Record.plain

theorem mem_of_openSent {sent : List Record} {e : UInt32} {q : UInt64} {ciphertext p : Str}
    (h : openSent sent e q ciphertext = some p) : ⟨e, q, p⟩ ∈ sent := by
  obtain ⟨r, hr, rfl⟩ := Option.map_eq_some_iff.mp h
  have hfound := find?_some hr
  rw [decide_eq_true_iff] at hfound
  obtain ⟨rfl, rfl, -⟩ := hfound
  exact mem_of_find?_eq_some hr

theorem writes_pair : writes (fun _ => 0) (newSender 5 7) [[97], [98]] =
    [⟨5, 7, [97]⟩, ⟨5, 8, [98]⟩] := by
  rw [writes_eq, flatMap_cons, flatMap_cons, cut_of_le (by decide) (by decide), cut_of_le (by decide) (by decide)]
  decide

theorem accepted_in_order_pair :
    let sent := writes (fun _ => 0) (newSender 5 7) [[97], [98]]
    let r := reads (openSent sent) [9, 9] {} (sent.flatMap (frame plainSeal))
    r.1.flatMap Outcome.bytes ++ r.2.1.readBuf = r.2.1.accepted.flatMap Record.plain ∧
      (r.2.1.accepted = [] ∨ ∃ k, InOrder sent r.2.1.accepted k) :=
  accepted_in_order 5 7 (fun _ => 0) [[97], [98]] _ (fun _ _ _ _ h => mem_of_openSent h)
    (by decide) _ [9, 9]

/-- Without the first record on the wire, the second one is accepted: what was read is not the start
of what was written. -/
theorem dropped_first_record_accepted :
    let sent := writes (fun _ => 0) (newSender 5 7) [[97], [98]]
    (∀ e q ciphertext p, openSent sent e q ciphertext = some p → ⟨e, q, p⟩ ∈ sent) ∧
      sent = [⟨5, 7, [97]⟩, ⟨5, 8, [98]⟩] ∧
      (reads (openSent sent) [9] {} (frame plainSeal ⟨5, 8, [98]⟩)).1 = [.data [98]] ∧
      ¬ [98] <+: [97, 98] := by
  refine ⟨fun _ _ _ _ h => mem_of_openSent h, writes_pair, ?_, by decide⟩
  rw [writes_pair]
  decide

end Mihomo.Sudoku.Crypto
