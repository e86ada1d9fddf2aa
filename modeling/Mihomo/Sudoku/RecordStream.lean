import Mihomo.Sudoku.RecordRead

/-!
# A record connection over an ordered transport (transport/sudoku/crypto/record_conn.go)

Epochs are compared as numbers, so that the epoch after the last one, which is zero again, counts as a
replay: a stream gets through as long as none of its records starts behind that point.
-/

namespace Mihomo.Sudoku.Crypto
open Go Net List Nat UInt32
/-! ### Frames -/

theorem nextFrame_frame {aeadSeal : UInt32 → UInt64 → Str → Str} {r : Record}
    (hlen : (aeadSeal r.epoch r.seq r.plain).length = r.plain.length + 16)
    (hp : r.plain.length ≤ maxPlain) (rest : Str) :
    nextFrame (frame aeadSeal r ++ rest) =
      .record r.epoch r.seq (aeadSeal r.epoch r.seq r.plain) rest := by
  have hbody : (12 + (r.plain.length + 16)) % 256 ^ 2 = 12 + (r.plain.length + 16) := by
    unfold maxPlain at hp
    omega
  have hepoch : .ofNat (r.epoch.toNat % 256 ^ 4) = r.epoch := by
    rw [mod_eq_of_lt (show _ < 256 ^ 4 from r.epoch.toNat_lt), UInt32.ofNat_toNat]
  have hseq : .ofNat (r.seq.toNat % 256 ^ 8) = r.seq := by
    rw [mod_eq_of_lt (show _ < 256 ^ 8 from r.seq.toNat_lt), UInt64.ofNat_toNat]
  generalize hc : aeadSeal r.epoch r.seq r.plain = ciphertext at hlen
  have hwire : frame aeadSeal r ++ rest = bytesBE 2 (12 + (r.plain.length + 16)) ++
      ((bytesBE 4 r.epoch.toNat ++ (bytesBE 8 r.seq.toNat ++ ciphertext)) ++ rest) := by
    rw [frame, hc]
    simp
  have hsize : (bytesBE 4 r.epoch.toNat ++ (bytesBE 8 r.seq.toNat ++ ciphertext)).length =
      12 + (r.plain.length + 16) := by
    rw [length_append, length_append, bytesBE_length, bytesBE_length]
    omega
  have hdrop : (bytesBE 4 r.epoch.toNat ++ (bytesBE 8 r.seq.toNat ++ ciphertext)).drop 12 =
      ciphertext := by
    rw [← append_assoc]
    apply drop_left'
    rw [length_append, bytesBE_length, bytesBE_length]
  rw [hwire, nextFrame, take_left' (bytesBE_length ..), drop_left' (bytesBE_length ..),
    if_neg (by rw [length_append, bytesBE_length]; omega)]
  dsimp only
  rw [ofBytesBE_bytesBE, hbody, if_neg (by omega),
    if_neg (by rw [length_append]; omega), take_left' hsize, drop_left' hsize,
    hdrop, take_left' (bytesBE_length ..), drop_left' (bytesBE_length ..),
    take_left' (bytesBE_length ..), ofBytesBE_bytesBE, ofBytesBE_bytesBE, hepoch, hseq]

/-! ### Where records start -/

def offsets : Nat → List Str → List Nat
  | _, [] => []
  | off, p :: ps => off :: offsets (off + p.length) ps

theorem map_offset_places (pl : Place) (ps : List Str) :
    (places pl ps).map Place.offset = offsets pl.offset ps := by
  induction ps generalizing pl with
  | nil => rfl
  | cons p ps ih =>
    rw [places, map_cons, ih]
    rfl

theorem offsets_append (off : Nat) (ps qs : List Str) :
    offsets off (ps ++ qs) = offsets off ps ++ offsets (off + ps.flatten.length) qs := by
  induction ps generalizing off with
  | nil => rfl
  | cons p ps ih =>
    rw [cons_append, offsets, ih, flatten_cons, length_append, add_assoc]
    rfl

variable {off x : Nat}

theorem mem_offsets_cut {p : Str} :
    x ∈ offsets off (cut p) ↔ ∃ k, k * maxPlain < p.length ∧ x = off + k * maxPlain := by
  induction hm : p.length using Nat.strong_induction_on generalizing p off with
  | _ m ih =>
  subst hm
  rw [cut]
  split
  next hp =>
    rw [hp]
    refine iff_of_false not_mem_nil ?_
    rintro ⟨k, hk, -⟩
    exact absurd hk (not_lt_zero _)
  next hp =>
    have hpos := length_pos_iff.mpr hp
    have hmax : 0 < maxPlain := by decide
    rw [offsets, mem_cons]
    constructor
    · intro h
      rcases h with rfl | h
      · exact ⟨0, by omega, by omega⟩
      · by_cases hlong : maxPlain < p.length
        · rw [ih _ (by rw [length_drop]; omega) rfl, length_drop, length_take] at h
          obtain ⟨k, hk, rfl⟩ := h
          refine ⟨k + 1, ?_, ?_⟩
          · rw [succ_mul]
            omega
          · rw [succ_mul]
            omega
        · rw [drop_of_length_le (by omega), cut] at h
          cases h
    · intro h
      obtain ⟨k, hk, rfl⟩ := h
      cases k with
      | zero => exact .inl (by omega)
      | succ k =>
        rw [succ_mul] at hk
        right
        rw [ih _ (by rw [length_drop]; omega) rfl, length_drop, length_take]
        refine ⟨k, by omega, ?_⟩
        rw [succ_mul]
        omega

theorem mem_offsets {payloads : List Str} :
    x ∈ offsets off (payloads.flatMap cut) ↔ ∃ done p rest k, payloads = done ++ p :: rest ∧
      k * maxPlain < p.length ∧ x = off + (done.flatten.length + k * maxPlain) := by
  induction payloads generalizing off with
  | nil =>
    refine ⟨nofun, ?_⟩
    rintro ⟨done, p, rest, k, h, -⟩
    exact absurd h (append_ne_nil_of_right_ne_nil _ (cons_ne_nil _ _)).symm
  | cons q payloads ih =>
    rw [flatMap_cons, offsets_append, mem_append, mem_offsets_cut, ih, flatten_cut]
    constructor
    · rintro (⟨k, hk, rfl⟩ | ⟨done, p, rest, k, rfl, hk, rfl⟩)
      · exact ⟨[], q, payloads, k, rfl, hk, by simp⟩
      · refine ⟨q :: done, p, rest, k, rfl, hk, ?_⟩
        rw [flatten_cons, length_append]
        omega
    · rintro ⟨done, p, rest, k, heq, hk, rfl⟩
      cases done with
      | nil =>
        obtain ⟨rfl, rfl⟩ := cons.inj heq
        exact .inl ⟨k, hk, by simp⟩
      | cons q' done =>
        obtain ⟨rfl, rfl⟩ := cons.inj heq
        refine .inr ⟨done, p, rest, k, rfl, hk, ?_⟩
        rw [flatten_cons, length_append]
        omega

section
variable {aeadSeal : UInt32 → UInt64 → Str → Str} {aeadOpen : UInt32 → UInt64 → Str → Option Str}
  {epoch : UInt32} {seq : UInt64} {rand : Nat → UInt64}

/-! ### The reader keeps up -/

def Fits (epoch : UInt32) (pl : Place) : Prop := epoch.toNat + pl.updates < 2 ^ 32

variable {pl : Place} {c : Receiver} {ps : List Str}

theorem toNat_epochAt (h : Fits epoch pl) :
    (epochAt epoch pl).toNat = epoch.toNat + pl.updates := by
  unfold Fits at h
  rw [epochAt, UInt32.toNat_add, UInt32.toNat_ofNat']
  omega

def Expects (epoch : UInt32) (seq : UInt64) (rand : Nat → UInt64) (c : Receiver) (pl : Place) :
    Prop :=
  c.recvInitialized = true →
    c.recvEpoch.toNat = epoch.toNat + pl.updates ∧ c.recvSeq = seqAt seq rand pl ∨
      c.recvEpoch.toNat + 1 = epoch.toNat + pl.updates

theorem Expects.valid (h : Expects epoch seq rand c pl) (hfits : Fits epoch pl) :
    c.validateRecvPosition (epochAt epoch pl) (seqAt seq rand pl) = none := by
  unfold Receiver.validateRecvPosition
  split
  · rfl
  next hinit =>
    have hnat := toNat_epochAt hfits
    rcases h (Bool.eq_true_of_not_eq_false hinit) with ⟨hsame, hseq⟩ | hnext
    · have heq : epochAt epoch pl = c.recvEpoch := UInt32.toNat_inj.mp (by omega)
      rw [heq, hseq, if_neg (UInt32.lt_irrefl _), if_neg (fun h => h.2 rfl),
        if_neg (fun h => UInt32.lt_irrefl _ h.1)]
    · have hlt : c.recvEpoch < epochAt epoch pl := lt_iff_toNat_lt.mpr (by omega)
      have hjump : (epochAt epoch pl - c.recvEpoch).toNat = 1 := by
        rw [UInt32.toNat_sub_of_le _ _ (UInt32.le_of_lt hlt)]
        omega
      rw [if_neg (UInt32.lt_asymm hlt), if_neg (fun h => UInt32.ne_of_lt hlt h.1.symm), if_neg]
      intro h
      have := lt_iff_toNat_lt.mp h.2
      rw [hjump] at this
      exact absurd this (by decide)

variable {n : Nat} {p wire total given : Str}

theorem expects_mark (hfits : Fits epoch pl) (hn : n ≤ maxPlain) (c : Receiver) :
    Expects epoch seq rand (c.markRecvPosition (epochAt epoch pl) (seqAt seq rand pl))
      (pl.advance n) := by
  intro _
  have hnat : ((c.markRecvPosition (epochAt epoch pl) (seqAt seq rand pl)).recvEpoch).toNat =
      epoch.toNat + pl.updates := toNat_epochAt hfits
  rcases pl.advance_cases hn with ⟨hupdates, hindex⟩ | ⟨hupdates, -⟩
  · rw [hnat, hupdates, seqAt_succ hupdates hindex]
    exact .inl ⟨rfl, rfl⟩
  · rw [hnat, hupdates]
    omega

def wireOf (aeadSeal : UInt32 → UInt64 → Str → Str) (records : List Record) : Str :=
  records.flatMap (frame aeadSeal)

theorem wireOf_cons (aeadSeal : UInt32 → UInt64 → Str → Str) (r : Record) (records : List Record) :
    wireOf aeadSeal (r :: records) = frame aeadSeal r ++ wireOf aeadSeal records := rfl

theorem wireOf_append (aeadSeal : UInt32 → UInt64 → Str → Str) (records others : List Record) :
    wireOf aeadSeal (records ++ others) = wireOf aeadSeal records ++ wireOf aeadSeal others :=
  flatMap_append

def openedAt (epoch : UInt32) (seq : UInt64) (rand : Nat → UInt64) (c : Receiver) (pl : Place)
    (p rest : Str) : Receiver :=
  { c.markRecvPosition (epochAt epoch pl) (seqAt seq rand pl) with
    readBuf := rest
    accepted := c.accepted ++ [recordAt epoch seq rand pl p] }

theorem readBuffered_of_ne_nil (h : c.readBuf ≠ []) (wire : Str) :
    readBuffered n c wire =
      (.data (c.readBuf.take n), { c with readBuf := c.readBuf.drop n }, wire) :=
  if_neg fun hempty => h hempty.1

section
variable (hopen : ∀ e q p, aeadOpen e q (aeadSeal e q p) = some p)
  (hlen : ∀ e q p, (aeadSeal e q p).length = p.length + 16)
include hopen hlen

theorem read_frame (hempty : c.readBuf = []) (h : Expects epoch seq rand c pl) (hfits : Fits epoch pl)
    (hp : Piece p) (n : Nat) (rest : Str) :
    read aeadOpen n c (frame aeadSeal (recordAt epoch seq rand pl p) ++ rest) =
      (.data (p.take n), openedAt epoch seq rand c pl p (p.drop n), rest) := by
  rw [read, if_neg (not_not.mpr hempty), nextFrame_frame (hlen ..) hp.2]
  dsimp only [recordAt]
  rw [h.valid hfits]
  rw [hopen]
  exact readBuffered_of_ne_nil (length_pos_iff.mp hp.1) rest

structure Reading (aeadSeal : UInt32 → UInt64 → Str → Str) (epoch : UInt32) (seq : UInt64)
    (rand : Nat → UInt64) (total given : Str) (c : Receiver) (wire : Str) (pl : Place)
    (ps : List Str) : Prop where
  pieces : ∀ p ∈ ps, Piece p
  fits : ∀ pl' ∈ places pl ps, Fits epoch pl'
  wire : wire = wireOf aeadSeal (zipWith (recordAt epoch seq rand) (places pl ps) ps)
  expects : Expects epoch seq rand c pl
  total : total = given ++ (c.readBuf ++ ps.flatten)

theorem Reading.read (h : Reading aeadSeal epoch seq rand total given c wire pl ps) (n : Nat) :
    let r := Crypto.read aeadOpen n c wire
    (∀ e, r.1 ≠ .failed e) ∧
      (∃ pl' ps', Reading aeadSeal epoch seq rand total (given ++ r.1.bytes) r.2.1 r.2.2 pl' ps') ∧
      (0 < n → given.length < total.length → 0 < r.1.bytes.length) := by
  have htake : ∀ p : Str, 0 < p.length → 0 < n → 0 < (p.take n).length := by
    intro p hp hn
    rw [length_take]
    omega
  by_cases hbuf : c.readBuf = []
  · cases ps with
    | nil =>
      -- everything has been given, and the wire is empty
      have hwire : wire = [] := h.wire
      have hread : Crypto.read aeadOpen n c wire = (.waiting, c, wire) := by
        rw [Crypto.read, if_neg (not_not.mpr hbuf), hwire]
        rfl
      intro r
      rw [show r = (.waiting, c, wire) from hread]
      refine ⟨fun e => Outcome.noConfusion, ⟨pl, [], ?_⟩, fun _ hlt => ?_⟩
      · rw [show (Outcome.waiting, c, wire).1.bytes = [] from rfl, append_nil]
        exact h
      · have htotal := h.total
        rw [hbuf, flatten_nil, append_nil, append_nil] at htotal
        rw [htotal] at hlt
        omega
    | cons p ps =>
      have hp := h.pieces p mem_cons_self
      have hfits := h.fits pl mem_cons_self
      have hwire : wire = frame aeadSeal (recordAt epoch seq rand pl p) ++ wireOf aeadSeal
          (zipWith (recordAt epoch seq rand) (places (pl.advance p.length) ps) ps) := h.wire
      intro r
      rw [show r = _ from hwire ▸ read_frame hopen hlen hbuf h.expects hfits hp n _]
      refine ⟨fun e => Outcome.noConfusion, ⟨pl.advance p.length, ps, ?_, ?_, rfl, ?_, ?_⟩,
        fun hn _ => htake p hp.1 hn⟩
      · exact fun q hq => h.pieces q (mem_cons_of_mem p hq)
      · exact fun pl' hpl' => h.fits pl' (mem_cons_of_mem pl hpl')
      · exact expects_mark hfits hp.2 c
      · rw [h.total, hbuf]
        dsimp only [Outcome.bytes, openedAt]
        rw [append_assoc, ← append_assoc (p.take n), take_append_drop]
        rfl
  · have hread : Crypto.read aeadOpen n c wire =
        (.data (c.readBuf.take n), { c with readBuf := c.readBuf.drop n }, wire) := by
      rw [Crypto.read, if_pos hbuf, readBuffered_of_ne_nil hbuf]
    intro r
    rw [show r = _ from hread]
    refine ⟨fun e => Outcome.noConfusion, ⟨pl, ps, h.pieces, h.fits, h.wire, h.expects, ?_⟩,
      fun hn _ => htake _ (length_pos_iff.mpr hbuf) hn⟩
    rw [h.total]
    dsimp only [Outcome.bytes]
    rw [append_assoc, ← append_assoc (c.readBuf.take n), take_append_drop]

theorem Reading.reads (h : Reading aeadSeal epoch seq rand total given c wire pl ps) (sizes : List Nat) :
    let outcomes := (Crypto.reads aeadOpen sizes c wire).1
    (∀ o ∈ outcomes, ∀ e, o ≠ .failed e) ∧
      given ++ outcomes.flatMap Outcome.bytes <+: total ∧
      (total.length ≤ given.length + sizes.countP (0 < ·) →
        given ++ outcomes.flatMap Outcome.bytes = total) := by
  induction sizes generalizing given c wire pl ps with
  | nil =>
    have hprefix : given <+: total := ⟨_, h.total.symm⟩
    refine ⟨nofun, ?_, fun hle => ?_⟩
    · rw [Crypto.reads, flatMap_nil, append_nil]
      exact hprefix
    · rw [Crypto.reads, flatMap_nil, append_nil]
      exact hprefix.eq_of_length_le hle
  | cons n sizes ih =>
    obtain ⟨hok, ⟨pl', ps', hnext⟩, hprogress⟩ := h.read hopen hlen n
    obtain ⟨hoks, hprefix, hall⟩ := ih hnext
    rw [Crypto.reads]
    dsimp only
    rw [flatMap_cons, ← append_assoc]
    refine ⟨forall_mem_cons.mpr ⟨hok, hoks⟩, hprefix, fun hle => hall ?_⟩
    · rw [countP_cons] at hle
      rw [length_append]
      by_cases hn : 0 < n
      · by_cases hlt : given.length < total.length
        · simp only [hn, decide_true, if_true] at hle
          omega
        · omega
      · simp only [hn, decide_false, Bool.false_eq_true, if_false] at hle
        omega

/-! ### The reader behind the last epoch -/

theorem reads_pieces (hempty : c.readBuf = []) (h : Expects epoch seq rand c pl)
    (hps : ∀ p ∈ ps, Piece p) (hfits : ∀ pl' ∈ places pl ps, Fits epoch pl') (rest : Str) :
    let r := reads aeadOpen (ps.map length) c (wireOf aeadSeal
      (zipWith (recordAt epoch seq rand) (places pl ps) ps) ++ rest)
    r.2.1.readBuf = [] ∧ r.2.2 = rest ∧ Expects epoch seq rand r.2.1 (placeAfter pl ps) ∧
      (ps ≠ [] ∨ c.recvInitialized = true → r.2.1.recvInitialized = true) := by
  induction ps generalizing c pl with
  | nil => exact ⟨hempty, rfl, h, fun hinit => hinit.resolve_left fun hne => hne rfl⟩
  | cons p ps ih =>
    have hp := hps p mem_cons_self
    have hfit := hfits pl mem_cons_self
    have hwire : wireOf aeadSeal
          (zipWith (recordAt epoch seq rand) (places pl (p :: ps)) (p :: ps)) ++ rest =
        frame aeadSeal (recordAt epoch seq rand pl p) ++ (wireOf aeadSeal
          (zipWith (recordAt epoch seq rand) (places (pl.advance p.length) ps) ps) ++ rest) :=
      append_assoc ..
    rw [hwire, map_cons, reads, read_frame hopen hlen hempty h hfit hp]
    have hrest := ih (c := openedAt epoch seq rand c pl p (p.drop p.length)) drop_length
      (expects_mark hfit hp.2 c) (fun q hq => hps q (mem_cons_of_mem p hq))
      (fun pl' hpl' => hfits pl' (mem_cons_of_mem pl hpl'))
    exact ⟨hrest.1, hrest.2.1, hrest.2.2.1, fun _ => hrest.2.2.2 (.inr rfl)⟩

end

theorem read_wrapped (aeadOpen : UInt32 → UInt64 → Str → Option Str)
    (hlen : ∀ e q p, (aeadSeal e q p).length = p.length + 16) (hempty : c.readBuf = [])
    (hinit : c.recvInitialized = true) (h : Expects epoch seq rand c pl) (hwrap : ¬ Fits epoch pl)
    (hp : Piece p) (n : Nat) (rest : Str) :
    (read aeadOpen n c (frame aeadSeal (recordAt epoch seq rand pl p) ++ rest)).1 =
      .failed (.replayedEpoch 0 c.recvEpoch) := by
  have hlt := c.recvEpoch.toNat_lt
  unfold Fits at hwrap
  have hlast : c.recvEpoch.toNat + 1 = epoch.toNat + pl.updates := by
    rcases h hinit with ⟨hsame, -⟩ | hnext
    · omega
    · exact hnext
  have hzero : epochAt epoch pl = 0 := by
    apply UInt32.toNat_inj.mp
    rw [epochAt, UInt32.toNat_add, UInt32.toNat_ofNat']
    change _ = 0
    omega
  have hreplay : (0 : UInt32) < c.recvEpoch := by
    apply lt_iff_toNat_lt.mpr
    change 0 < _
    omega
  rw [read, if_neg (not_not.mpr hempty), nextFrame_frame (hlen ..) hp.2]
  dsimp only [recordAt]
  rw [hzero, Receiver.validateRecvPosition, if_neg (by rw [hinit]; exact Bool.noConfusion),
    if_pos hreplay]

theorem exists_first_wrapped {pl' : Place} (hfits : Fits epoch pl)
    (hmem : pl' ∈ places pl ps) (hwrap : ¬ Fits epoch pl') :
    ∃ done p rest, ps = done ++ p :: rest ∧ done ≠ [] ∧
      (∀ pl'' ∈ places pl done, Fits epoch pl'') ∧ ¬ Fits epoch (placeAfter pl done) := by
  induction ps generalizing pl with
  | nil => cases hmem
  | cons p ps ih =>
    rcases mem_cons.mp hmem with rfl | hmem
    · exact absurd hfits hwrap
    · by_cases hnext : Fits epoch (pl.advance p.length)
      · obtain ⟨done, q, rest, rfl, -, hdone, hafter⟩ := ih hnext hmem
        exact ⟨p :: done, q, rest, rfl, cons_ne_nil _ _, forall_mem_cons.mpr ⟨hfits, hdone⟩, hafter⟩
      · cases ps with
        | nil => cases hmem
        | cons q rest =>
          exact ⟨[p], q, rest, rfl, cons_ne_nil _ _, forall_mem_singleton.mpr hfits, hnext⟩

end

/-! ### Streams -/

structure Delivers (aeadSeal : UInt32 → UInt64 → Str → Str)
    (aeadOpen : UInt32 → UInt64 → Str → Option Str) (records : List Record) (written : Str) :
    Prop where
  accepted : ∀ sizes, ∀ o ∈ (reads aeadOpen sizes {} (wireOf aeadSeal records)).1,
    ∀ e, o ≠ .failed e
  /-- What has been read is a start of what was written. -/
  inOrder : ∀ sizes,
    (reads aeadOpen sizes {} (wireOf aeadSeal records)).1.flatMap Outcome.bytes <+: written
  /-- With enough reads that have room for a byte it is all of it. -/
  complete : ∀ sizes : List Nat, written.length ≤ sizes.countP (0 < ·) →
    (reads aeadOpen sizes {} (wireOf aeadSeal records)).1.flatMap Outcome.bytes = written
  fresh : (records.map fun r => (r.epoch, r.seq)).Nodup

section
variable {aeadSeal : UInt32 → UInt64 → Str → Str} {aeadOpen : UInt32 → UInt64 → Str → Option Str}
  {epoch : UInt32} {seq : UInt64} {rand : Nat → UInt64} {ps : List Str}

variable {pl : Place}

theorem updates_succ_lt (hepoch : epoch ≠ 0) (h : Fits epoch pl) : pl.updates + 1 < 2 ^ 32 := by
  have : epoch.toNat ≠ 0 := fun h => hepoch (UInt32.toNat_inj.mp h)
  unfold Fits at h
  omega

theorem position_ne_of_before {a b : Place} (ha : Fits epoch a) (hb : Fits epoch b)
    (hvalid : b.Valid) (h : a.Before b) :
    (epochAt epoch a, seqAt seq rand a) ≠ (epochAt epoch b, seqAt seq rand b) := by
  intro heq
  obtain ⟨hepochs, hseqs⟩ := Prod.mk.inj heq
  have hnat := congrArg UInt32.toNat hepochs
  rw [toNat_epochAt ha, toNat_epochAt hb] at hnat
  have hupdates : a.updates = b.updates := by omega
  have hlb := hvalid.index_lt
  unfold keyUpdateAfterBytes at hlb
  rw [seqAt, hupdates] at hseqs
  have hindex := congrArg UInt64.toNat ((UInt64.add_right_inj _).mp hseqs)
  rw [UInt64.toNat_ofNat', UInt64.toNat_ofNat'] at hindex
  unfold Place.Before at h
  omega

theorem sentRecords_nodup (hps : ∀ p ∈ ps, Piece p)
    (hfits : ∀ pl ∈ places ⟨0, 0⟩ ps, Fits epoch pl) :
    ((sentRecords epoch seq rand ps).map fun r => (r.epoch, r.seq)).Nodup := by
  have hmap : (sentRecords epoch seq rand ps).map (fun r => (r.epoch, r.seq)) =
      (places ⟨0, 0⟩ ps).map fun pl => (epochAt epoch pl, seqAt seq rand pl) := by
    have hfst := map_fst_zip (Nat.le_of_eq (length_places ⟨0, 0⟩ ps))
    conv_rhs => rw [← hfst]
    rw [sentRecords, ← map_uncurry_zip_eq_zipWith, map_map, map_map]
    rfl
  rw [hmap, List.Nodup, pairwise_map]
  apply (places_before hps).imp_of_mem
  intro a b ha hb hbefore
  have hvalid : b.Valid := valid_of_mem_places hps (zero_le _) hb
  exact position_ne_of_before (hfits a ha) (hfits b hb) hvalid hbefore

theorem expects_new (pl : Place) : Expects epoch seq rand {} pl := fun h => Bool.noConfusion h

section

variable (hopen : ∀ e q p, aeadOpen e q (aeadSeal e q p) = some p)
  (hlen : ∀ e q p, (aeadSeal e q p).length = p.length + 16)
include hopen hlen

theorem delivers_of_fits (hps : ∀ p ∈ ps, Piece p)
    (hfits : ∀ pl ∈ places ⟨0, 0⟩ ps, Fits epoch pl) :
    Delivers aeadSeal aeadOpen (sentRecords epoch seq rand ps) ps.flatten := by
  have hstart : Reading aeadSeal epoch seq rand ps.flatten [] {}
      (wireOf aeadSeal (sentRecords epoch seq rand ps)) ⟨0, 0⟩ ps :=
    ⟨hps, hfits, rfl, expects_new _, rfl⟩
  refine ⟨fun sizes => (hstart.reads hopen hlen sizes).1, fun sizes => ?_, fun sizes h => ?_,
    sentRecords_nodup hps hfits⟩
  · exact (hstart.reads hopen hlen sizes).2.1
  · apply (hstart.reads hopen hlen sizes).2.2
    omega

theorem not_delivers_of_wrapped (hepoch : epoch ≠ 0)
    (hps : ∀ p ∈ ps, Piece p) (hmem : pl ∈ places ⟨0, 0⟩ ps)
    (hwrap : ¬ Fits epoch pl) (written : Str) :
    ¬ Delivers aeadSeal aeadOpen (sendPieces rand (newSender epoch seq) ps).1 written := by
  have hzero : Fits epoch ⟨0, 0⟩ := by
    exact epoch.toNat_lt
  obtain ⟨done, p, rest, rfl, hne, hdone, hafter⟩ := exists_first_wrapped hzero hmem hwrap
  have hpieces : ∀ q ∈ done, Piece q := fun q hq => hps q (mem_append_left _ hq)
  have hp : Piece p := hps p (mem_append_right _ mem_cons_self)
  -- the records up to the one that is refused are those of their places
  obtain ⟨others, hsent⟩ : ∃ others, (sendPieces rand (newSender epoch seq) (done ++ p :: rest)).1 =
      zipWith (recordAt epoch seq rand) (places ⟨0, 0⟩ done) done ++
        recordAt epoch seq rand (placeAfter ⟨0, 0⟩ done) p :: others := by
    rw [sendPieces_append, newSender_eq,
      sendPieces_senderAt hpieces fun pl' h => updates_succ_lt hepoch (hdone pl' h)]
    exact ⟨_, rfl⟩
  intro h
  have hstart : Expects epoch seq rand {} ⟨0, 0⟩ := expects_new _
  obtain ⟨hbuf, hwire, hexpects, hinit⟩ := reads_pieces hopen hlen rfl hstart hpieces hdone
    (frame aeadSeal (recordAt epoch seq rand (placeAfter ⟨0, 0⟩ done) p) ++ wireOf aeadSeal others)
  refine h.accepted (done.map length ++ [1]) _ ?_ _
    (read_wrapped aeadOpen hlen hbuf (hinit (.inl hne)) hexpects hafter hp 1 (wireOf aeadSeal others))
  rw [hsent, reads_append, mem_append]
  right
  rw [wireOf_append, wireOf_cons]
  apply mem_singleton.mpr
  rw [hwire]

end

end

/-- Over an ordered transport the records of a peer are accepted, and what was written is read, if
and only if no record starts so far into the stream that its epoch has come round to zero. -/
theorem delivers_iff (aeadSeal : UInt32 → UInt64 → Str → Str)
    (aeadOpen : UInt32 → UInt64 → Str → Option Str)
    (hopen : ∀ e q p, aeadOpen e q (aeadSeal e q p) = some p)
    (hlen : ∀ e q p, (aeadSeal e q p).length = p.length + 16) (epoch : UInt32) (hepoch : epoch ≠ 0)
    (seq : UInt64) (rand : Nat → UInt64) (payloads : List Str) :
    Delivers aeadSeal aeadOpen (writes rand (newSender epoch seq) payloads) payloads.flatten ↔
      ∀ done p rest k, payloads = done ++ p :: rest → k * maxPlain < p.length →
        epoch.toNat + (done.flatten.length + k * maxPlain) / keyUpdateAfterBytes < 2 ^ 32 := by
  have hoffsets : (places ⟨0, 0⟩ (payloads.flatMap cut)).map Place.offset =
      offsets 0 (payloads.flatMap cut) := map_offset_places ..
  constructor
  · intro h done p rest k hsplit hk
    have hmem : done.flatten.length + k * maxPlain ∈ offsets 0 (payloads.flatMap cut) :=
      mem_offsets.mpr ⟨done, p, rest, k, hsplit, hk, (Nat.zero_add _).symm⟩
    rw [← hoffsets] at hmem
    obtain ⟨pl, hpl, hoffset⟩ := mem_map.mp hmem
    rw [← hoffset]
    by_contra hwrap
    rw [writes_eq] at h
    exact not_delivers_of_wrapped hopen hlen hepoch piece_of_mem hpl hwrap _ h
  · intro h
    have hfits : ∀ pl ∈ places ⟨0, 0⟩ (payloads.flatMap cut), Fits epoch pl := by
      intro pl hpl
      have hmem := mem_map_of_mem (f := Place.offset) hpl
      rw [hoffsets] at hmem
      obtain ⟨done, p, rest, k, hsplit, hk, hoffset⟩ := mem_offsets.mp hmem
      rw [Fits, Place.updates, hoffset, Nat.zero_add]
      exact h done p rest k hsplit hk
    rw [writes_eq_sentRecords fun pl hpl => updates_succ_lt hepoch (hfits pl hpl),
      ← flatten_flatMap_cut]
    exact delivers_of_fits hopen hlen piece_of_mem hfits

def plainOpen (_ : UInt32) (_ : UInt64) (ciphertext : Str) : Option Str :=
  some (ciphertext.take (ciphertext.length - 16))

theorem plainOpen_plainSeal (e : UInt32) (q : UInt64) (p : Str) :
    plainOpen e q (plainSeal e q p) = some p := by
  rw [plainOpen, plainSeal, length_append, length_replicate, Nat.add_sub_cancel, take_left]

theorem length_plainSeal (e : UInt32) (q : UInt64) (p : Str) :
    (plainSeal e q p).length = p.length + 16 := by
  rw [plainSeal, length_append, length_replicate]

theorem delivers_iff_sample :
    Delivers plainSeal plainOpen (writes (fun _ => 1) (newSender 5 7) [[97], [98]]) [97, 98] := by
  apply (delivers_iff plainSeal plainOpen plainOpen_plainSeal length_plainSeal 5 (by decide) 7
    (fun _ => 1) [[97], [98]]).mpr
  intro done p rest k hsplit hk
  have hlen := congrArg (fun l => l.flatten.length) hsplit
  simp only [flatten_append, flatten_cons, length_append] at hlen
  change 2 = _ at hlen
  change 5 + _ < _
  unfold keyUpdateAfterBytes
  omega

/-- From the last epoch but one, the record after 64 MiB is refused. -/
theorem epoch_wraps :
    ¬ Delivers plainSeal plainOpen (writes (fun _ => 1) (newSender 4294967294 7)
      [List.replicate (2 * keyUpdateAfterBytes) 0, [0]])
      [List.replicate (2 * keyUpdateAfterBytes) 0, [0]].flatten := by
  have hmem : 2 * keyUpdateAfterBytes ∈
      offsets 0 ([List.replicate (2 * keyUpdateAfterBytes) 0, [0]].flatMap cut) := by
    refine mem_offsets.mpr ⟨[List.replicate (2 * keyUpdateAfterBytes) 0], [0], [], 0, rfl, ?_, ?_⟩
    · exact Nat.zero_lt_one
    · rw [flatten_cons, flatten_nil, append_nil, length_replicate]
      omega
  rw [show (0 : Nat) = Place.offset ⟨0, 0⟩ from rfl, ← map_offset_places] at hmem
  obtain ⟨pl, hpl, hoffset⟩ := mem_map.mp hmem
  rw [writes_eq]
  apply not_delivers_of_wrapped plainOpen_plainSeal length_plainSeal (by decide) piece_of_mem hpl
  rw [Fits, Place.updates, hoffset]
  decide

end Mihomo.Sudoku.Crypto
