import Mathlib.Data.UInt
import Mathlib.Tactic.Common

/-!
# The replay window of the data channel

`acceptPacketID` remembers the highest packet ID that it has accepted and, in the bits of a word, which
of the 64 IDs up to it. Its decisions are those of a filter that remembers all of them.
-/

namespace Mihomo.OpenVPN
open List UInt32

/-- The fields of `DataChannel` for the packets that were received. -/
structure RecvState where
  recvHighest : UInt32
  recvWindow : BitVec 64
  recvSeen : Bool
  deriving DecidableEq, Repr

def dataChannelReplayWindow : Nat := 64

def acceptPacketID (d : RecvState) (packetID : UInt32) : Except String RecvState :=
  let replayed := .error ("openvpn replayed data packet id " ++ toString packetID)
  if !d.recvSeen then .ok ⟨packetID, 1, true⟩
  else if d.recvHighest < packetID then
    let shift := (packetID - d.recvHighest).toNat
    .ok { d with
      recvWindow := if dataChannelReplayWindow ≤ shift then 1 else d.recvWindow <<< shift ||| 1#64
      recvHighest := packetID }
  else
    let diff := (d.recvHighest - packetID).toNat
    if dataChannelReplayWindow ≤ diff then replayed
    else
      let mask := 1#64 <<< diff
      if d.recvWindow &&& mask ≠ 0 then replayed
      else .ok { d with recvWindow := d.recvWindow ||| mask }

def RemembersAll (accepted : List UInt32) (id : UInt32) : Prop :=
  accepted = [] ∨ (∀ a ∈ accepted, a < id) ∨
    id ∉ accepted ∧ ∃ high ∈ accepted, (∀ a ∈ accepted, a ≤ high) ∧ high.toNat ≤ id.toNat + 63 ∧
      id.toNat ≤ high.toNat + 63

instance (accepted : List UInt32) (id : UInt32) : Decidable (RemembersAll accepted id) := by
  unfold RemembersAll
  have hall (p : UInt32 → Prop) [DecidablePred p] : Decidable (∀ a ∈ accepted, p a) :=
    List.decidableBAll p accepted
  infer_instance

def decisions : RecvState → List UInt32 → List Bool
  | _, [] => []
  | d, id :: ids =>
    match acceptPacketID d id with
    | .error _ => false :: decisions d ids
    | .ok d' => true :: decisions d' ids

def reference : List UInt32 → List UInt32 → List Bool × List UInt32
  | accepted, [] => ([], accepted)
  | accepted, id :: ids =>
    let accepts := RemembersAll accepted id
    let (rest, last) := reference (if accepts then id :: accepted else accepted) ids
    (decide accepts :: rest, last)

/-- Bit `k` of the window says whether the ID `k` below the highest one was accepted. -/
structure Represents (d : RecvState) (accepted : List UInt32) : Prop where
  seen : d.recvSeen = true
  mem : d.recvHighest ∈ accepted
  highest : ∀ a ∈ accepted, a ≤ d.recvHighest
  window : ∀ k < 64, d.recvWindow.getLsbD k = true ↔ ∃ a ∈ accepted, a.toNat + k = d.recvHighest.toNat
  nodup : accepted.Nodup

variable {d : RecvState} {accepted : List UInt32} {id : UInt32}

theorem represents_first (id : UInt32) : Represents ⟨id, 1, true⟩ [id] := by
  refine ⟨rfl, mem_singleton.mpr rfl, ?_, fun k hk => ?_, nodup_singleton id⟩
  · intro a ha
    rw [mem_singleton.mp ha]
    exact UInt32.le_refl _
  · simp

theorem Represents.le (h : Represents d accepted) {a : UInt32} (ha : a ∈ accepted) :
    a.toNat ≤ d.recvHighest.toNat := le_iff_toNat_le.mp (h.highest a ha)

theorem Represents.ahead (h : Represents d accepted) (hlt : d.recvHighest < id) :
    ∃ d', acceptPacketID d id = .ok d' ∧ Represents d' (id :: accepted) := by
  have hshift : (id - d.recvHighest).toNat = id.toNat - d.recvHighest.toNat :=
    UInt32.toNat_sub_of_le _ _ (UInt32.le_of_lt hlt)
  have hlt' := lt_iff_toNat_lt.mp hlt
  unfold acceptPacketID
  rw [h.seen, if_neg (by decide), if_pos hlt]
  refine ⟨_, rfl, rfl, mem_cons_self, forall_mem_cons.mpr ⟨UInt32.le_refl _, fun a ha => ?_⟩,
    fun k hk => ?_, nodup_cons.mpr ⟨?_, h.nodup⟩⟩
  · exact UInt32.le_trans (h.highest a ha) (UInt32.le_of_lt hlt)
  · rw [hshift, dataChannelReplayWindow]
    have hold : (∃ a ∈ accepted, a.toNat + k = id.toNat) ↔
        id.toNat - d.recvHighest.toNat ≤ k ∧
          ∃ a ∈ accepted, a.toNat + (k - (id.toNat - d.recvHighest.toNat)) = d.recvHighest.toNat := by
      constructor
      · rintro ⟨a, ha, heq⟩
        have := h.le ha
        exact ⟨by omega, a, ha, by omega⟩
      · rintro ⟨hle, a, ha, heq⟩
        exact ⟨a, ha, by omega⟩
    simp only [mem_cons, exists_eq_or_imp, hold]
    split_ifs with hfar
    · simp; omega
    · rw [← h.window _ (by omega), BitVec.getLsbD_or, BitVec.getLsbD_shiftLeft, Bool.or_comm]
      simp [hk]
  · intro hmem
    have := h.le hmem
    omega

theorem and_mask_eq_zero_iff (w : BitVec 64) {k : Nat} (hk : k < 64) :
    w &&& 1#64 <<< k = 0 ↔ w.getLsbD k = false := by
  rw [← BitVec.twoPow_eq, BitVec.and_twoPow]
  split_ifs with hbit
  · refine iff_of_false (fun h => ?_) (by rw [hbit]; decide)
    have := congrArg (BitVec.getLsbD · k) h
    simp [hk] at this
  · exact iff_of_true rfl (Bool.eq_false_of_not_eq_true hbit)

theorem Represents.within (h : Represents d accepted) (hle : id ≤ d.recvHighest) :
    ((∃ e, acceptPacketID d id = .error e) ∧ (id ∈ accepted ∨ id.toNat + 63 < d.recvHighest.toNat)) ∨
      ∃ d', acceptPacketID d id = .ok d' ∧ id ∉ accepted ∧ d.recvHighest.toNat ≤ id.toNat + 63 ∧
        Represents d' (id :: accepted) := by
  have hdiff : (d.recvHighest - id).toNat = d.recvHighest.toNat - id.toNat :=
    UInt32.toNat_sub_of_le _ _ hle
  have hle' := le_iff_toNat_le.mp hle
  have hsame : ∀ a, a.toNat + (d.recvHighest.toNat - id.toNat) = d.recvHighest.toNat ↔
      a = id := fun a => by
    rw [← UInt32.toNat_inj]
    omega
  unfold acceptPacketID
  rw [h.seen, if_neg (by decide), if_neg (UInt32.not_lt.mpr hle)]
  rw [hdiff, dataChannelReplayWindow]
  by_cases hfar : 64 ≤ d.recvHighest.toNat - id.toNat
  · rw [if_pos hfar]
    exact .inl ⟨⟨_, rfl⟩, .inr (by omega)⟩
  have hbit := h.window (d.recvHighest.toNat - id.toNat) (by omega)
  simp only [hsame, exists_eq_right] at hbit
  have hzero := and_mask_eq_zero_iff d.recvWindow (k := d.recvHighest.toNat - id.toNat) (by omega)
  rw [if_neg hfar]
  by_cases hmem : id ∈ accepted
  · rw [if_pos fun h0 => Bool.noConfusion ((hzero.mp h0).symm.trans (hbit.mpr hmem))]
    exact .inl ⟨⟨_, rfl⟩, .inl hmem⟩
  rw [if_neg (not_not.mpr (hzero.mpr (Bool.eq_false_of_not_eq_true (mt hbit.mp hmem))))]
  refine .inr ⟨_, rfl, hmem, by omega, rfl, mem_cons_of_mem _ h.mem, ?_, fun k hk => ?_,
    nodup_cons.mpr ⟨hmem, h.nodup⟩⟩
  · exact forall_mem_cons.mpr ⟨hle, h.highest⟩
  · rw [← BitVec.twoPow_eq, BitVec.getLsbD_or, BitVec.getLsbD_twoPow, Bool.or_eq_true, h.window k hk]
    simp only [mem_cons, exists_eq_or_imp, Bool.and_eq_true, decide_eq_true_eq]
    rw [or_comm]
    refine or_congr_left ?_
    omega

/-- The code's state after the IDs `accepted`. -/
def Tracks (d : RecvState) (accepted : List UInt32) : Prop :=
  d.recvSeen = false ∧ accepted = [] ∨ Represents d accepted

theorem Represents.remembersAll_iff (h : Represents d accepted) : RemembersAll accepted id ↔
    d.recvHighest < id ∨ id ∉ accepted ∧ d.recvHighest.toNat ≤ id.toNat + 63 := by
  constructor
  · rintro (rfl | hall | ⟨hnew, high, hmem, hhigh, hnear, -⟩)
    · exact absurd h.mem not_mem_nil
    · exact .inl (hall _ h.mem)
    · exact .inr ⟨hnew, (le_iff_toNat_le.mp (hhigh _ h.mem)).trans hnear⟩
  · rintro (hlt | ⟨hnew, hnear⟩)
    · exact .inr (.inl fun a ha => UInt32.lt_of_le_of_lt (h.highest a ha) hlt)
    · rcases UInt32.lt_or_le d.recvHighest id with hlt | hle
      · exact .inr (.inl fun a ha => UInt32.lt_of_le_of_lt (h.highest a ha) hlt)
      · have := le_iff_toNat_le.mp hle
        exact .inr (.inr ⟨hnew, _, h.mem, h.highest, hnear, by omega⟩)

theorem accept_tracks (h : Tracks d accepted) (id : UInt32) :
    ((∃ e, acceptPacketID d id = .error e) ∧ ¬ RemembersAll accepted id) ∨
      ∃ d', acceptPacketID d id = .ok d' ∧ RemembersAll accepted id ∧ Tracks d' (id :: accepted) := by
  rcases h with ⟨hseen, rfl⟩ | h
  · refine .inr ⟨⟨id, 1, true⟩, ?_, .inl rfl, .inr (represents_first id)⟩
    rw [acceptPacketID, hseen]
    rfl
  rw [h.remembersAll_iff]
  rcases UInt32.lt_or_le d.recvHighest id with hlt | hle
  · obtain ⟨d', heq, hrep⟩ := h.ahead hlt
    exact .inr ⟨d', heq, .inl hlt, .inr hrep⟩
  · rcases h.within hle with ⟨heq, hold⟩ | ⟨d', heq, hnew, hnear, hrep⟩
    · refine .inl ⟨heq, ?_⟩
      rintro (hlt | ⟨hnew, hnear⟩)
      · exact absurd hlt (UInt32.not_lt.mpr hle)
      · rcases hold with hmem | hfar
        · exact hnew hmem
        · omega
    · exact .inr ⟨d', heq, .inr ⟨hnew, hnear⟩, .inr hrep⟩

theorem decisions_eq (h : Tracks d accepted) (ids : List UInt32) :
    decisions d ids = (reference accepted ids).1 ∧ (reference accepted ids).2.Nodup := by
  induction ids generalizing d accepted with
  | nil =>
    refine ⟨rfl, ?_⟩
    rcases h with ⟨-, rfl⟩ | h
    · exact nodup_nil
    · exact h.nodup
  | cons id ids ih =>
    rw [decisions, reference]
    rcases accept_tracks h id with ⟨⟨e, heq⟩, hnot⟩ | ⟨d', heq, hall, hnext⟩
    · obtain ⟨hdec, hnodup⟩ := ih h
      rw [heq, decide_eq_false hnot, if_neg hnot]
      exact ⟨congrArg _ hdec, hnodup⟩
    · obtain ⟨hdec, hnodup⟩ := ih hnext
      rw [heq, decide_eq_true hall, if_pos hall]
      exact ⟨congrArg _ hdec, hnodup⟩

/-- The packet IDs that a data channel accepts are those that the filter accepts that remembers all
of them, and none is accepted twice. -/
theorem acceptPacketID_refines (ids : List UInt32) :
    decisions ⟨0, 0, false⟩ ids = (reference [] ids).1 ∧ (reference [] ids).2.Nodup :=
  decisions_eq (.inl ⟨rfl, rfl⟩) ids

end Mihomo.OpenVPN
