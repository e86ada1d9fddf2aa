import Mihomo.OpenVPN.Acks
import Mathlib.Data.List.Nodup

/-!
# Acknowledgements on outgoing packets

`takeAcks` moves the first pending message numbers to the front of the recently acknowledged ones, and
a packet carries the front of that list. So a number stays pending until a packet carries it, and
only a number that a packet has carried can fall off the end of the list.
-/

namespace Mihomo.OpenVPN
open Lib List Nat

/-! ### The recent acknowledgements -/

variable {id : UInt32} {ids acks : List UInt32}

theorem shiftAcks_eq (id move : UInt32) (acks : List UInt32) :
    shiftAcks id move acks = if id ∈ acks then (move :: acks.erase id, none)
      else ((move :: acks).dropLast, (move :: acks).getLast?) := by
  induction acks generalizing move with
  | nil => rfl
  | cons ack acks ih =>
    rw [shiftAcks]
    by_cases heq : ack = id
    · simp [heq]
    · rw [if_neg heq, ih]
      by_cases hmem : id ∈ acks
      · simp [hmem, heq]
      · simp [hmem, Ne.symm heq]

theorem moveToFront_eq (id : UInt32) (h : acks.length ≤ reliableAckSize) :
    moveToFront id acks = (id :: acks.erase id).take reliableAckSize := by
  unfold moveToFront
  rw [shiftAcks_eq]
  by_cases hmem : id ∈ acks
  · rw [if_pos hmem, take_of_length_le]
    rw [length_cons, length_erase_of_mem hmem]
    have := length_pos_of_mem hmem
    omega
  · have hlast := getLast?_eq_some_getLast (cons_ne_nil id acks)
    rw [if_neg hmem, hlast, erase_of_not_mem hmem]
    dsimp only
    rw [length_dropLast]
    split_ifs with hlt
    · rw [dropLast_append_getLast, take_of_length_le hlt]
    · rw [dropLast_eq_take, length_cons, Nat.add_sub_cancel,
        Nat.le_antisymm h (Nat.le_of_not_lt hlt)]

theorem length_foldr_moveToFront (ids : List UInt32) (h : acks.length ≤ reliableAckSize) :
    (ids.foldr moveToFront acks).length ≤ reliableAckSize := by
  induction ids with
  | nil => exact h
  | cons id ids ih =>
    rw [foldr_cons, moveToFront_eq id ih]
    exact length_take_le _ _

theorem nodup_foldr_moveToFront (ids : List UInt32) (h : acks.length ≤ reliableAckSize)
    (hnodup : acks.Nodup) : (ids.foldr moveToFront acks).Nodup := by
  induction ids with
  | nil => exact hnodup
  | cons id ids ih =>
    rw [foldr_cons, moveToFront_eq id (length_foldr_moveToFront ids h)]
    exact (nodup_cons.mpr ⟨ih.not_mem_erase, ih.erase id⟩).sublist (take_sublist ..)

/-- The numbers that are moved to the front stay there in their order, as long as there is room. -/
theorem isPrefix_foldr_moveToFront (h : acks.length ≤ reliableAckSize) (hids : ids.Nodup)
    (hroom : ids.length ≤ reliableAckSize) : ids <+: ids.foldr moveToFront acks := by
  induction ids with
  | nil => exact nil_prefix
  | cons id ids ih =>
    obtain ⟨hnew, hids⟩ := nodup_cons.mp hids
    obtain ⟨rest, hrest⟩ := ih hids (le_of_succ_le hroom)
    rw [foldr_cons, moveToFront_eq id (length_foldr_moveToFront ids h), ← hrest,
      erase_append_right _ hnew]
    exact (prefix_take_iff.mpr ⟨prefix_append (id :: ids) _, hroom⟩)

theorem mem_of_mem_foldr_moveToFront (h : acks.length ≤ reliableAckSize)
    (hid : id ∈ ids.foldr moveToFront acks) : id ∈ ids ∨ id ∈ acks := by
  induction ids with
  | nil => exact .inr hid
  | cons i ids ih =>
    rw [foldr_cons, moveToFront_eq i (length_foldr_moveToFront ids h)] at hid
    rcases mem_cons.mp (mem_of_mem_take hid) with rfl | hid
    · exact .inl mem_cons_self
    · exact (ih (mem_of_mem_erase hid)).imp_left (mem_cons_of_mem i)

namespace ControlChannel

variable {c : ControlChannel} {max : Nat}

structure AckState (c : ControlChannel) : Prop where
  pending : c.ackPending.Nodup
  recent : c.lruAcks.Nodup
  length : c.lruAcks.length ≤ reliableAckSize

/-- `takeAcks` returns the first pending numbers, followed by others that were recently acknowledged. -/
structure Takes (c : ControlChannel) (max : Nat) : Prop where
  nodup : (c.takeAcks max).1.Nodup
  length : (c.takeAcks max).1.length ≤ max
  front : c.ackPending.take (min c.ackPending.length max) <+: (c.takeAcks max).1
  rest : (c.takeAcks max).2.ackPending = c.ackPending.drop (min c.ackPending.length max)
  recent : (c.takeAcks max).2.lruAcks.Nodup
  bound : (c.takeAcks max).2.lruAcks.length ≤ 8

theorem AckState.takes (h : c.AckState) (hmax : max ≤ reliableAckSize) : c.Takes max := by
  have hlength := length_foldr_moveToFront (c.ackPending.take (min c.ackPending.length max)) h.length
  have hnodup := nodup_foldr_moveToFront (c.ackPending.take (min c.ackPending.length max)) h.length
    h.recent
  have htaken : (c.ackPending.take (min c.ackPending.length max)).length ≤ max :=
    (length_take_le ..).trans (min_le_right ..)
  have hfront := isPrefix_foldr_moveToFront h.length
    (h.pending.sublist (take_sublist ..)) (htaken.trans hmax)
  have hrecent := hnodup.sublist (take_sublist reliableAckSize _)
  refine ⟨hrecent.sublist (take_sublist ..), length_take_le .., ?_, rfl, hrecent,
    length_take_le ..⟩
  refine prefix_take_iff.mpr ⟨?_, htaken⟩
  rw [take_of_length_le hlength]
  exact hfront

theorem AckState.recent_takeAcks (h : c.AckState) (hmax : max ≤ reliableAckSize)
    (hid : id ∈ (c.takeAcks max).2.lruAcks) : id ∈ (c.takeAcks max).1 ∨ id ∈ c.lruAcks := by
  refine (mem_of_mem_foldr_moveToFront h.length (mem_of_mem_take hid)).imp_left fun hid => ?_
  exact (h.takes hmax).front.subset hid

end ControlChannel

/-! ### Runs -/

/-- The acknowledgements on the packet that a step makes; all packets of a retransmission carry the
same ones. -/
def Control.packetAcks (s : Control) : Action → Option (List UInt32)
  | .send opcode payload =>
    if opcode.hasMessageID then some (s.channel.makePacket opcode payload).1.ackIDs else none
  | .sendAck =>
    if s.channel.ackPending = [] then none
    else some (s.channel.takeAcks s.channel.dedicatedAckMax).1
  | .retransmitPending =>
    if s.channel.pending.entries = [] then none
    else some (s.channel.takeAcks controlSendAckMax).1
  | _ => none

def Control.serialized : Control → List Action → List (List UInt32)
  | _, [] => []
  | s, a :: actions =>
    (s.packetAcks a).toList ++
      match s.step a with
      | .ok t => t.serialized actions
      | .error e => nomatch e

def Carried (s : Control) (actions : List Action) (id : UInt32) : Prop :=
  ∃ acks ∈ s.serialized actions, id ∈ acks

/-- A pending number stays pending until a packet carries it or a new epoch begins, and the first
`4 * k` are on the next `k` packets. A number is recent only after a packet has carried it. -/
structure Serialized (s : Control) (actions : List Action) (t : Control) : Prop where
  kept : ∀ id ∈ s.channel.ackPending, Carried s actions id ∨ id ∈ t.channel.ackPending ∨
    ∃ keyID, .beginEpoch keyID ∈ actions
  prompt : ∀ id ∈ s.channel.ackPending.take (4 * (s.serialized actions).length),
    Carried s actions id ∨ ∃ keyID, .beginEpoch keyID ∈ actions
  recent : ∀ id ∈ t.channel.lruAcks, id ∈ s.channel.lruAcks ∨ Carried s actions id

inductive AckStep (c c' : ControlChannel) : Action → Option (List UInt32) → Prop
  | stays {a : Action} (hpending : c.ackPending <+: c'.ackPending)
      (hnodup : c.ackPending.Nodup → c'.ackPending.Nodup) (hrecent : c'.lruAcks = c.lruAcks) :
    AckStep c c' a none
  | taken {a : Action} {max : Nat} (hmin : 4 ≤ max) (hmax : max ≤ reliableAckSize)
      (hpending : c'.ackPending = (c.takeAcks max).2.ackPending)
      (hrecent : c'.lruAcks = (c.takeAcks max).2.lruAcks) : AckStep c c' a (some (c.takeAcks max).1)
  | cleared (keyID : UInt8) (hpending : c'.ackPending = []) (hrecent : c'.lruAcks = []) :
    AckStep c c' (.beginEpoch keyID) none

variable {s t : Control} {a : Action} {c c' : ControlChannel} {actions : List Action}

theorem AckStep.kept (hpending : c'.ackPending = c.ackPending)
    (hrecent : c'.lruAcks = c.lruAcks) : AckStep c c' a none :=
  .stays (hpending ▸ prefix_refl _) (hpending ▸ id) hrecent

theorem AckStep.queued (ack : UInt32)
    (hpending : c'.ackPending = appendAck c.ackPending ack) (hrecent : c'.lruAcks = c.lruAcks) :
    AckStep c c' a none := by
  rw [appendAck] at hpending
  split_ifs at hpending with hmem
  · exact .kept hpending hrecent
  · refine .stays (hpending ▸ prefix_append ..) (fun h => ?_) hrecent
    rw [hpending, ← concat_eq_append]
    exact h.concat hmem

theorem ControlChannel.Still.ackStep (h : c.Still c') : AckStep c c' a none :=
  .kept h.ackPending h.lruAcks

theorem ackStep_accept (s : Control) (watch : Bool) (p : ControlPacket) :
    AckStep s.channel (s.accept watch p).channel a none := by
  have hcase := s.channel.accepted_accept p
  unfold Control.accept
  generalize s.channel.accept p = x at hcase
  cases hcase with
  | ack | bare | outside => exact .kept rfl rfl
  | old | next | again | stored => exact .queued p.messageID rfl rfl

theorem ackStep_checkKey (s : Control) (watch replayChecked : Bool) (r : Received) (now : Int) :
    AckStep s.channel (s.checkKey watch r replayChecked now).channel a none := by
  cases watch with
  | true => exact (still_checkWatch s r replayChecked now).ackStep
  | false =>
    have hcase := s.channel.admittedRead_admitRead now r replayChecked
    unfold Control.checkKey
    generalize s.channel.admitRead now r replayChecked = x at hcase
    cases hcase <;> exact .kept rfl rfl

theorem ackStep_takeAcks (c : ControlChannel) {max : Nat} (hmin : 4 ≤ max)
    (hmax : max ≤ reliableAckSize) (p : Prop) [Decidable p] :
    AckStep c (if p then c else (c.takeAcks max).2) a
      (if p then none else some (c.takeAcks max).1) := by
  split_ifs
  · exact .kept rfl rfl
  · exact .taken hmin hmax rfl rfl

theorem ackStep_send (s : Control) (opcode : Opcode) (payload : Go.Str) :
    AckStep s.channel (s.channel.send opcode payload) a (s.packetAcks (.send opcode payload)) := by
  rw [Control.packetAcks, ControlChannel.send]
  cases opcode.hasMessageID with
  | false => exact .kept rfl rfl
  | true => refine .taken (le_refl 4) (by decide) ?_ ?_ <;> rfl

theorem ackStep (hstep : s.step a = .ok t) : AckStep s.channel t.channel a (s.packetAcks a) := by
  cases Control.stepped hstep with
  | same hwaits =>
    cases a with
    | send | sendAck | retransmitPending => exact hwaits.elim
    | _ => exact .kept rfl rfl
  | read | cancel | markReceived => exact .kept rfl rfl
  | wait => exact (still_wait s).ackStep
  | head => exact (still_head s _).ackStep
  | receive _ r now => exact (still_receive s _ r now).ackStep
  | checkKey _ now => exact ackStep_checkKey s _ _ _ now
  | accept => exact ackStep_accept s ..
  | park => exact (still_park s _).ackStep
  | readAll => exact (still_readAll s).ackStep
  | send opcode payload => exact ackStep_send s opcode payload
  | sendAck =>
    have hmax : 4 ≤ s.channel.dedicatedAckMax ∧ s.channel.dedicatedAckMax ≤ reliableAckSize := by
      unfold ControlChannel.dedicatedAckMax
      split_ifs <;> decide
    exact ackStep_takeAcks s.channel hmax.1 hmax.2 _
  | retransmitPending => exact ackStep_takeAcks s.channel (le_refl 4) (by decide) _
  | queueAck messageID => exact .queued messageID rfl rfl
  | beginEpoch keyID => exact .cleared keyID rfl rfl

theorem ControlChannel.AckState.step (h : s.channel.AckState) (hstep : s.step a = .ok t) :
    t.channel.AckState := by
  have hcase := ackStep hstep
  generalize s.packetAcks a = acks at hcase
  cases hcase with
  | stays _ hnodup hrecent => exact ⟨hnodup h.pending, hrecent ▸ h.recent, hrecent ▸ h.length⟩
  | taken _ hmax hpending hrecent =>
    have htakes := h.takes hmax
    refine ⟨?_, hrecent ▸ htakes.recent, hrecent ▸ htakes.bound⟩
    rw [hpending]
    exact h.pending.sublist (drop_sublist ..)
  | cleared _ hpending hrecent =>
    exact ⟨hpending ▸ nodup_nil, hrecent ▸ nodup_nil, hrecent ▸ zero_le _⟩

theorem serialized_cons (hstep : s.step a = .ok t) (actions : List Action) :
    s.serialized (a :: actions) = (s.packetAcks a).toList ++ t.serialized actions := by
  rw [Control.serialized, hstep]

theorem Serialized.refl (s : Control) : Serialized s [] s :=
  ⟨fun _ hid => .inr (.inl hid), nofun, fun _ hid => .inl hid⟩

theorem mem_take_drop {n k : Nat} {pending : List UInt32} (hn : n < 4 → pending.length ≤ n)
    (hid : id ∈ pending.take (4 * (k + 1))) : id ∈ pending.take n ∨ id ∈ (pending.drop n).take (4 * k) := by
  obtain ⟨i, hi, rfl⟩ := mem_take_iff_getElem.mp hid
  rcases lt_or_ge i n with hlt | hge
  · exact .inl (mem_take_iff_getElem.mpr ⟨i, by omega, rfl⟩)
  · refine .inr (mem_take_iff_getElem.mpr ⟨i - n, ?_, ?_⟩)
    · rw [length_drop]
      omega
    · rw [getElem_drop]
      congr 1
      omega

theorem Serialized.cons {u : Control} (hs : s.channel.AckState)
    (hstep : s.step a = .ok t) (h : Serialized t actions u) : Serialized s (a :: actions) u := by
  have hcase := ackStep hstep
  have hcons := serialized_cons hstep actions
  generalize s.packetAcks a = acks at hcase hcons
  have hepoch : (∃ keyID, .beginEpoch keyID ∈ actions) → ∃ keyID, .beginEpoch keyID ∈ a :: actions :=
    fun ⟨keyID, hmem⟩ => ⟨keyID, mem_cons_of_mem a hmem⟩
  have hlater : ∀ {id}, Carried t actions id → Carried s (a :: actions) id :=
    fun ⟨acks, hmem, hid⟩ => ⟨acks, hcons ▸ mem_append_right _ hmem, hid⟩
  cases hcase with
  | stays hpending _ hrecent =>
    refine ⟨fun id hid => ?_, fun id hid => ?_, fun id hid => ?_⟩
    · exact (h.kept id (hpending.subset hid)).imp hlater (.imp_right hepoch)
    · rw [hcons] at hid
      exact (h.prompt id ((hpending.take _).subset hid)).imp hlater hepoch
    · exact hrecent ▸ (h.recent id hid).imp_right hlater
  | @taken _ max hmin hmax hpending hrecent =>
    have htakes := hs.takes hmax
    have hnow : ∀ {id}, id ∈ (s.channel.takeAcks max).1 → Carried s (a :: actions) id :=
      fun hid => ⟨_, hcons ▸ mem_cons_self, hid⟩
    refine ⟨fun id hid => ?_, fun id hid => ?_, fun id hid => ?_⟩
    · rw [← take_append_drop (min s.channel.ackPending.length max) s.channel.ackPending] at hid
      rcases mem_append.mp hid with hid | hid
      · exact .inl (hnow (htakes.front.subset hid))
      · exact (h.kept id (hpending ▸ hid)).imp hlater (.imp_right hepoch)
    · rw [hcons] at hid
      rcases mem_take_drop (n := min s.channel.ackPending.length max) (by omega) hid with hid | hid
      · exact .inl (hnow (htakes.front.subset hid))
      · exact (h.prompt id (hpending ▸ hid)).imp hlater hepoch
    · rcases h.recent id hid with hid | hid
      · exact (hs.recent_takeAcks hmax (hrecent ▸ hid)).symm.imp_right hnow
      · exact .inr (hlater hid)
  | cleared keyID hpending hrecent =>
    have hmem : ∃ id, .beginEpoch id ∈ .beginEpoch keyID :: actions :=
      ⟨keyID, mem_cons_self⟩
    refine ⟨fun _ _ => .inr (.inr hmem), fun _ _ => .inr hmem, fun id hid => ?_⟩
    rcases h.recent id hid with hid | hid
    · exact absurd (hrecent ▸ hid) not_mem_nil
    · exact .inr (hlater hid)

theorem serialized_of_exec (hs : s.channel.AckState)
    (hexec : exec Control.step s actions = .ok t) : Serialized s actions t := by
  induction actions generalizing s with
  | nil =>
    cases hexec
    exact .refl _
  | cons a actions ih =>
    rw [exec] at hexec
    split at hexec
    next u hstep =>
      exact .cons hs hstep (ih (hs.step hstep) hexec)
    · cases hexec

/-- In every state of every run `takeAcks` returns the first pending numbers, followed by recent ones,
each once, and takes just these out of `ackPending`; and over whatever follows, a pending number
is on one of the next packets, and no number is recent, or falls off the list, that was on none. -/
theorem queued_acks_serialized (crypt : Bool) (localSession : SessionID) (actions : List Action) :
    Always Control.step (fun s => (∀ max, max = 4 ∨ max = 8 → s.channel.Takes max) ∧
      ∀ later t, exec Control.step s later = .ok t → Serialized s later t)
      (.start crypt localSession) actions := by
  refine always_of_invariant (fun s => s.channel.AckState) (fun hs hstep => hs.step hstep)
    (fun hs => ⟨fun max hmax => hs.takes ?_, fun _ _ hexec => serialized_of_exec hs hexec⟩)
    ⟨nodup_nil, nodup_nil, Nat.zero_le _⟩ actions
  rcases hmax with rfl | rfl <;> decide

end Mihomo.OpenVPN
