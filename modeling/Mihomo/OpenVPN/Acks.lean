import Mihomo.OpenVPN.Sections

/-!
# How messages leave the retransmission set

A sent message stays in `pending` until it is acknowledged in its epoch. Three steps can take it
out otherwise: a soft reset for the next epoch that is kept while the current one goes on, a
packet whose epoch ended between its key check and the handling of its acknowledgements, and a
message number that comes round again. `Keeps` excludes exactly these.
-/

namespace Mihomo.OpenVPN
open Go Lib

/-! ### The retransmission set under each operation -/

theorem lookup_eraseAll (ids : List UInt32) (messages : Messages) (id : UInt32) :
    (eraseAll ids messages).lookup id = if id ∈ ids then none else messages.lookup id := by
  induction ids generalizing messages with
  | nil => rfl
  | cons i ids ih =>
    rw [eraseAll, List.foldl_cons, ← eraseAll, ih]
    by_cases hid : id = i
    · subst hid
      rw [AList.lookup_erase, if_pos List.mem_cons_self, ite_self]
    · simp [hid]

namespace ControlChannel

structure Still (c c' : ControlChannel) : Prop where
  pending : c'.pending = c.pending
  ackPending : c'.ackPending = c.ackPending
  lruAcks : c'.lruAcks = c.lruAcks

variable (c : ControlChannel) (now : Int) (r : Received)

theorem pending_sendAck : c.sendAck.pending = c.pending := by
  unfold sendAck
  split_ifs <;> rfl

theorem pending_retransmitPending : c.retransmitPending.pending = c.pending := by
  unfold retransmitPending
  split_ifs <;> rfl

theorem pending_send (opcode : Opcode) (payload : Str) :
    (c.send opcode payload).pending =
      if opcode.hasMessageID then c.pending.insert c.sendMessage
        (c.makePacket opcode payload).1 else c.pending := by
  unfold send
  cases opcode.hasMessageID <;> rfl

theorem still_route : Still c (c.route now r).1 := by
  have h := c.routed_route now r
  generalize c.route now r = x at h
  cases h <;> exact ⟨rfl, rfl, rfl⟩

theorem still_admitWatch : Still c (c.admitWatch now r).1 := by
  have h := c.admittedWatch_admitWatch now r
  generalize c.admitWatch now r = x at h
  cases h <;> exact ⟨rfl, rfl, rfl⟩

theorem pending_accept (p : ControlPacket) : (c.accept p).1.pending = eraseAll p.ackIDs c.pending := by
  unfold accept
  dsimp only
  split_ifs <;> rfl

theorem still_drain (rounds : Nat) (c : ControlChannel) : Still c (drain rounds c).2 := by
  obtain ⟨recvMessage, recvPending, heq⟩ := drain_eq rounds c
  rw [heq]
  exact ⟨rfl, rfl, rfl⟩

end ControlChannel

/-! ### Steps -/

def Leaves (s t : Control) (id : UInt32) : Prop :=
  ∃ p, s.channel.pending.lookup id = some p ∧ t.channel.pending.lookup id ≠ some p

/-- The step handles a packet of the current epoch from the established session that acknowledges
`id`, or begins a new epoch. -/
def Justified (s : Control) (a : Action) (id : UInt32) : Prop :=
  match a with
  | .accept => ∃ watch p, s.stage = .admitted watch p ∧ p.keyID = s.channel.keyID ∧
      p.localSession = s.channel.remote ∧ s.channel.remote ≠ 0 ∧ id ∈ p.ackIDs
  | .beginEpoch _ => True
  | _ => False

/-- A soft reset that is kept for the next epoch acknowledges no pending message, a packet that is
accepted is still of the current epoch or acknowledges no pending message, and a message number
is not used again for another message while it is pending. -/
def Keeps (s : Control) (a : Action) : Prop :=
  match a with
  | .checkKey now => ∀ r replayChecked, s.stage = .routed false r replayChecked →
      s.channel.KeepsReset now r →
      ∀ id ∈ r.packet.ackIDs, s.channel.pending.lookup id = none
  | .accept => ∀ watch p, s.stage = .admitted watch p → p.keyID = s.channel.keyID ∨
      ∀ id ∈ p.ackIDs, s.channel.pending.lookup id = none
  | .send opcode payload => opcode.hasMessageID = true →
      ∀ p, s.channel.pending.lookup s.channel.sendMessage = some p → p =
        (s.channel.makePacket opcode payload).1
  | _ => True

variable {s t : Control} {a : Action}

theorem not_leaves (h : t.channel.pending = s.channel.pending) (id : UInt32) : ¬ Leaves s t id := by
  rintro ⟨p, hp, hne⟩
  exact hne (h ▸ hp)

theorem leaves_eraseAll_iff {ids : List UInt32}
    (h : t.channel.pending = eraseAll ids s.channel.pending) (id : UInt32) :
    Leaves s t id ↔ id ∈ ids ∧ s.channel.pending.lookup id ≠ none := by
  unfold Leaves
  rw [h, lookup_eraseAll]
  constructor
  · rintro ⟨p, hp, hne⟩
    split_ifs at hne with hid
    · exact ⟨hid, by rw [hp]; exact Option.some_ne_none p⟩
    · exact absurd hp hne
  · rintro ⟨hid, hne⟩
    obtain ⟨p, hp⟩ := Option.ne_none_iff_exists'.mp hne
    exact ⟨p, hp, by rw [if_pos hid]; exact (Option.some_ne_none p).symm⟩

theorem iff_of_pending_eq (h : t.channel.pending = s.channel.pending) (hkeeps : Keeps s a) :
    (∀ id, Leaves s t id → Justified s a id) ↔ Keeps s a :=
  iff_of_true (fun id hid => absurd hid (not_leaves h id)) hkeeps

theorem still_readAll (s : Control) : s.channel.Still s.readAll.channel := by
  obtain ⟨hpending, hacks, hrecent⟩ :=
    ControlChannel.still_drain s.channel.recvPending.entries.length { s.channel with parkedTLS := [] }
  exact ⟨hpending, hacks, hrecent⟩

theorem still_head (s : Control) (watch : Bool) : s.channel.Still (s.head watch).channel := by
  unfold Control.head
  dsimp only
  cases s.channel.recvPending.lookup s.channel.recvMessage with
  | none => exact ⟨rfl, rfl, rfl⟩
  | some p =>
    dsimp only
    split_ifs <;> exact ⟨rfl, rfl, rfl⟩

theorem still_receive (s : Control) (watch : Bool) (r : Option Received) (now : Int) :
    s.channel.Still (s.receive watch r now).channel := by
  unfold Control.receive
  cases r with
  | none => exact ⟨rfl, rfl, rfl⟩
  | some r =>
    have hroute := s.channel.still_route now r
    dsimp only
    split_ifs
    · exact ⟨rfl, rfl, rfl⟩
    split <;> rename_i heq <;> rw [heq] at hroute <;> exact hroute

theorem still_park (s : Control) (p : ControlPacket) : s.channel.Still (s.park p).channel := by
  unfold Control.park
  split_ifs <;> exact ⟨rfl, rfl, rfl⟩

theorem still_wait (s : Control) : s.channel.Still s.wait.channel := by
  unfold Control.wait
  dsimp only
  cases s.channel.pendingSoftReset <;> exact ⟨rfl, rfl, rfl⟩

theorem still_checkWatch (s : Control) (r : Received) (replayChecked : Bool) (now : Int) :
    s.channel.Still (s.checkKey true r replayChecked now).channel := by
  have hadmit := s.channel.still_admitWatch now r
  unfold Control.checkKey
  rw [if_pos rfl]
  split <;> rename_i c heq <;> rw [heq] at hadmit <;> exact hadmit

theorem pending_controlAccept (s : Control) (watch : Bool) (p : ControlPacket) :
    (s.accept watch p).channel.pending = eraseAll p.ackIDs s.channel.pending := by
  have haccept := s.channel.pending_accept p
  unfold Control.accept
  split
  all_goals
    rename_i c heq
    rw [heq] at haccept
    exact haccept

theorem checkKey_iff {watch replayChecked : Bool} {r : Received}
    (hstage : s.stage = .routed watch r replayChecked) (now : Int) :
    (∀ id, Leaves s (s.checkKey watch r replayChecked now) id → Justified s (.checkKey now) id) ↔
      Keeps s (.checkKey now) := by
  cases watch with
  | true =>
    have hpending := (still_checkWatch s r replayChecked now).pending
    refine iff_of_pending_eq hpending fun r' replayChecked' hstage' => ?_
    rw [hstage] at hstage'
    cases hstage'
  | false =>
    have hcase := s.channel.admittedRead_admitRead now r replayChecked
    have hkeeps : Keeps s (.checkKey now) ↔ (s.channel.KeepsReset now r →
        ∀ id ∈ r.packet.ackIDs, s.channel.pending.lookup id = none) := by
      constructor
      · intro h
        exact h r replayChecked hstage
      · intro h r' replayChecked' hstage'
        rw [hstage] at hstage'
        cases hstage'
        exact h
    unfold Control.checkKey
    generalize s.channel.admitRead now r replayChecked = x at hcase
    cases hcase with
    | dropped recReplay hnot => exact iff_of_pending_eq rfl (hkeeps.mpr fun h => absurd h hnot)
    | admitted recReplay hopcode hkey =>
      exact iff_of_pending_eq rfl (hkeeps.mpr fun h => absurd h.opcode hopcode)
    | kept recReplay pendingSoftReset hreset =>
      rw [hkeeps]
      constructor
      · intro h _ id hid
        by_contra hne
        exact h id ((leaves_eraseAll_iff rfl id).mpr ⟨hid, hne⟩)
      · intro h id hleaves
        obtain ⟨hid, hne⟩ := (leaves_eraseAll_iff rfl id).mp hleaves
        exact hne (h hreset id hid)

theorem accept_iff (hs : s.Established) {watch : Bool} {p : ControlPacket}
    (hstage : s.stage = .admitted watch p) :
    (∀ id, Leaves s (s.accept watch p) id → Justified s .accept id) ↔ Keeps s .accept := by
  obtain ⟨-, hsession, hremote⟩ := hs p (by rw [hstage]; rfl)
  have hleaves := leaves_eraseAll_iff (pending_controlAccept s watch p)
  constructor
  · intro h watch' p' hstage'
    rw [hstage] at hstage'
    cases hstage'
    by_contra hnot
    rw [not_or] at hnot
    refine hnot.2 fun id hid => ?_
    by_contra hne
    obtain ⟨watch', p', hstage', hkey, -⟩ := h id ((hleaves id).mpr ⟨hid, hne⟩)
    rw [hstage] at hstage'
    cases hstage'
    exact hnot.1 hkey
  · intro h id hid
    obtain ⟨hmem, hne⟩ := (hleaves id).mp hid
    rcases h watch p hstage with hkey | hnone
    · exact ⟨watch, p, hstage, hkey, hsession, hremote, hmem⟩
    · exact absurd (hnone id hmem) hne

theorem send_iff (s : Control) (opcode : Opcode) (payload : Str) :
    (∀ id, Leaves s { s with channel := s.channel.send opcode payload } id →
      Justified s (.send opcode payload) id) ↔
      Keeps s (.send opcode payload) := by
  have hpending := s.channel.pending_send opcode payload
  by_cases hop : opcode.hasMessageID = true
  · rw [if_pos hop] at hpending
    constructor
    · intro h _ p hp
      by_contra hne
      refine h s.channel.sendMessage ⟨p, hp, ?_⟩
      rw [hpending, AList.lookup_insert, ne_eq, Option.some.injEq]
      exact fun heq => hne heq.symm
    · rintro h id ⟨p, hp, hne⟩
      rw [hpending] at hne
      by_cases hid : id = s.channel.sendMessage
      · subst hid
        rw [AList.lookup_insert, ← h hop p hp] at hne
        exact hne rfl
      · rw [AList.lookup_insert_ne hid] at hne
        exact hne hp
  · rw [if_neg hop] at hpending
    exact iff_of_pending_eq hpending fun hop' => absurd hop' hop

theorem keeps_of_waits (h : s.Waits a) : Keeps s a := by
  cases a with
  | checkKey now => exact fun r replayChecked hstage => absurd hstage (h _ _ _)
  | accept => exact fun watch p hstage => absurd hstage (h _ _)
  | send => exact h.elim
  | _ => trivial

/-- A step takes messages out of `pending` only by an acknowledgement of their epoch or with a new
epoch, exactly if it meets `Keeps`. -/
theorem step_iff (hs : s.Established) (hstep : s.step a = .ok t) :
    (∀ id, Leaves s t id → Justified s a id) ↔ Keeps s a := by
  cases Control.stepped hstep with
  | same hwaits => exact iff_of_pending_eq rfl (keeps_of_waits hwaits)
  | read | cancel | queueAck | markReceived => exact iff_of_pending_eq rfl trivial
  | wait => exact iff_of_pending_eq (still_wait s).pending trivial
  | head => exact iff_of_pending_eq (still_head s _).pending trivial
  | receive _ r now => exact iff_of_pending_eq (still_receive s _ r now).pending trivial
  | checkKey hstage now => exact checkKey_iff hstage now
  | accept hstage => exact accept_iff hs hstage
  | park => exact iff_of_pending_eq (still_park s _).pending trivial
  | readAll => exact iff_of_pending_eq (still_readAll s).pending trivial
  | send opcode payload => exact send_iff s opcode payload
  | sendAck => exact iff_of_pending_eq s.channel.pending_sendAck trivial
  | retransmitPending => exact iff_of_pending_eq s.channel.pending_retransmitPending trivial
  | beginEpoch => exact iff_of_true (fun _ _ => trivial) trivial

/-- In every run of a channel, a step takes messages out of `pending` only by an acknowledgement
of their epoch from the established session or with a new epoch, exactly if it meets `Keeps`. -/
theorem pending_leaves_justified_iff (crypt : Bool) (localSession : SessionID)
    (actions : List Action) :
    Along Control.step (fun s a => ∀ t, s.step a = .ok t →
      ((∀ id, Leaves s t id → Justified s a id) ↔ Keeps s a))
      (.start crypt localSession) actions :=
  along_of_invariant (fun (h : Control.Established _) hstep => h.step hstep)
    (fun _ h _ hstep => step_iff h hstep) (Control.established_start crypt localSession) actions

/-- The server's hard reset is answered, message 1 is sent, and a soft reset for epoch 1 arrives
with an acknowledgement of message 1 of its own epoch. -/
def resetRun : List Action :=
  [.send .hardResetClientV2 [], .read, .head,
    .receive (some ⟨⟨.hardResetServerV2, 0, 9, [], 0, 0, []⟩, 0, 0⟩) 0, .checkKey 0, .accept,
    .send .controlV1 [1], .read, .head,
    .receive (some ⟨⟨.softResetV1, 1, 9, [1], 5, 0, []⟩, 0, 0⟩) 0, .checkKey 0]

/-- The soft reset for epoch 1 takes message 1 of epoch 0 out of `pending`. -/
theorem pending_lost_to_next_epoch :
    ((fun s : Control => (s.channel.keyID, (s.channel.pending.lookup 1).isSome)) <$>
        exec Control.step (.start false 5) resetRun.dropLast) = .ok (0, true) ∧
      ((fun s : Control => (s.channel.keyID, (s.channel.pending.lookup 1).isSome)) <$>
        exec Control.step (.start false 5) resetRun) = .ok (0, false) :=
  ⟨rfl, rfl⟩

end Mihomo.OpenVPN
