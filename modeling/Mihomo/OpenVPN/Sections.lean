import Mihomo.OpenVPN.Control

/-!
# What the sections of the reader do

One case analysis for each section that `read` enters with a packet. The replay window is
left open in them: nothing but the decision whether a packet goes on depends on it.
-/

namespace Mihomo.OpenVPN

namespace ControlChannel

variable (c : ControlChannel) (now : Int) (r : Received)

theorem checkProtected_eq : ∃ recReplay, (c.checkProtected now r).1 = { c with recReplay } := by
  unfold checkProtected
  split_ifs
  · exact ⟨_, rfl⟩
  · exact ⟨c.recReplay, rfl⟩

inductive Routed : ControlChannel × Option Bool → Prop where
  | dropped (recReplay : ReplayState) : Routed ({ c with recReplay }, none)
  | established (recReplay : ReplayState) (replayChecked : Bool) (hremote : c.remote = 0)
      (hsession : r.packet.localSession ≠ 0) :
    Routed ({ c with recReplay, remote := r.packet.localSession }, some replayChecked)
  | same (hremote : c.remote ≠ 0) (hsession : r.packet.localSession = c.remote) : Routed (c, some false)

theorem routed_route : Routed c r (c.route now r) := by
  unfold route
  obtain ⟨recReplay, hcheck⟩ := c.checkProtected_eq now r
  dsimp only
  split_ifs with hzero hack hremote hreset hpassed hsession
  · exact .dropped c.recReplay
  · exact .dropped c.recReplay
  · rw [hcheck]
    exact .established recReplay _ hremote hzero
  · rw [hcheck]
    exact .dropped recReplay
  · exact .dropped c.recReplay
  · exact .dropped c.recReplay
  · exact .same hremote (not_not.mp hsession)

structure KeepsReset : Prop where
  opcode : r.packet.opcode = .softResetV1
  keyID : r.packet.keyID = nextKeyID c.keyID
  messageID : r.packet.messageID = 0
  session : c.remote = 0 ∨ r.packet.localSession = c.remote
  passed : (c.checkProtected now r).2 = true

inductive AdmittedRead : ControlChannel × Bool → Prop where
  | dropped (recReplay : ReplayState) (h : ¬ c.KeepsReset now r) :
      AdmittedRead ({ c with recReplay }, false)
  | kept (recReplay : ReplayState) (pendingSoftReset : Option ControlPacket) (h : c.KeepsReset now r) :
    AdmittedRead
      ({ c with recReplay, pendingSoftReset, pending := eraseAll r.packet.ackIDs c.pending }, false)
  | admitted (recReplay : ReplayState) (hopcode : r.packet.opcode ≠ .softResetV1)
      (hkey : r.packet.keyID = c.keyID) :
    AdmittedRead ({ c with recReplay }, true)

theorem admittedRead_admitRead (replayChecked : Bool) :
    AdmittedRead c now r (c.admitRead now r replayChecked) := by
  unfold admitRead
  obtain ⟨recReplay, hcheck⟩ := c.checkProtected_eq now r
  dsimp only
  split_ifs with hopcode hnext hpassed hkey hchecked
  · rw [hcheck]
    exact .kept recReplay _ ⟨hopcode, hnext.1, hnext.2.1, hnext.2.2, hpassed⟩
  · rw [hcheck]
    exact .dropped recReplay fun h => hpassed h.passed
  · exact .dropped c.recReplay fun h => hnext ⟨h.keyID, h.messageID, h.session⟩
  · exact .dropped c.recReplay fun h => hopcode h.opcode
  · exact .admitted c.recReplay hopcode (not_not.mp hkey)
  · cases hpassed : (c.checkProtected now r).2 with
    | false =>
      rw [show c.checkProtected now r = ({ c with recReplay }, false) from Prod.ext hcheck hpassed]
      exact .dropped recReplay fun h => hopcode h.opcode
    | true =>
      rw [show c.checkProtected now r = ({ c with recReplay }, true) from Prod.ext hcheck hpassed]
      exact .admitted recReplay hopcode (not_not.mp hkey)

inductive AdmittedWatch : ControlChannel × Watch → Prop where
  | dropped (recReplay : ReplayState) : AdmittedWatch ({ c with recReplay }, .dropped)
  | reset (recReplay : ReplayState) (hopcode : r.packet.opcode = .softResetV1) :
    AdmittedWatch ({ c with recReplay }, .reset)
  | admitted (recReplay : ReplayState) (hopcode : r.packet.opcode ≠ .softResetV1)
      (hkey : r.packet.keyID = c.keyID) :
    AdmittedWatch ({ c with recReplay }, .admitted)

theorem classifyWatchPacket_eq (p : ControlPacket) (hvalid : (c.classifyWatchPacket p).2 = true)
    (hreset : (c.classifyWatchPacket p).1 = false) : p.opcode ≠ .softResetV1 ∧ p.keyID = c.keyID := by
  unfold classifyWatchPacket at hvalid hreset
  split_ifs at hvalid hreset with hsession hopcode
  · exact absurd (hreset.symm.trans hvalid) Bool.false_ne_true
  · exact ⟨hopcode, of_decide_eq_true hvalid⟩

theorem opcode_of_reset (p : ControlPacket) (hreset : (c.classifyWatchPacket p).1 = true) :
    p.opcode = .softResetV1 := by
  unfold classifyWatchPacket at hreset
  split_ifs at hreset with hsession hopcode
  exact hopcode

theorem admittedWatch_admitWatch : AdmittedWatch c r (c.admitWatch now r) := by
  unfold admitWatch
  obtain ⟨recReplay, hcheck⟩ := c.checkProtected_eq now r
  dsimp only
  rw [hcheck]
  split_ifs with hvalid hpassed hreset
  · exact .dropped c.recReplay
  · exact .dropped recReplay
  · exact .reset recReplay (c.opcode_of_reset r.packet hreset)
  · obtain ⟨hopcode, hkey⟩ :=
      c.classifyWatchPacket_eq r.packet (by simpa using hvalid) (by simpa using hreset)
    exact .admitted recReplay hopcode hkey

end ControlChannel

/-- The cases of `accept`; the acknowledgements of the packet take messages out of `pending` in
each of them. -/
inductive ControlChannel.Accepted (c : ControlChannel) (p : ControlPacket) :
    ControlChannel × Bool → Prop where
  | ack (pending : Messages) (hopcode : p.opcode = .ackV1) : Accepted c p ({ c with pending }, false)
  | bare (pending : Messages) (hopcode : p.opcode ≠ .ackV1) (hid : p.opcode.hasMessageID = false) :
    Accepted c p ({ c with pending }, true)
  | old (pending : Messages) (hid : p.opcode.hasMessageID = true)
      (hbefore : reliableMessageBefore p.messageID c.recvMessage = true) :
    Accepted c p ({ c.queueAck p.messageID with pending }, false)
  | next (pending : Messages) (hid : p.opcode.hasMessageID = true) (heq : p.messageID = c.recvMessage) :
    Accepted c p ({ c.queueAck p.messageID with pending, recvMessage := c.recvMessage + 1 }, true)
  | again (pending : Messages) (hid : p.opcode.hasMessageID = true)
      (hbefore : ¬ reliableMessageBefore p.messageID c.recvMessage = true) {q : ControlPacket}
      (hq : c.recvPending.lookup p.messageID = some q) :
    Accepted c p ({ c.queueAck p.messageID with pending }, false)
  | stored (pending : Messages) (hid : p.opcode.hasMessageID = true)
      (hbefore : ¬ reliableMessageBefore p.messageID c.recvMessage = true)
        (hne : p.messageID ≠ c.recvMessage)
      (hnone : c.recvPending.lookup p.messageID = none) :
    Accepted c p
      ({ c.queueAck p.messageID with pending, recvPending := c.recvPending.insert p.messageID p }, false)
  | outside (pending : Messages) : Accepted c p ({ c with pending }, false)

theorem ControlChannel.accepted_accept (c : ControlChannel) (p : ControlPacket) :
    Accepted c p (c.accept p) := by
  unfold accept
  dsimp only
  split_ifs with hopcode hbare hbefore heq hbuffered
  · exact .ack _ hopcode
  · exact .bare _ hopcode (by simpa using hbare)
  · exact .old _ (by simpa using hbare) hbefore
  · exact .next _ (by simpa using hbare) heq
  · obtain ⟨q, hq⟩ := Option.isSome_iff_exists.mp hbuffered
    exact .again _ (by simpa using hbare) hbefore hq
  · exact .stored _ (by simpa using hbare) hbefore heq (by simpa using hbuffered)
  · exact .outside _

/-! ### Sessions -/

namespace ControlChannel

variable (c : ControlChannel)

theorem remote_send (opcode : Opcode) (payload : Go.Str) :
    (c.send opcode payload).remote = c.remote := by
  unfold send
  split_ifs <;> rfl

theorem remote_sendAck : c.sendAck.remote = c.remote := by
  unfold sendAck
  split_ifs <;> rfl

theorem remote_retransmitPending : c.retransmitPending.remote = c.remote := by
  unfold retransmitPending
  split_ifs <;> rfl

theorem drain_eq (rounds : Nat) (c : ControlChannel) :
    ∃ recvMessage recvPending, (drain rounds c).2 = { c with recvMessage, recvPending } := by
  induction rounds generalizing c with
  | zero => exact ⟨c.recvMessage, c.recvPending, rfl⟩
  | succ rounds ih =>
    rw [drain]
    cases c.recvPending.lookup c.recvMessage with
    | none => exact ⟨c.recvMessage, c.recvPending, rfl⟩
    | some p =>
      obtain ⟨recvMessage, recvPending, heq⟩ := ih
        { c with recvPending := c.recvPending.erase c.recvMessage, recvMessage := c.recvMessage + 1 }
      exact ⟨recvMessage, recvPending, heq⟩

theorem remote_drain (rounds : Nat) (c : ControlChannel) : (drain rounds c).2.remote = c.remote := by
  obtain ⟨recvMessage, recvPending, heq⟩ := drain_eq rounds c
  rw [heq]

end ControlChannel

def Control.Waits (s : Control) : Action → Prop
  | .checkKey _ => ∀ watch r replayChecked, s.stage ≠ .routed watch r replayChecked
  | .accept => ∀ watch p, s.stage ≠ .admitted watch p
  | .read | .wait | .head | .receive _ _ | .park | .cancel => True
  | _ => False

inductive Control.Stepped (s : Control) : Action → Control → Prop
  | same {a : Action} (hwaits : s.Waits a) : Stepped s a s
  | read (hstage : s.stage = .idle) : Stepped s .read { s with stage := .head false }
  | wait (hstage : s.stage = .idle) : Stepped s .wait s.wait
  | head {watch : Bool} (hstage : s.stage = .head watch) : Stepped s .head (s.head watch)
  | receive {watch : Bool} (hstage : s.stage = .receiving watch) (r : Option Received) (now : Int) :
      Stepped s (.receive r now) (s.receive watch r now)
  | checkKey {watch replayChecked : Bool} {r : Received}
      (hstage : s.stage = .routed watch r replayChecked) (now : Int) :
      Stepped s (.checkKey now) (s.checkKey watch r replayChecked now)
  | accept {watch : Bool} {p : ControlPacket} (hstage : s.stage = .admitted watch p) :
      Stepped s .accept (s.accept watch p)
  | park {p : ControlPacket} (hstage : s.stage = .watched p) : Stepped s .park (s.park p)
  | cancel {watch : Bool} (hstage : s.stage = .head watch ∨ s.stage = .receiving watch) :
      Stepped s .cancel { s with stage := .idle }
  | readAll : Stepped s .readAll s.readAll
  | send (opcode : Opcode) (payload : Go.Str) :
      Stepped s (.send opcode payload) { s with channel := s.channel.send opcode payload }
  | sendAck : Stepped s .sendAck { s with channel := s.channel.sendAck }
  | retransmitPending : Stepped s .retransmitPending { s with channel := s.channel.retransmitPending }
  | queueAck (messageID : UInt32) :
      Stepped s (.queueAck messageID) { s with channel := s.channel.queueAck messageID }
  | markReceived (messageID : UInt32) :
      Stepped s (.markReceived messageID) { s with channel := s.channel.markReceived messageID }
  | beginEpoch (keyID : UInt8) :
      Stepped s (.beginEpoch keyID) { s with channel := s.channel.beginEpoch keyID }

theorem Control.stepped {s t : Control} {a : Action} (hstep : s.step a = .ok t) : Stepped s a t := by
  cases a <;> cases hstep
  case readAll => exact .readAll
  case send => exact .send ..
  case sendAck => exact .sendAck
  case retransmitPending => exact .retransmitPending
  case queueAck => exact .queueAck _
  case markReceived => exact .markReceived _
  case beginEpoch => exact .beginEpoch _
  -- a part of the reader runs at its stage only
  case read =>
    split
    · exact .read ‹_›
    · exact .same trivial
  case wait =>
    split
    · exact .wait ‹_›
    · exact .same trivial
  case head =>
    split
    · exact .head ‹_›
    · exact .same trivial
  case receive =>
    split
    · exact .receive ‹_› ..
    · exact .same trivial
  case checkKey =>
    split
    · exact .checkKey ‹_› _
    · exact .same ‹_›
  case accept =>
    split
    · exact .accept ‹_›
    · exact .same ‹_›
  case park =>
    split
    · exact .park ‹_›
    · exact .same trivial
  case cancel =>
    split
    · exact .cancel (.inl ‹_›)
    · exact .cancel (.inr ‹_›)
    · exact .same trivial

def Stage.packet : Stage → Option ControlPacket
  | .routed _ r _ => some r.packet
  | .admitted _ p => some p
  | _ => none

def Control.Established (s : Control) : Prop :=
  ∀ p, s.stage.packet = some p → p.opcode.isControl = true ∧ p.localSession = s.channel.remote ∧
    s.channel.remote ≠ 0

namespace Control.Established

variable {s : Control} (h : s.Established) {t : Control} {watch : Bool}

theorem of_none (ht : t.stage.packet = none) : t.Established := by
  intro p hp
  rw [ht] at hp
  cases hp

include h

theorem of_channel (hstage : t.stage = s.stage)
    (hremote : t.channel.remote = s.channel.remote) : t.Established := by
  intro p hp
  rw [hremote]
  exact h p (hstage ▸ hp)

omit h in
theorem receive (s : Control) (watch : Bool) (r : Option Received) (now : Int) :
    (s.receive watch r now).Established := by
  unfold Control.receive
  cases r with
  | none => exact of_none rfl
  | some r =>
    have hcase := s.channel.routed_route now r
    dsimp only
    split_ifs with hcontrol
    · exact of_none rfl
    rw [Bool.not_eq_true', Bool.not_eq_false] at hcontrol
    generalize s.channel.route now r = x at hcase
    cases hcase with
    | dropped => exact of_none rfl
    | established recReplay replayChecked hremote hsession =>
      intro p hp
      cases hp
      exact ⟨hcontrol, rfl, hsession⟩
    | same hremote hsession =>
      intro p hp
      cases hp
      exact ⟨hcontrol, hsession, hremote⟩

theorem checkKey {replayChecked : Bool} {r : Received}
    (hstage : s.stage = .routed watch r replayChecked) (now : Int) :
    (s.checkKey watch r replayChecked now).Established := by
  have hpacket := h r.packet (by rw [hstage]; rfl)
  unfold Control.checkKey
  split_ifs
  · have hcase := s.channel.admittedWatch_admitWatch now r
    generalize s.channel.admitWatch now r = x at hcase
    cases hcase with
    | dropped | reset => exact of_none rfl
    | admitted =>
      intro p hp
      cases hp
      exact hpacket
  · have hcase := s.channel.admittedRead_admitRead now r replayChecked
    generalize s.channel.admitRead now r replayChecked = x at hcase
    cases hcase with
    | dropped | kept => exact of_none rfl
    | admitted =>
      intro p hp
      cases hp
      exact hpacket

omit h in
theorem deliver (s : Control) (c : ControlChannel) (watch : Bool) (p : ControlPacket) :
    (s.deliver c watch p).Established := by
  cases watch <;> exact of_none rfl

omit h in
theorem accept (s : Control) (watch : Bool) (p : ControlPacket) : (s.accept watch p).Established := by
  unfold Control.accept
  split
  · exact of_none rfl
  · exact deliver s _ watch p

omit h in
theorem head (hstage : s.stage = .head watch) : (s.head watch).Established := by
  unfold Control.head
  dsimp only
  cases s.channel.recvPending.lookup s.channel.recvMessage with
  | none => exact of_none rfl
  | some p =>
    dsimp only
    split_ifs
    · exact of_none (by rw [hstage]; rfl)
    · exact of_none rfl
    · exact deliver s _ watch p

omit h in
theorem park (s : Control) (p : ControlPacket) : (s.park p).Established := by
  unfold Control.park
  split_ifs <;> exact of_none rfl

omit h in
theorem wait (s : Control) : s.wait.Established := by
  unfold Control.wait
  dsimp only
  cases s.channel.pendingSoftReset with
  | none => exact of_none rfl
  | some p =>
    refine of_none ?_
    dsimp only
    split_ifs <;> rfl

theorem step {a : Action} (hstep : s.step a = .ok t) : t.Established := by
  cases Control.stepped hstep with
  | same | queueAck | markReceived | beginEpoch => exact h
  | read | cancel => exact of_none rfl
  | wait => exact wait s
  | head hstage => exact head hstage
  | receive _ r now => exact receive s _ r now
  | checkKey hstage now => exact h.checkKey hstage now
  | accept => exact accept s _ _
  | park => exact park s _
  | readAll => exact h.of_channel rfl (ControlChannel.remote_drain ..)
  | send opcode payload => exact h.of_channel rfl (s.channel.remote_send opcode payload)
  | sendAck => exact h.of_channel rfl s.channel.remote_sendAck
  | retransmitPending => exact h.of_channel rfl s.channel.remote_retransmitPending

end Control.Established

theorem Control.established_start (crypt : Bool) (localSession : SessionID) :
    (Control.start crypt localSession).Established := Control.Established.of_none rfl

end Mihomo.OpenVPN
