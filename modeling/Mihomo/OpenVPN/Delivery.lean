import Mihomo.OpenVPN.Sections
import Mihomo.Lib.Serial

/-!
# Delivery in message order

In one epoch the peer sends a sequence of messages; the network may lose, repeat and reorder the
packets. `read` and `ReadAll` return the messages in their order, without a gap and each once. A
message that `read` returns in watch mode goes to `waitForSoftReset`, which parks its payload, and
`ReadAll` returns the parked payloads in order.
-/

namespace Mihomo.OpenVPN
open Go Lib List AList

/-! ### Observations -/

def Output.message : Output → Option ControlPacket
  | .read _ p => some p
  | .queued p => some p
  | _ => none

def messages (outputs : List Output) : List ControlPacket := outputs.filterMap Output.message

def parkable (p : ControlPacket) : List Str :=
  if p.opcode = .controlV1 ∧ p.payload ≠ [] then [p.payload] else []

def Stage.parking : Stage → List Str
  | .watched p => parkable p
  | _ => []

def Output.toPark : Output → List Str
  | .read true p => parkable p
  | _ => []

def Output.fromPark : Output → Option Str
  | .unparked payload => some payload
  | _ => none

structure Copy (sent : Nat → Opcode × Str) (i : Nat) (p : ControlPacket) : Prop where
  messageID : p.messageID = UInt32.ofNat i
  content : (p.opcode, p.payload) = sent i

def Control.position (s : Control) (start : Nat) : Nat := start + (messages s.outputs).length

/-- A packet whose messages are handled is a copy of a message of the peer that is not too far
from the next one, and no other epoch is begun. -/
def Genuine (sent : Nat → Opcode × Str) (start : Nat) (s : Control) (a : Action) : Prop :=
  match a with
  | .accept => ∀ watch p, s.stage = .admitted watch p → p.opcode.hasMessageID = true →
      ∃ i, Near i (s.position start) ∧ Copy sent i p
  | .queueAck _ | .markReceived _ | .beginEpoch _ => False
  | _ => True

/-- The messages from `start` on are returned in order, and the payloads that were to be parked
have been returned, are parked, or are about to be parked. -/
structure Delivered (sent : Nat → Opcode × Str) (start : Nat) (s : Control) : Prop where
  inOrder : List.Forall₂ (Copy sent) (range' start (messages s.outputs).length) (messages s.outputs)
  parked : s.outputs.flatMap Output.toPark =
    s.outputs.filterMap Output.fromPark ++ s.channel.parkedTLS ++ s.stage.parking

/-- A message number that is newly to be acknowledged belongs to a message that has been returned
or is buffered, and a buffered message stays buffered or is returned. -/
structure Safe (sent : Nat → Opcode × Str) (start : Nat) (s t : Control) : Prop where
  acks : ∀ id ∈ t.channel.ackPending, id ∉ s.channel.ackPending → ∃ i, Near i (t.position start) ∧
    id = UInt32.ofNat i ∧
    (i < t.position start ∨ ∃ q, t.channel.recvPending.lookup id = some q ∧ Copy sent i q)
  buffered : ∀ id q, s.channel.recvPending.lookup id = some q →
    t.channel.recvPending.lookup id = some q ∨ q ∈ messages t.outputs

/-! ### The receiving side of the channel -/

namespace ControlChannel

structure Current (remote : SessionID) (keyID : UInt8) (p : ControlPacket) : Prop where
  session : p.localSession = remote
  remote : remote ≠ 0
  keyID : p.keyID = keyID
  opcode : p.opcode ≠ .softResetV1

structure Holds (sent : Nat → Opcode × Str) (n : Nat) (c : ControlChannel) : Prop where
  recvMessage : c.recvMessage = UInt32.ofNat n
  buffered : ∀ id q, c.recvPending.lookup id = some q →
    ∃ i, n ≤ i ∧ i < n + 2 ^ 31 ∧ id = UInt32.ofNat i ∧ Copy sent i q ∧ Current c.remote c.keyID q

variable {sent : Nat → Opcode × Str} {n : Nat} {c c' : ControlChannel}

structure Quiet (c c' : ControlChannel) : Prop where
  recvMessage : c'.recvMessage = c.recvMessage
  recvPending : c'.recvPending = c.recvPending
  remote : c'.remote = c.remote
  keyID : c'.keyID = c.keyID
  parkedTLS : c'.parkedTLS = c.parkedTLS
  ackPending : c'.ackPending ⊆ c.ackPending

theorem quiet_takeAcks (c : ControlChannel) (max : Nat) : Quiet c (c.takeAcks max).2 :=
  ⟨rfl, rfl, rfl, rfl, rfl, drop_subset _ _⟩

theorem quiet_self (c : ControlChannel) : Quiet c c := ⟨rfl, rfl, rfl, rfl, rfl, List.Subset.refl _⟩

theorem quiet_update (c : ControlChannel) (recReplay : ReplayState)
    (pendingSoftReset : Option ControlPacket) (pending : Messages) :
    Quiet c { c with recReplay, pendingSoftReset, pending } :=
  ⟨rfl, rfl, rfl, rfl, rfl, List.Subset.refl _⟩

theorem quiet_send (c : ControlChannel) (opcode : Opcode) (payload : Str) :
    Quiet c (c.send opcode payload) := by
  unfold send
  split_ifs
  · exact c.quiet_self
  · exact ⟨rfl, rfl, rfl, rfl, rfl, (c.quiet_takeAcks controlSendAckMax).ackPending⟩

theorem quiet_sendAck (c : ControlChannel) : Quiet c c.sendAck := by
  unfold sendAck
  split_ifs
  · exact c.quiet_self
  · exact c.quiet_takeAcks _

theorem quiet_retransmitPending (c : ControlChannel) : Quiet c c.retransmitPending := by
  unfold retransmitPending
  split_ifs
  · exact c.quiet_self
  · exact c.quiet_takeAcks _

section

variable (h : Holds sent n c)
include h

theorem Holds.quiet (hquiet : Quiet c c') : Holds sent n c' := by
  refine ⟨hquiet.recvMessage.trans h.recvMessage, fun id q hq => ?_⟩
  rw [hquiet.recvPending] at hq
  obtain ⟨i, hle, hlt, hid, hcopy, hcurrent⟩ := h.buffered id q hq
  exact ⟨i, hle, hlt, hid, hcopy, by rw [hquiet.remote, hquiet.keyID]; exact hcurrent⟩

theorem Holds.lookup_of_unset (hremote : c.remote = 0) (id : UInt32) :
    c.recvPending.lookup id = none := by
  cases hq : c.recvPending.lookup id with
  | none => rfl
  | some q =>
    obtain ⟨i, -, -, -, -, hcurrent⟩ := h.buffered id q hq
    exact absurd hremote hcurrent.remote

theorem Holds.establish (hremote : c.remote = 0) (recReplay : ReplayState)
    (session : SessionID) : Holds sent n { c with recReplay, remote := session } := by
  refine ⟨h.recvMessage, fun id q hq => ?_⟩
  have hnone := h.lookup_of_unset hremote id
  rw [hnone] at hq
  cases hq

theorem Holds.later {id : UInt32} {q : ControlPacket}
    (hq : c.recvPending.lookup id = some q) (hne : id ≠ c.recvMessage) :
    ∃ i, n + 1 ≤ i ∧ i < n + 1 + 2 ^ 31 ∧ id = UInt32.ofNat i ∧ Copy sent i q ∧
      Current c.remote c.keyID q := by
  obtain ⟨i, hle, hlt, hid, hcopy, hcurrent⟩ := h.buffered id q hq
  have hi : i ≠ n := by
    rintro rfl
    exact hne (hid.trans h.recvMessage.symm)
  exact ⟨i, by omega, by omega, hid, hcopy, hcurrent⟩

theorem Holds.recvMessage_succ : c.recvMessage + 1 = UInt32.ofNat (n + 1) := by
  rw [h.recvMessage, UInt32.ofNat_add]
  rfl

end

variable {p : ControlPacket}

theorem Holds.take (h : Holds sent n c) (hp : c.recvPending.lookup c.recvMessage = some p) :
    Copy sent n p ∧ Current c.remote c.keyID p ∧
      Holds sent (n + 1)
        { c with recvPending := c.recvPending.erase c.recvMessage, recvMessage :=
          c.recvMessage + 1 } := by
  obtain ⟨i, hle, hlt, hid, hcopy, hcurrent⟩ := h.buffered _ p hp
  rw [h.recvMessage, eq_comm, serial_inj (near_of_le hle hlt)] at hid
  subst hid
  refine ⟨hcopy, hcurrent, h.recvMessage_succ, fun id q hq => ?_⟩
  have hne : id ≠ c.recvMessage := by
    rintro rfl
    rw [lookup_erase] at hq
    cases hq
  rw [lookup_erase_ne hne] at hq
  exact h.later hq hne

theorem mem_appendAck {acks : List UInt32} {ack id : UInt32} (h : id ∈ appendAck acks ack)
    (hnew : id ∉ acks) : id = ack := by
  unfold appendAck at h
  split_ifs at h with hmem
  · exact absurd h hnew
  · rcases mem_append.mp h with hold | hack
    · exact absurd hold hnew
    · exact mem_singleton.mp hack

inductive Handles (sent : Nat → Opcode × Str) (n : Nat) (c : ControlChannel) (p : ControlPacket) :
    ControlChannel × Bool → Prop where
  | kept {c' : ControlChannel} (hholds : Holds sent n c') (hparked : c'.parkedTLS = c.parkedTLS)
      (hacks : ∀ id ∈ c'.ackPending, id ∉ c.ackPending → ∃ i, Near i n ∧ id = UInt32.ofNat i ∧
        (i < n ∨ ∃ q, c'.recvPending.lookup id = some q ∧ Copy sent i q))
      (hbuffered : ∀ id q, c.recvPending.lookup id = some q → c'.recvPending.lookup id = some q) :
    Handles sent n c p (c', false)
  | returned {c' : ControlChannel} (hholds : Holds sent (n + 1) c')
      (hparked : c'.parkedTLS = c.parkedTLS)
      (hcopy : Copy sent n p) (hacks : ∀ id ∈ c'.ackPending, id ∉ c.ackPending → id = UInt32.ofNat n)
      (hbuffered : c'.recvPending = c.recvPending) :
    Handles sent n c p (c', true)

theorem Holds.stored (h : Holds sent n c) (hp : Current c.remote c.keyID p)
    {i : Nat} (hcopy : Copy sent i p) (hle : n ≤ i) (hlt : i < n + 2 ^ 31) (pending : Messages) :
    Holds sent n
      { c.queueAck p.messageID with pending, recvPending := c.recvPending.insert p.messageID p } := by
  refine ⟨h.recvMessage, fun id q hq => ?_⟩
  by_cases hid : id = p.messageID
  · subst hid
    rw [lookup_insert, Option.some.injEq] at hq
    subst hq
    exact ⟨i, hle, hlt, hcopy.messageID, hcopy, hp⟩
  · rw [lookup_insert_ne hid] at hq
    exact h.buffered id q hq

theorem Holds.before_iff (h : Holds sent n c) {i : Nat} (hnear : Near i n) (hcopy : Copy sent i p) :
    reliableMessageBefore p.messageID c.recvMessage = true ↔ i < n := by
  rw [reliableMessageBefore, decide_eq_true_eq, hcopy.messageID, h.recvMessage, serial_before_iff hnear]

theorem Holds.handles (h : Holds sent n c) (hmissing : c.recvPending.lookup c.recvMessage = none)
    (hp : Current c.remote c.keyID p) (hcontrol : p.opcode.isControl = true)
    (hgenuine : p.opcode.hasMessageID = true → ∃ i, Near i n ∧ Copy sent i p) :
    Handles sent n c p (c.accept p) := by
  have hcase := c.accepted_accept p
  generalize c.accept p = x at hcase
  cases hcase with
  | ack | outside =>
    exact .kept { h with } rfl (fun id hid hnew => absurd hid hnew) fun _ _ hq => hq
  | bare pending hopcode hid =>
    rw [Opcode.hasMessageID, hcontrol, Bool.true_and, bne_eq_false_iff_eq] at hid
    exact absurd hid hopcode
  | old pending hid hbefore =>
    obtain ⟨i, hnear, hcopy⟩ := hgenuine hid
    rw [h.before_iff hnear hcopy] at hbefore
    refine .kept { h with } rfl (fun id hack hnew => ?_) fun _ _ hq => hq
    exact ⟨i, hnear, (mem_appendAck hack hnew).trans hcopy.messageID, .inl hbefore⟩
  | next pending hid heq =>
    obtain ⟨i, hnear, hcopy⟩ := hgenuine hid
    rw [hcopy.messageID, h.recvMessage, serial_inj hnear] at heq
    subst heq
    refine .returned ⟨h.recvMessage_succ, fun id q hq => ?_⟩ rfl hcopy (fun id hack hnew => ?_) rfl
    · refine h.later hq ?_
      rintro rfl
      rw [show c.recvPending.lookup c.recvMessage = some q from hq] at hmissing
      cases hmissing
    · exact (mem_appendAck hack hnew).trans hcopy.messageID
  | @again pending hid hbefore q hq =>
    obtain ⟨i, hnear, hcopy⟩ := hgenuine hid
    rw [h.before_iff hnear hcopy] at hbefore
    obtain ⟨j, hle, hlt, hj, hcopyj, -⟩ := h.buffered _ q hq
    rw [hcopy.messageID, serial_inj ⟨by have := hnear.1; omega, by omega⟩] at hj
    subst hj
    refine .kept { h with } rfl (fun id hack hnew => ?_) fun _ _ hq => hq
    obtain rfl := mem_appendAck hack hnew
    exact ⟨i, hnear, hcopy.messageID, .inr ⟨q, hq, hcopyj⟩⟩
  | stored pending hid hbefore hne hnone =>
    obtain ⟨i, hnear, hcopy⟩ := hgenuine hid
    rw [h.before_iff hnear hcopy, not_lt] at hbefore
    refine .kept (h.stored hp hcopy hbefore hnear.1 pending) rfl
      (fun id hack hnew => ?_) fun id q hq => ?_
    · obtain rfl := mem_appendAck hack hnew
      exact ⟨i, hnear, hcopy.messageID, .inr ⟨p, lookup_insert _, hcopy⟩⟩
    · have hid' : id ≠ p.messageID := by
        rintro rfl
        rw [hnone] at hq
        cases hq
      exact (lookup_insert_ne hid').trans hq

theorem Holds.drain (rounds : Nat) (h : Holds sent n c) :
    List.Forall₂ (Copy sent) (range' n (ControlChannel.drain rounds c).1.length)
      (ControlChannel.drain rounds c).1 ∧
      Holds sent (n + (ControlChannel.drain rounds c).1.length) (ControlChannel.drain rounds c).2 ∧
      ∀ id q, c.recvPending.lookup id = some q →
        (ControlChannel.drain rounds c).2.recvPending.lookup id = some q ∨
          q ∈ (ControlChannel.drain rounds c).1 := by
  induction rounds generalizing n c with
  | zero => exact ⟨.nil, h, fun _ _ hq => .inl hq⟩
  | succ rounds ih =>
    rw [ControlChannel.drain]
    cases hp : c.recvPending.lookup c.recvMessage with
    | none => exact ⟨.nil, h, fun _ _ hq => .inl hq⟩
    | some p =>
      obtain ⟨hcopy, -, hnext⟩ := h.take hp
      obtain ⟨hcopies, hholds, hbuffered⟩ := ih hnext
      rw [length_cons]
      refine ⟨.cons hcopy hcopies, ?_, fun id q hq => ?_⟩
      · rw [show ∀ k, n + (k + 1) = n + 1 + k from fun k => by omega]
        exact hholds
      · by_cases hid : id = c.recvMessage
        · rw [hid, hp] at hq
          exact .inr (hq ▸ mem_cons_self)
        · refine (hbuffered id q ?_).imp_right (mem_cons_of_mem p)
          exact (lookup_erase_ne hid).trans hq

theorem lookup_drain {rounds : Nat} (hrounds : c.recvPending.entries.length ≤ rounds) :
    (ControlChannel.drain rounds c).2.recvPending.lookup
      (ControlChannel.drain rounds c).2.recvMessage = none := by
  induction rounds generalizing c with
  | zero =>
    rw [ControlChannel.drain, AList.lookup, eq_nil_of_length_eq_zero (Nat.le_zero.mp hrounds)]
    rfl
  | succ rounds ih =>
    rw [ControlChannel.drain]
    cases hp : c.recvPending.lookup c.recvMessage with
    | none => exact hp
    | some p =>
      refine ih ?_
      have hmem : c.recvMessage ∈ c.recvPending := lookup_isSome.mp (by rw [hp]; rfl)
      have hkeys : (c.recvPending.erase c.recvMessage).keys.length = c.recvPending.keys.length - 1 := by
        rw [keys_erase, length_erase_of_mem hmem]
      have hlength : ∀ messages : Messages, messages.keys.length = messages.entries.length :=
        fun messages => length_map Sigma.fst
      rw [hlength, hlength] at hkeys
      exact hkeys.trans_le (by omega)

end ControlChannel

/-! ### The reader -/

def Stage.awaits : Stage → Bool
  | .receiving _ | .routed _ _ _ | .admitted _ _ => true
  | _ => false

structure Follows (sent : Nat → Opcode × Str) (start : Nat) (s : Control) : Prop where
  delivered : Delivered sent start s
  holds : s.channel.Holds sent (s.position start)
  missing : s.stage.awaits = true → s.channel.recvPending.lookup s.channel.recvMessage = none
  admitted : ∀ watch p, s.stage = .admitted watch p →
    ControlChannel.Current s.channel.remote s.channel.keyID p

def Advances (sent : Nat → Opcode × Str) (start : Nat) (s t : Control) : Prop :=
  Follows sent start t ∧ Safe sent start s t

section Steps

variable {sent : Nat → Opcode × Str} {start : Nat} {s : Control}

theorem messages_append (outputs outputs' : List Output) :
    messages (outputs ++ outputs') = messages outputs ++ messages outputs' := filterMap_append

theorem messages_queued (ps : List ControlPacket) : messages (ps.map .queued) = ps := by
  rw [messages, filterMap_map]
  exact filterMap_some

theorem messages_unparked (payloads : List Str) : messages (payloads.map .unparked) = [] := by
  rw [messages, filterMap_map]
  exact filterMap_eq_nil_iff.mpr fun _ _ => rfl

theorem Delivered.concat (h : Delivered sent start s) {ps : List ControlPacket}
    (hps : List.Forall₂ (Copy sent) (range' (s.position start) ps.length) ps) :
    List.Forall₂ (Copy sent) (range' start (messages s.outputs ++ ps).length)
      (messages s.outputs ++ ps) := by
  rw [length_append, ← range'_append_1]
  exact rel_append h.inOrder hps

theorem Follows.move (h : Follows sent start s) {t : Control} (hquiet : s.channel.Quiet t.channel)
    (hmessages : messages t.outputs = messages s.outputs)
    (hparked : t.outputs.flatMap Output.toPark =
      t.outputs.filterMap Output.fromPark ++ t.channel.parkedTLS ++ t.stage.parking)
    (hmissing : t.stage.awaits = true → s.channel.recvPending.lookup s.channel.recvMessage = none)
    (hadmitted : ∀ watch p, t.stage = .admitted watch p →
      ControlChannel.Current s.channel.remote s.channel.keyID p) :
    Advances sent start s t := by
  have hposition : t.position start = s.position start := by
    rw [Control.position, hmessages, ← Control.position]
  refine ⟨⟨⟨?_, hparked⟩, ?_, fun hawaits => ?_, fun watch p hstage => ?_⟩, fun id hid hnew => ?_,
    fun id q hq => ?_⟩
  · rw [hmessages]
    exact h.delivered.inOrder
  · rw [hposition]
    exact h.holds.quiet hquiet
  · rw [hquiet.recvPending, hquiet.recvMessage]
    exact hmissing hawaits
  · rw [hquiet.remote, hquiet.keyID]
    exact hadmitted watch p hstage
  · exact absurd (hquiet.ackPending hid) hnew
  · rw [hquiet.recvPending]
    exact .inl hq

variable {c : ControlChannel} {p : ControlPacket} {watch : Bool}

section

variable (h : Follows sent start s) (hquiet : s.channel.Quiet c) (stage : Stage)
  (hparking : stage.parking = s.stage.parking)
include h hquiet stage hparking

theorem Follows.moveStage
    (hmissing : stage.awaits = true → s.channel.recvPending.lookup s.channel.recvMessage = none)
    (hadmitted : ∀ watch p, stage = .admitted watch p →
      ControlChannel.Current s.channel.remote s.channel.keyID p) :
    Advances sent start s ⟨c, stage, s.outputs⟩ := by
  refine h.move hquiet rfl ?_ hmissing hadmitted
  rw [hquiet.parkedTLS, hparking]
  exact h.delivered.parked

theorem Follows.rest (hawaits : stage.awaits = false) :
    Advances sent start s ⟨c, stage, s.outputs⟩ := by
  refine h.moveStage hquiet stage hparking (fun h' => ?_) fun watch p hstage => ?_
  · rw [hawaits] at h'
    cases h'
  · cases hstage
    cases hawaits

end

theorem Follows.stay (h : Follows sent start s) (hquiet : s.channel.Quiet c) :
    Advances sent start s ⟨c, s.stage, s.outputs⟩ :=
  h.moveStage hquiet s.stage rfl h.missing h.admitted

theorem Follows.self (h : Follows sent start s) : Advances sent start s s :=
  h.stay s.channel.quiet_self

theorem Control.position_deliver (s : Control) (start : Nat) (c : ControlChannel) (watch : Bool)
    (p : ControlPacket) : (s.deliver c watch p).position start = s.position start + 1 := by
  rw [Control.position, Control.deliver, messages_append, length_append]
  rfl

theorem Follows.deliver (h : Follows sent start s)
    (hholds : c.Holds sent (s.position start + 1)) (hparked : c.parkedTLS = s.channel.parkedTLS)
    (hparking : s.stage.parking = []) (hcopy : Copy sent (s.position start) p) (watch : Bool) :
    Follows sent start (s.deliver c watch p) := by
  have hmessages : messages (s.deliver c watch p).outputs = messages s.outputs ++ [p] :=
    messages_append _ _
  refine ⟨⟨?_, ?_⟩, ?_, fun hawaits => ?_, fun watch' p' hstage => ?_⟩
  · rw [hmessages]
    exact h.delivered.concat (.cons hcopy .nil)
  · have hold := h.delivered.parked
    rw [hparking] at hold
    cases watch with
    | false =>
      simpa [Control.deliver, Output.toPark, Output.fromPark, Stage.parking, hparked,
        filterMap_cons] using hold
    | true =>
      simp [Control.deliver, Output.toPark, Output.fromPark, Stage.parking, hparked, hold]
  · rw [Control.position_deliver]
    exact hholds
  · cases watch <;> cases hawaits
  · cases watch <;> cases hstage

theorem Follows.head (h : Follows sent start s) (hstage : s.stage = .head watch) :
    Advances sent start s (s.head watch) := by
  unfold Control.head
  dsimp only
  cases hp : s.channel.recvPending.lookup s.channel.recvMessage with
  | none =>
    exact h.moveStage s.channel.quiet_self (.receiving watch) (hstage ▸ rfl) (fun _ => hp) nofun
  | some p =>
    obtain ⟨hcopy, hcurrent, hholds⟩ := h.holds.take hp
    have hclass : s.channel.classifyWatchPacket p = (false, true) := by
      unfold ControlChannel.classifyWatchPacket
      rw [if_neg (not_or.mpr ⟨hcurrent.remote, not_not.mpr hcurrent.session⟩), if_neg hcurrent.opcode,
        decide_eq_true hcurrent.keyID]
    dsimp only
    rw [hclass, if_neg (by simp), if_neg (by simp)]
    refine ⟨h.deliver hholds
      rfl (hstage ▸ rfl) hcopy watch, fun id hid hnew => absurd hid hnew, fun id q hq => ?_⟩
    by_cases hid : id = s.channel.recvMessage
    · rw [hid, hp, Option.some.injEq] at hq
      subst hq
      exact .inr
        (by rw [Control.deliver, messages_append]; exact mem_append_right _ mem_cons_self)
    · exact .inl ((lookup_erase_ne hid).trans hq)

theorem Follows.receive (h : Follows sent start s) (hstage : s.stage = .receiving watch)
    (r : Option Received) (now : Int) :
    Advances sent start s (s.receive watch r now) := by
  have hparking : s.stage.parking = [] := hstage ▸ rfl
  unfold Control.receive
  cases r with
  | none => exact h.rest s.channel.quiet_self (.head watch) hparking.symm rfl
  | some r =>
    have hcase := s.channel.routed_route now r
    dsimp only
    split_ifs
    · exact h.rest s.channel.quiet_self (.head watch) hparking.symm rfl
    generalize s.channel.route now r = x at hcase
    cases hcase with
    | dropped recReplay =>
      exact h.rest (s.channel.quiet_update recReplay _ _) (.head watch) hparking.symm rfl
    | established recReplay replayChecked hremote hsession =>
      have hnone := h.holds.lookup_of_unset hremote
      refine ⟨⟨⟨h.delivered.inOrder, ?_⟩, h.holds.establish hremote _ _, fun _ => hnone _, nofun⟩,
        fun id hid hnew => absurd hid hnew, fun id q hq => .inl hq⟩
      have hold := h.delivered.parked
      rw [hparking] at hold
      exact hold
    | same hremote hsession =>
      exact h.moveStage s.channel.quiet_self (.routed watch r false) hparking.symm
        (fun _ => h.missing (hstage ▸ rfl)) nofun

theorem Follows.checkKey (hs : s.Established) (h : Follows sent start s) {replayChecked : Bool}
    {r : Received} (hstage : s.stage = .routed watch r replayChecked) (now : Int) :
    Advances sent start s (s.checkKey watch r replayChecked now) := by
  obtain ⟨-, hsession, hremote⟩ := hs r.packet (hstage ▸ rfl)
  have hparking : s.stage.parking = [] := hstage ▸ rfl
  have hmissing := h.missing (hstage ▸ rfl)
  -- the packet goes on as one of the current epoch
  have hadmitted : ∀ recReplay, r.packet.opcode ≠ .softResetV1 → r.packet.keyID = s.channel.keyID →
      let t : Control :=
        { s with channel := { s.channel with recReplay }, stage := .admitted watch r.packet }
      Advances sent start s t := by
    intro recReplay hopcode hkey
    refine h.moveStage (s.channel.quiet_update recReplay _ _) (.admitted watch r.packet) hparking.symm
      (fun _ => hmissing) ?_
    intro watch' p' heq
    cases heq
    exact ⟨hsession, hremote, hkey, hopcode⟩
  unfold Control.checkKey
  split_ifs
  · have hcase := s.channel.admittedWatch_admitWatch now r
    generalize s.channel.admitWatch now r = x at hcase
    cases hcase with
    | dropped recReplay =>
      exact h.rest (s.channel.quiet_update recReplay _ _) (.head watch) hparking.symm rfl
    | reset recReplay hopcode =>
      refine h.move (s.channel.quiet_update recReplay _ _) ?_ ?_ nofun nofun
      · exact (messages_append _ _).trans (append_nil _)
      · have hnothing : parkable r.packet = [] := if_neg fun hv1 => by
          rw [hopcode] at hv1
          cases hv1.1
        have hold := h.delivered.parked
        rw [hparking] at hold
        simpa [Control.returnReset, Output.toPark, Output.fromPark, Stage.parking, hnothing,
          filterMap_cons] using hold
    | admitted recReplay hopcode hkey => exact hadmitted recReplay hopcode hkey
  · have hcase := s.channel.admittedRead_admitRead now r replayChecked
    generalize s.channel.admitRead now r replayChecked = x at hcase
    cases hcase with
    | dropped recReplay =>
      exact h.rest (s.channel.quiet_update recReplay _ _) (.head watch) hparking.symm rfl
    | kept recReplay pendingSoftReset =>
      exact h.rest (s.channel.quiet_update recReplay pendingSoftReset _) (.head watch) hparking.symm rfl
    | admitted recReplay hopcode hkey => exact hadmitted recReplay hopcode hkey

theorem Follows.accept (hs : s.Established) (h : Follows sent start s)
    (hstage : s.stage = .admitted watch p)
    (hgenuine : p.opcode.hasMessageID = true → ∃ i, Near i (s.position start) ∧ Copy sent i p) :
    Advances sent start s (s.accept watch p) := by
  obtain ⟨hcontrol, -, -⟩ := hs p (hstage ▸ rfl)
  have hparking : s.stage.parking = [] := hstage ▸ rfl
  have hcase :=
    h.holds.handles (h.missing (hstage ▸ rfl)) (h.admitted watch p hstage) hcontrol hgenuine
  unfold Control.accept
  generalize s.channel.accept p = x at hcase
  cases hcase with
  | kept hholds hparked hacks hbuffered =>
    refine ⟨⟨⟨h.delivered.inOrder, ?_⟩, hholds, nofun, nofun⟩, hacks, fun id q hq =>
      .inl (hbuffered id q hq)⟩
    have hold := h.delivered.parked
    rw [hparking, ← hparked] at hold
    exact hold
  | @returned c hholds hparked hcopy hacks hbuffered =>
    have hfollows := h.deliver hholds hparked hparking hcopy watch
    have hposition := s.position_deliver start c watch p
    refine ⟨hfollows, fun id hid hnew => ⟨s.position start, ?_, hacks id hid hnew, .inl ?_⟩,
      fun id q hq => .inl ?_⟩
    · rw [hposition]
      exact ⟨by omega, by omega⟩
    · rw [hposition]
      exact Nat.lt_succ_self _
    · exact (congrArg (AList.lookup id) hbuffered).trans hq

theorem Follows.park (h : Follows sent start s) (hstage : s.stage = .watched p) :
    Advances sent start s (s.park p) := by
  have hparking : s.stage.parking = parkable p := hstage ▸ rfl
  have hold := h.delivered.parked
  rw [hparking] at hold
  unfold Control.park
  split_ifs with hreset hpayload
  · refine h.rest s.channel.quiet_self .idle ?_ rfl
    rw [hparking, parkable, if_neg fun hv1 => by rw [hreset] at hv1; cases hv1.1]
    rfl
  · rw [parkable, if_pos hpayload] at hold
    refine ⟨⟨⟨h.delivered.inOrder, ?_⟩, { h.holds with }, nofun, nofun⟩,
      fun id hid hnew => absurd hid hnew, fun id q hq => .inl hq⟩
    change _ = _ ++ (s.channel.parkedTLS ++ [p.payload]) ++ []
    rw [hold, append_nil, append_assoc]
  · refine h.rest s.channel.quiet_self (.head true) ?_ rfl
    rw [hparking, parkable, if_neg hpayload]
    rfl

theorem Follows.wait (h : Follows sent start s) (hstage : s.stage = .idle) :
    Advances sent start s s.wait := by
  unfold Control.wait
  dsimp only
  cases s.channel.pendingSoftReset with
  | none => exact h.rest s.channel.quiet_self (.head true) (hstage ▸ rfl) rfl
  | some p =>
    dsimp only
    split_ifs
    · exact h.rest (s.channel.quiet_update _ none _) (.head true) (hstage ▸ rfl) rfl
    · exact h.rest (s.channel.quiet_update _ none _) .idle (by rw [hstage]) rfl

theorem filterMap_fromPark (payloads : List Str) (ps : List ControlPacket) :
    (payloads.map Output.unparked ++ ps.map Output.queued).filterMap Output.fromPark = payloads := by
  rw [filterMap_append, filterMap_map, filterMap_map]
  exact (congrArg₂ _ filterMap_some (filterMap_eq_nil_iff.mpr fun _ _ => rfl)).trans
    (append_nil _)

theorem flatMap_toPark (payloads : List Str) (ps : List ControlPacket) :
    (payloads.map Output.unparked ++ ps.map Output.queued).flatMap Output.toPark = [] := by
  rw [flatMap_append, flatMap_map, flatMap_map]
  exact congrArg₂ _ (flatMap_eq_nil_iff.mpr fun _ _ => rfl)
    (flatMap_eq_nil_iff.mpr fun _ _ => rfl)

theorem Follows.readAll (h : Follows sent start s) :
    Advances sent start s s.readAll := by
  have hempty : ControlChannel.Holds sent (s.position start) { s.channel with parkedTLS := [] } :=
    { h.holds with }
  obtain ⟨hcopies, hholds, hbuffered⟩ := hempty.drain s.channel.recvPending.entries.length
  have hmissing := ControlChannel.lookup_drain (c := { s.channel with parkedTLS := [] })
    (Nat.le_refl s.channel.recvPending.entries.length)
  have hrest :=
    ControlChannel.drain_eq s.channel.recvPending.entries.length { s.channel with parkedTLS := [] }
  unfold Control.readAll
  dsimp only at hcopies hholds hbuffered hmissing ⊢
  generalize ControlChannel.drain _ _ = x at *
  obtain ⟨ps, c⟩ := x
  obtain ⟨recvMessage, recvPending, rfl⟩ := hrest
  have hmessages : messages (s.outputs ++ s.channel.parkedTLS.map .unparked ++ ps.map .queued) =
      messages s.outputs ++ ps := by
    rw [messages_append, messages_append, messages_unparked, messages_queued, append_nil]
  refine ⟨⟨⟨?_, ?_⟩, ?_, fun _ => hmissing, h.admitted⟩, fun id hid hnew => absurd hid hnew,
    fun id q hq => ?_⟩
  · rw [hmessages]
    exact h.delivered.concat hcopies
  · rw [append_assoc, flatMap_append, flatMap_toPark, filterMap_append,
      filterMap_fromPark, append_nil,
      append_nil]
    exact h.delivered.parked
  · rw [Control.position, hmessages, length_append, ← Nat.add_assoc]
    exact hholds
  · refine (hbuffered id q hq).imp_right fun hmem => ?_
    rw [hmessages]
    exact mem_append_right _ hmem

theorem Follows.step (hs : s.Established) (h : Follows sent start s) {a : Action}
    (ha : Genuine sent start s a) {t : Control} (hstep : s.step a = .ok t) :
    Advances sent start s t := by
  cases Control.stepped hstep with
  | same => exact h.self
  | read hstage => exact h.rest s.channel.quiet_self (.head false) (hstage ▸ rfl) rfl
  | wait hstage => exact h.wait hstage
  | head hstage => exact h.head hstage
  | receive hstage r now => exact h.receive hstage r now
  | checkKey hstage now => exact h.checkKey hs hstage now
  | @accept watch p hstage => exact h.accept hs hstage (ha watch p hstage)
  | park hstage => exact h.park hstage
  | cancel hstage =>
    have hparking : Stage.idle.parking = s.stage.parking := by
      rcases hstage with hstage | hstage <;> exact hstage ▸ rfl
    exact h.rest s.channel.quiet_self .idle hparking rfl
  | readAll => exact h.readAll
  | send opcode payload => exact h.stay (s.channel.quiet_send opcode payload)
  | sendAck => exact h.stay s.channel.quiet_sendAck
  | retransmitPending => exact h.stay s.channel.quiet_retransmitPending
  | queueAck | markReceived | beginEpoch => exact ha.elim

end Steps

/-! ### Epochs -/

structure Opened (start : Nat) (c : ControlChannel) : Prop where
  recvMessage : c.recvMessage = UInt32.ofNat start
  recvPending : c.recvPending = ∅
  parkedTLS : c.parkedTLS = []

theorem opened_new (crypt : Bool) (localSession : SessionID) : Opened 0 (.new crypt localSession) :=
  ⟨rfl, rfl, rfl⟩

theorem Opened.follows (sent : Nat → Opcode × Str) {start : Nat} {c : ControlChannel}
    (h : Opened start c) : Follows sent start ⟨c, .idle, []⟩ := by
  refine ⟨⟨.nil, ?_⟩, ⟨h.recvMessage, fun id q hq => ?_⟩, nofun, nofun⟩
  · rw [h.parkedTLS]
    rfl
  · rw [h.recvPending] at hq
    cases hq

/-- In an epoch, `read` and `ReadAll` return the messages of the peer in order, each once and
without a gap; the payloads of the messages that go to `waitForSoftReset` are parked, and
returned by `ReadAll`, in order and each once; a message is acknowledged when it has been
returned or is buffered, and a buffered message is not discarded. -/
theorem control_delivery (sent : Nat → Opcode × Str) {start : Nat} {c : ControlChannel}
    (h : Opened start c) (actions : List Action)
    (hactions : Along Control.step (Genuine sent start) ⟨c, .idle, []⟩ actions) :
    Always Control.step (Delivered sent start) ⟨c, .idle, []⟩ actions ∧
      Along Control.step (fun s a => ∀ t, s.step a = .ok t → Safe sent start s t)
        ⟨c, .idle, []⟩ actions := by
  have hinv : ∀ {s a t}, s.Established ∧ Follows sent start s → Genuine sent start s a →
      Control.step s a = .ok t →
      t.Established ∧ Follows sent start t := fun hs ha hstep =>
        ⟨hs.1.step hstep, (hs.2.step hs.1 ha hstep).1⟩
  have hstart : Control.Established ⟨c, .idle, []⟩ ∧ Follows sent start ⟨c, .idle, []⟩ :=
    ⟨Control.Established.of_none rfl, h.follows sent⟩
  constructor
  · exact always_of_along hinv (fun hs => hs.2.delivered) hstart actions hactions
  · exact along_of_along hinv (fun hs ha t hstep => (hs.2.step hs.1 ha hstep).2) hstart actions hactions

def sampleSent : Nat → Opcode × Str
  | 0 => (.hardResetServerV2, [])
  | i => (.controlV1, [UInt8.ofNat i])

def samplePacket (i : Nat) : ControlPacket :=
  ⟨(sampleSent i).1, 0, 9, [], 0, UInt32.ofNat i, (sampleSent i).2⟩

def arrival (p : ControlPacket) : List Action :=
  [.head, .receive (some ⟨p, 0, 0⟩) 0, .checkKey 0, .accept]

def reorderedRun : List Action :=
  .read :: arrival (samplePacket 0) ++ .read :: arrival (samplePacket 2) ++ arrival
    (samplePacket 1) ++ [.read, .head]

theorem along_reorderedRun :
    Along Control.step (Genuine sampleSent 0) ⟨.new false 5, .idle, []⟩ reorderedRun := by
  refine along_cons rfl trivial
    (along_cons rfl trivial (along_cons rfl trivial (along_cons rfl trivial ?_)))
  refine along_cons rfl ?_ ?_
  · intro watch p hstage _
    cases hstage
    exact ⟨0, ⟨by decide, by decide⟩, rfl, rfl⟩
  refine along_cons rfl trivial
    (along_cons rfl trivial (along_cons rfl trivial (along_cons rfl trivial ?_)))
  refine along_cons rfl ?_ ?_
  · intro watch p hstage _
    cases hstage
    exact ⟨2, ⟨by decide, by decide⟩, rfl, rfl⟩
  refine along_cons rfl trivial (along_cons rfl trivial (along_cons rfl trivial ?_))
  refine along_cons rfl ?_ ?_
  · intro watch p hstage _
    cases hstage
    exact ⟨1, ⟨by decide, by decide⟩, rfl, rfl⟩
  exact along_cons rfl trivial (along_cons rfl trivial trivial)

theorem control_delivery_reordered :
    Always Control.step (Delivered sampleSent 0) ⟨.new false 5, .idle, []⟩ reorderedRun ∧
      Along Control.step (fun s a => ∀ t, s.step a = .ok t → Safe sampleSent 0 s t)
        ⟨.new false 5, .idle, []⟩
        reorderedRun :=
  control_delivery sampleSent (opened_new false 5) reorderedRun along_reorderedRun

/-- Message 1 is returned by `read` in watch mode, and its payload by `ReadAll`. -/
theorem parked_payload_returned_again :
    (fun s : Control => s.outputs) <$>
        exec Control.step (.start false 5)
          (.read :: arrival (samplePacket 0) ++ .wait :: arrival (samplePacket 1) ++ [.park, .readAll]) =
      .ok [.read false (samplePacket 0), .read true (samplePacket 1),
        .unparked (samplePacket 1).payload] := rfl

end Mihomo.OpenVPN
