import Mihomo.OpenVPN.Replay
import Mathlib.Data.List.AList

/-!
# The control channel

Control packets carry reliable messages, numbered from 0 in every key epoch, and lists of acknowledged
message numbers. `read` returns the messages of the peer; while it waits for a soft reset it runs in
watch mode, and `waitForSoftReset` parks the payloads it gets for `ReadAll`. A section that holds the
mutex is one step. The program counter of the reader is `Stage`.
-/

namespace Mihomo.OpenVPN
open Go Lib

inductive Opcode where
  | hardResetClientV1 | hardResetServerV1 | softResetV1 | controlV1 | ackV1 | dataV1
  | hardResetClientV2 | hardResetServerV2 | dataV2 | hardResetClientV3 | wkcV1
  deriving DecidableEq, Repr

def Opcode.isControl : Opcode → Bool
  | .dataV1 | .dataV2 => false
  | _ => true

def Opcode.hasMessageID (o : Opcode) : Bool := o.isControl && o != .ackV1

abbrev SessionID := UInt64

structure ControlPacket where
  opcode : Opcode
  keyID : UInt8
  localSession : SessionID
  ackIDs : List UInt32
  ackRemoteSession : SessionID
  messageID : UInt32
  payload : Str
  deriving DecidableEq, Repr

abbrev Messages := AList fun _ : UInt32 => ControlPacket

/-- `crypt` says whether the channel is protected. -/
structure ControlChannel where
  crypt : Bool
  localSession : SessionID
  keyID : UInt8
  remote : SessionID
  sendMessage : UInt32
  recvMessage : UInt32
  ackPending : List UInt32
  lruAcks : List UInt32
  pending : Messages
  recvPending : Messages
  pendingSoftReset : Option ControlPacket
  parkedTLS : List Str
  recReplay : ReplayState

def reliableAckSize : Nat := 8

def reliableCapacity : Nat := 12

def controlSendAckMax : Nat := 4

def recvWindowOK (recvMessage messageID : UInt32) (buffered : Nat) : Bool :=
  (messageID - recvMessage).toNat < reliableCapacity && buffered < reliableCapacity

def reliableMessageBefore (messageID recvMessage : UInt32) : Bool :=
  2 ^ 31 ≤ (messageID - recvMessage).toNat

def nextKeyID (current : UInt8) : UInt8 :=
  let next := (current + 1) &&& 7
  if next = 0 then 1 else next

def appendAck (acks : List UInt32) (ack : UInt32) : List UInt32 :=
  if ack ∈ acks then acks else acks ++ [ack]

/-- The inner loop of `takeAcksLocked`: entries move back by one until the place of `id` is found.
The second component is the entry that fell off the end. -/
def shiftAcks (id : UInt32) : UInt32 → List UInt32 → List UInt32 × Option UInt32
  | move, [] => ([], some move)
  | move, ack :: acks =>
    if ack = id then (move :: acks, none)
    else
      let (acks, last) := shiftAcks id ack acks
      (move :: acks, last)

def moveToFront (id : UInt32) (lruAcks : List UInt32) : List UInt32 :=
  match shiftAcks id id lruAcks with
  | (acks, none) => acks
  | (acks, some last) => if acks.length < reliableAckSize then acks ++ [last] else acks

def eraseAll (ids : List UInt32) (messages : Messages) : Messages :=
  ids.foldl (fun m id => m.erase id) messages

structure Received where
  packet : ControlPacket
  packetID : UInt32
  unixTime : UInt32

namespace ControlChannel

def new (crypt : Bool) (localSession : SessionID) : ControlChannel :=
  ⟨crypt, localSession, 0, 0, 0, 0, [], [], ∅, ∅, none, [], .zero⟩

def beginEpoch (c : ControlChannel) (keyID : UInt8) : ControlChannel :=
  { c with
    keyID := keyID &&& 7, sendMessage := 0, recvMessage := 0, ackPending := [], lruAcks := [],
      pending := ∅,
    recvPending := ∅, parkedTLS := [] }

def queueAck (c : ControlChannel) (messageID : UInt32) : ControlChannel :=
  { c with ackPending := appendAck c.ackPending messageID }

def markReceived (c : ControlChannel) (messageID : UInt32) : ControlChannel :=
  let next := messageID + 1
  { c with
    recvMessage :=
      if next ≠ c.recvMessage ∧ !reliableMessageBefore next c.recvMessage then next else c.recvMessage
    recvPending := c.recvPending.erase messageID }

/-- `takeAcksLocked`; the acknowledgements that are sent come first. -/
def takeAcks (c : ControlChannel) (max : Nat) : List UInt32 × ControlChannel :=
  let n := min c.ackPending.length max
  let lruAcks := ((c.ackPending.take n).foldr moveToFront c.lruAcks).take reliableAckSize
  (lruAcks.take max, { c with lruAcks, ackPending := c.ackPending.drop n })

/-- The packet of `Send` and the channel without it. -/
def makePacket (c : ControlChannel) (opcode : Opcode) (payload : Str) : ControlPacket × ControlChannel :=
  let (ackIDs, c') := c.takeAcks controlSendAckMax
  (⟨opcode, c.keyID, c.localSession, ackIDs, c.remote, c.sendMessage, payload⟩, c')

def send (c : ControlChannel) (opcode : Opcode) (payload : Str) : ControlChannel :=
  if !opcode.hasMessageID then c
  else
    let (packet, c') := c.makePacket opcode payload
    { c' with sendMessage := c.sendMessage + 1, pending := c.pending.insert c.sendMessage packet }

def dedicatedAckMax (c : ControlChannel) : Nat := if c.crypt then reliableAckSize else controlSendAckMax

def sendAck (c : ControlChannel) : ControlChannel :=
  if c.ackPending = [] then c else (c.takeAcks c.dedicatedAckMax).2

def retransmitPending (c : ControlChannel) : ControlChannel :=
  if c.pending.entries = [] then c else (c.takeAcks controlSendAckMax).2

def checkProtected (c : ControlChannel) (now : Int) (r : Received) : ControlChannel × Bool :=
  if c.crypt then
    let (recReplay, err) := checkReplay c.recReplay now r.packetID r.unixTime
    ({ c with recReplay }, err.isNone)
  else (c, true)

/-- Whether the packet is a soft reset for the next epoch, and whether it is accepted in watch mode. -/
def classifyWatchPacket (c : ControlChannel) (p : ControlPacket) : Bool × Bool :=
  if c.remote = 0 ∨ p.localSession ≠ c.remote then (false, false)
  else if p.opcode = .softResetV1 then
    let next : Bool := p.keyID = nextKeyID c.keyID ∧ p.messageID = 0
    (next, next)
  else (false, p.keyID = c.keyID)

/-- The checks of `read` up to the comparison with the remote session; a hard reset of the server
establishes it. The result says whether the packet is processed and has passed the replay check. -/
def route (c : ControlChannel) (now : Int) (r : Received) : ControlChannel × Option Bool :=
  let p := r.packet
  if p.localSession = 0 then (c, none)
  else if p.ackIDs ≠ [] ∧ p.ackRemoteSession ≠ c.localSession then (c, none)
  else if c.remote = 0 then
    if (p.opcode = .hardResetServerV2 ∨ p.opcode = .hardResetServerV1) ∧ p.keyID = c.keyID ∧
      p.messageID = 0 then
      let (c', passed) := c.checkProtected now r
      if passed then ({ c' with remote := p.localSession }, some c.crypt) else (c', none)
    else (c, none)
  else if p.localSession ≠ c.remote then (c, none)
  else (c, some false)

/-- The key check outside watch mode; a soft reset for the next epoch is kept for
`waitForSoftReset`. The result says whether the packet is accepted. -/
def admitRead (c : ControlChannel) (now : Int) (r : Received) (replayChecked : Bool) :
    ControlChannel × Bool :=
  let p := r.packet
  if p.opcode = .softResetV1 then
    if p.keyID = nextKeyID c.keyID ∧ p.messageID = 0 ∧ (c.remote = 0 ∨ p.localSession = c.remote) then
      let (c', passed) := c.checkProtected now r
      if passed then
        ({ c' with
          pendingSoftReset := some (c'.pendingSoftReset.getD p)
          pending := eraseAll p.ackIDs c'.pending }, false)
      else (c', false)
    else (c, false)
  else if p.keyID ≠ c.keyID then (c, false)
  else if replayChecked then (c, true)
  else c.checkProtected now r

inductive Watch where
  | dropped | reset | admitted
  deriving DecidableEq, Repr

def admitWatch (c : ControlChannel) (now : Int) (r : Received) : ControlChannel × Watch :=
  let (softReset, valid) := c.classifyWatchPacket r.packet
  if !valid then (c, .dropped)
  else
    let (c', passed) := c.checkProtected now r
    if !passed then (c', .dropped) else if softReset then (c', .reset) else (c', .admitted)

/-- The last section of `read`; the result says whether the packet is returned. -/
def accept (c : ControlChannel) (p : ControlPacket) : ControlChannel × Bool :=
  let c := { c with pending := eraseAll p.ackIDs c.pending }
  if p.opcode = .ackV1 then (c, false)
  else if !p.opcode.hasMessageID then (c, true)
  else if reliableMessageBefore p.messageID c.recvMessage then (c.queueAck p.messageID, false)
  else if p.messageID = c.recvMessage then
    ({ c.queueAck p.messageID with recvMessage := c.recvMessage + 1 }, true)
  else if (c.recvPending.lookup p.messageID).isSome then (c.queueAck p.messageID, false)
  else if recvWindowOK c.recvMessage p.messageID c.recvPending.entries.length then
    ({ c.queueAck p.messageID with recvPending := c.recvPending.insert p.messageID p }, false)
  else (c, false)

/-- The loop of `ReadAll`; every round takes a message out. -/
def drain : Nat → ControlChannel → List ControlPacket × ControlChannel
  | 0, c => ([], c)
  | rounds + 1, c =>
    match c.recvPending.lookup c.recvMessage with
    | none => ([], c)
    | some p =>
      let (ps, c') := drain rounds
        { c with recvPending := c.recvPending.erase c.recvMessage, recvMessage := c.recvMessage + 1 }
      (p :: ps, c')

end ControlChannel

/-- What `read` and `ReadAll` have returned: a message, in watch mode or not; a soft reset for the
next epoch; a message that was buffered; a payload that was parked. -/
inductive Output where
  | read (watch : Bool) (p : ControlPacket)
  | reset (p : ControlPacket)
  | queued (p : ControlPacket)
  | unparked (payload : Str)
  deriving DecidableEq, Repr

/-- Where the reader stands: at the head of the loop of `read`, waiting for a packet, behind the
session check, behind the key check, or in `waitForSoftReset` with a packet from `read`. -/
inductive Stage where
  | idle
  | head (watch : Bool)
  | receiving (watch : Bool)
  | routed (watch : Bool) (r : Received) (replayChecked : Bool)
  | admitted (watch : Bool) (p : ControlPacket)
  | watched (p : ControlPacket)

structure Control where
  channel : ControlChannel
  stage : Stage
  outputs : List Output

inductive Action where
  | read
  | wait
  | head
  | receive (r : Option Received) (now : Int)
  | checkKey (now : Int)
  | accept
  | park
  | cancel
  | readAll
  | send (opcode : Opcode) (payload : Str)
  | sendAck
  | retransmitPending
  | queueAck (messageID : UInt32)
  | markReceived (messageID : UInt32)
  | beginEpoch (keyID : UInt8)

namespace Control

def start (crypt : Bool) (localSession : SessionID) : Control := ⟨.new crypt localSession, .idle, []⟩

def deliver (s : Control) (c : ControlChannel) (watch : Bool) (p : ControlPacket) : Control :=
  ⟨c, if watch then .watched p else .idle, s.outputs ++ [.read watch p]⟩

def returnReset (s : Control) (c : ControlChannel) (p : ControlPacket) : Control :=
  ⟨c, .watched p, s.outputs ++ [.reset p]⟩

/-- The start of `waitForSoftReset`; a reset that was kept is returned to the caller. -/
def wait (s : Control) : Control :=
  let c := s.channel
  match c.pendingSoftReset with
  | none => { s with stage := .head true }
  | some p =>
    let stage := if p.keyID ≠ nextKeyID c.keyID ∨ p.messageID ≠ 0 then .head true else .idle
    { s with channel := { c with pendingSoftReset := none }, stage }

/-- The section at the head of the loop of `read`. -/
def head (s : Control) (watch : Bool) : Control :=
  let c := s.channel
  match c.recvPending.lookup c.recvMessage with
  | none => { s with stage := .receiving watch }
  | some p =>
    let c' := { c with recvPending := c.recvPending.erase c.recvMessage }
    if watch ∧ (c.classifyWatchPacket p).2 = false then { s with channel := c' }
    else if watch ∧ (c.classifyWatchPacket p).1 then s.returnReset c' p
    else s.deliver { c' with recvMessage := c.recvMessage + 1 } watch p

/-- A packet that cannot be decoded is skipped; `DecodeControlPacket` rejects other opcodes, too. -/
def receive (s : Control) (watch : Bool) (r : Option Received) (now : Int) : Control :=
  match r with
  | none => { s with stage := .head watch }
  | some r =>
    if !r.packet.opcode.isControl then { s with stage := .head watch }
    else
      match s.channel.route now r with
      | (c, none) => { s with channel := c, stage := .head watch }
      | (c, some replayChecked) => { s with channel := c, stage := .routed watch r replayChecked }

def checkKey (s : Control) (watch : Bool) (r : Received) (replayChecked : Bool) (now : Int) : Control :=
  if watch then
    match s.channel.admitWatch now r with
    | (c, .dropped) => { s with channel := c, stage := .head watch }
    | (c, .reset) => s.returnReset c r.packet
    | (c, .admitted) => { s with channel := c, stage := .admitted watch r.packet }
  else
    match s.channel.admitRead now r replayChecked with
    | (c, false) => { s with channel := c, stage := .head watch }
    | (c, true) => { s with channel := c, stage := .admitted watch r.packet }

def accept (s : Control) (watch : Bool) (p : ControlPacket) : Control :=
  match s.channel.accept p with
  | (c, false) => { s with channel := c, stage := .head watch }
  | (c, true) => s.deliver c watch p

/-- `waitForSoftReset` with a packet from `read`: a reset is returned, a payload is parked, and the
loop goes on after anything else. -/
def park (s : Control) (p : ControlPacket) : Control :=
  if p.opcode = .softResetV1 then { s with stage := .idle }
  else if p.opcode = .controlV1 ∧ p.payload ≠ [] then
    { s with
      channel := { s.channel with parkedTLS := s.channel.parkedTLS ++ [p.payload] }
      stage := .idle }
  else { s with stage := .head true }

def readAll (s : Control) : Control :=
  let c := s.channel
  let (ps, c') := ControlChannel.drain c.recvPending.entries.length { c with parkedTLS := [] }
  { s with channel := c', outputs := s.outputs ++ c.parkedTLS.map .unparked ++ ps.map .queued }

def step (s : Control) : Action → Except Empty Control
  | .read => .ok (match s.stage with | .idle => { s with stage := .head false } | _ => s)
  | .wait => .ok (match s.stage with | .idle => s.wait | _ => s)
  | .head => .ok (match s.stage with | .head watch => s.head watch | _ => s)
  | .receive r now => .ok (match s.stage with | .receiving watch => s.receive watch r now | _ => s)
  | .checkKey now => .ok (match s.stage with
    | .routed watch r replayChecked => s.checkKey watch r replayChecked now
    | _ => s)
  | .accept => .ok (match s.stage with | .admitted watch p => s.accept watch p | _ => s)
  | .park => .ok (match s.stage with | .watched p => s.park p | _ => s)
  | .cancel => .ok (match s.stage with
    | .head _ | .receiving _ => { s with stage := .idle }
    | _ => s)
  | .readAll => .ok s.readAll
  | .send opcode payload => .ok { s with channel := s.channel.send opcode payload }
  | .sendAck => .ok { s with channel := s.channel.sendAck }
  | .retransmitPending => .ok { s with channel := s.channel.retransmitPending }
  | .queueAck messageID => .ok { s with channel := s.channel.queueAck messageID }
  | .markReceived messageID => .ok { s with channel := s.channel.markReceived messageID }
  | .beginEpoch keyID => .ok { s with channel := s.channel.beginEpoch keyID }

end Control

end Mihomo.OpenVPN
