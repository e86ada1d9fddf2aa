import Mihomo.Go.Text
import Mathlib.Data.List.AList

/-!
# The mKCP connection (transport/mkcp/conn.go, config.go, segment.go)

Sequence numbers are the counts behind them; the code holds them modulo 2^32, and every test here
reads them through `serial`. Other `uint32` values are `UInt32`. A critical section takes the clock
once, as its argument `now`; deadlines, wake-ups and the bytes on the wire are left out.
-/

namespace Mihomo.Mkcp
open Go

abbrev serial (number : Nat) : UInt32 := UInt32.ofNat number

/-! ### Configuration -/

structure Config where
  MTU : UInt32 := 0
  TTI : UInt32 := 0
  UplinkCapacity : UInt32 := 0
  DownlinkCapacity : UInt32 := 0
  Congestion : Bool := false
  WriteBuffer : UInt32 := 0
  deriving DecidableEq, Repr

namespace Config

variable (c : Config)

def mtu : UInt32 := if c.MTU = 0 then 1350 else c.MTU

def tti : UInt32 := if c.TTI = 0 then 50 else c.TTI

def uplinkCapacity : UInt32 := if c.UplinkCapacity = 0 then 5 else c.UplinkCapacity

def downlinkCapacity : UInt32 := if c.DownlinkCapacity = 0 then 20 else c.DownlinkCapacity

def writeBuffer : UInt32 := if c.WriteBuffer = 0 then 2 * 1024 * 1024 else c.WriteBuffer

def inFlightSize (capacity : UInt32) : UInt32 :=
  max (capacity * 1024 * 1024 / c.mtu / (1000 / c.tti)) 8

def sendingInFlightSize : UInt32 := c.inFlightSize c.uplinkCapacity

def receivingInFlightSize : UInt32 := c.inFlightSize c.downlinkCapacity

def sendingBufferSize : UInt32 := c.writeBuffer / c.mtu

theorem toNat_max (a b : UInt32) : (max a b).toNat = max a.toNat b.toNat := by
  change (if a ≤ b then b else a).toNat = max a.toNat b.toNat
  split_ifs with hle
  · exact (max_eq_right (UInt32.le_iff_toNat_le.mp hle)).symm
  · exact (max_eq_left (Nat.le_of_not_le fun h => hle (UInt32.le_iff_toNat_le.mpr h))).symm

theorem receivingInFlightSize_pos : 0 < c.receivingInFlightSize.toNat := by
  unfold receivingInFlightSize inFlightSize
  rw [toNat_max]
  exact lt_max_of_lt_right (by decide)

end Config

/-! ### Segments -/

abbrev Command := UInt8

def commandTerminate : Command := 2
def commandPing : Command := 3

abbrev SegmentOption := UInt8

def segmentOptionClose : SegmentOption := 1

def dataSegmentOverhead : Nat := 18

structure DataSegment where
  conv : UInt16 := 0
  option : SegmentOption := 0
  timestamp : UInt32 := 0
  number : Nat
  sendingNext : Nat := 0
  payload : Str
  timeout : UInt32 := 0
  transmit : UInt32 := 0
  deriving DecidableEq, Repr

structure AckSegment where
  conv : UInt16
  option : SegmentOption
  receivingWindow : UInt32
  receivingNext : Nat
  timestamp : UInt32
  numberList : List Nat
  deriving DecidableEq, Repr

structure CmdOnlySegment where
  conv : UInt16
  cmd : Command
  option : SegmentOption
  sendingNext : Nat
  receivingNext : Nat
  peerRTO : UInt32
  deriving DecidableEq, Repr

inductive Segment where
  | data (s : DataSegment)
  | ack (s : AckSegment)
  | cmdOnly (s : CmdOnlySegment)
  deriving DecidableEq, Repr

def Segment.conversation : Segment → UInt16
  | .data s => s.conv
  | .ack s => s.conv
  | .cmdOnly s => s.conv

/-! ### The connection -/

inductive ConnState where
  | active
  | readyToClose
  | peerClosed
  | terminating
  | peerTerminating
  | terminated
  deriving DecidableEq, Repr

structure AckItem where
  number : Nat
  timestamp : UInt32
  nextFlush : UInt32
  deriving DecidableEq, Repr

abbrev RecvCache := AList fun _ : UInt32 => DataSegment

structure Conn where
  cfg : Config
  conv : UInt16
  mss : Nat
  rto : UInt32
  rttVariation : UInt32
  srtt : UInt32
  minRtt : UInt32
  rtoUpdated : UInt32
  state : ConnState
  stateBegin : UInt32
  lastIncoming : UInt32
  lastPing : UInt32
  readBuf : Str
  recvCache : RecvCache
  recvNext : Nat
  ackList : List AckItem
  ackDirty : Bool
  sendWindow : List DataSegment
  sendNext : Nat
  firstUnacked : Nat
  remoteRecvWin : UInt32
  totalInFlightSize : UInt32
  controlWindow : UInt32
  firstUnackedWasUpdated : Bool

/-- `newConn` with the overhead of the packet writer. A `TTI` above 1000 divides by zero in
`sendingInFlightSize`, which panics. -/
def newConn (cfg : Config) (conv : UInt16) (overhead : Nat) : Option Conn :=
  if 1000 / cfg.tti = 0 then none
  else some {
    cfg, conv
    mss := max (cfg.mtu.toNat - overhead - dataSegmentOverhead) 576
    rto := 100
    rttVariation := 0
    srtt := 0
    minRtt := cfg.tti
    rtoUpdated := 0
    state := .active
    stateBegin := 0
    lastIncoming := 0
    lastPing := 0
    readBuf := []
    recvCache := ∅
    recvNext := 0
    ackList := []
    ackDirty := false
    sendWindow := []
    sendNext := 0
    firstUnacked := 0
    remoteRecvWin := 32
    totalInFlightSize := 0
    controlWindow := cfg.sendingInFlightSize
    firstUnackedWasUpdated := false }

namespace Conn

variable (c : Conn) (now : UInt32)

def setStateLocked (state : ConnState) : Conn :=
  if c.state = state then c
  else match state with
    | .active | .readyToClose => { c with state, stateBegin := now }
    | .peerClosed | .terminating | .peerTerminating | .terminated =>
      { c with state, stateBegin := now, sendWindow := [] }

/-! ### Calls of the application -/

inductive ReadResult where
  | data (b : Str)
  | eof
  | wait
  deriving DecidableEq, Repr

/-- One turn of the loop of `Read` with a buffer of `size` bytes. -/
def read (size : Nat) : Conn × ReadResult :=
  if c.readBuf ≠ [] then ({ c with readBuf := c.readBuf.drop size }, .data (c.readBuf.take size))
  else match c.state with
    | .readyToClose | .terminating | .terminated => (c, .eof)
    | _ => (c, .wait)

inductive WriteResult where
  | closedPipe
  | accepted (c : Conn)
  | wait

/-- One turn of the inner loop of `Write`. -/
def write (payload : Str) : WriteResult :=
  if c.state ≠ .active then .closedPipe
  else if UInt32.ofNat c.sendWindow.length ≤ c.cfg.sendingBufferSize then
    .accepted { c with
      sendNext := c.sendNext + 1
      sendWindow := c.sendWindow ++ [{ number := c.sendNext, payload }] }
  else .wait

/-- `Close`; `none` is the error `net.ErrClosed`. -/
def close : Option Conn :=
  match c.state with
  | .readyToClose | .terminating | .terminated => none
  | .active => some (c.setStateLocked now .readyToClose)
  | .peerClosed => some (c.setStateLocked now .terminating)
  | .peerTerminating => some (c.setStateLocked now .terminated)

def terminate : Conn := c.setStateLocked now .terminated

/-! ### Handling a segment -/

def handleOptionLocked (opt : SegmentOption) : Conn :=
  if opt &&& segmentOptionClose = segmentOptionClose then
    match c.state with
    | .readyToClose => c.setStateLocked now .terminating
    | .active => c.setStateLocked now .peerClosed
    | _ => c
  else c

/-- The loop of `deliverLocked`; each turn takes a segment out of the cache. -/
def deliver : Nat → Conn → Conn
  | 0, c => c
  | rounds + 1, c =>
    match c.recvCache.lookup (serial c.recvNext) with
    | none => c
    | some seg => deliver rounds
        { c with
          recvCache := c.recvCache.erase (serial c.recvNext)
          recvNext := c.recvNext + 1
          readBuf := c.readBuf ++ seg.payload }

def deliverLocked : Conn := c.deliver c.recvCache.entries.length

def processSendingNextLocked (next : Nat) : Conn :=
  let acks := c.ackList.filter fun ack => serial ack.number ≥ serial next
  { c with
    ackList := acks
    ackDirty := c.ackDirty || acks.length != c.ackList.length }

def findFirstUnackedLocked : Conn :=
  let firstUnacked := match c.sendWindow with
    | [] => c.sendNext
    | seg :: _ => seg.number
  { c with
    firstUnacked
    firstUnackedWasUpdated := c.firstUnackedWasUpdated || serial c.firstUnacked != serial firstUnacked }

def processReceivingNextLocked (next : Nat) : Conn :=
  findFirstUnackedLocked
    { c with sendWindow := c.sendWindow.filter fun seg => ¬ serial seg.number < serial next }

def processAckLocked (number : Nat) : Conn × Bool :=
  if serial number - serial c.firstUnacked > 0x7fffffff ∨ serial number - serial c.sendNext < 0x7fffffff
  then (c, false)
  else if c.sendWindow.any (fun seg => serial seg.number = serial number) then
    (findFirstUnackedLocked
      { c with
        totalInFlightSize :=
          if c.totalInFlightSize > 0 then c.totalInFlightSize - 1 else c.totalInFlightSize
        sendWindow := c.sendWindow.eraseP fun seg => serial seg.number = serial number }, true)
  else (c, false)

/-- The loop of `handleFastAckLocked`. -/
def hasten (number reduction : UInt32) : List DataSegment → List DataSegment
  | [] => []
  | seg :: rest =>
    if number = serial seg.number ∨ number - serial seg.number > 0x7fffffff then seg :: rest
    else if seg.transmit > 0 ∧ seg.timeout > reduction then
      { seg with timeout := seg.timeout - reduction } :: hasten number reduction rest
    else seg :: hasten number reduction rest

def handleFastAckLocked (number : UInt32) : Conn :=
  if c.sendWindow = [] then c
  else if c.rto / 3 = 0 then c
  else { c with sendWindow := hasten number (c.rto / 3) c.sendWindow }

def updateRTTLocked (rtt current : UInt32) : Conn :=
  if rtt > 0x7fffffff then c
  else
    let (srtt, rttVariation) :=
      if c.srtt = 0 then (rtt, rtt / 2)
      else
        let delta := if c.srtt > rtt then c.srtt - rtt else rtt - c.srtt
        (max ((7 * c.srtt + rtt) / 8) c.minRtt, (3 * c.rttVariation + delta) / 4)
    let rto := if c.minRtt < 4 * rttVariation then srtt + 4 * rttVariation else srtt + rttVariation
    { c with srtt, rttVariation, rto := min rto 10000 * 5 / 4, rtoUpdated := current }

def updatePeerRTOLocked (rto current : UInt32) : Conn :=
  if rto = 0 ∨ current - c.rtoUpdated < 3000 then c
  else { c with rtoUpdated := current, rto }

/-- The loop over the acknowledged numbers, with `maxack` and whether it was removed. -/
def processAcks : List Nat → Conn → UInt32 → Bool → Conn × UInt32 × Bool
  | [], c, maxack, maxackRemoved => (c, maxack, maxackRemoved)
  | number :: rest, c, maxack, maxackRemoved =>
    let (c', removed) := c.processAckLocked number
    if maxack < serial number then processAcks rest c' (serial number) removed
    else processAcks rest c' maxack maxackRemoved

def inputData (s : DataSegment) : Conn :=
  let c := (c.handleOptionLocked now s.option).processSendingNextLocked s.sendingNext
  let c :=
    if serial s.number - serial c.recvNext < c.cfg.receivingInFlightSize then
      { c with
        ackList := c.ackList ++ [{ number := s.number, timestamp := s.timestamp, nextFlush := 0 }]
        ackDirty := true
        recvCache := match c.recvCache.lookup (serial s.number) with
          | none => c.recvCache.insert (serial s.number) s
          | some _ => c.recvCache }
    else c
  c.deliverLocked

def inputAck (s : AckSegment) : Conn :=
  let c := c.handleOptionLocked now s.option
  let c := { c with remoteRecvWin := max c.remoteRecvWin s.receivingWindow }
  let c := c.processReceivingNextLocked s.receivingNext
  let (c, maxack, maxackRemoved) := processAcks s.numberList c 0 false
  if maxackRemoved then
    let c := c.handleFastAckLocked maxack
    if now - s.timestamp < 10000 then c.updateRTTLocked (now - s.timestamp) now else c
  else c

def inputCmdOnly (s : CmdOnlySegment) : Conn :=
  let c := c.handleOptionLocked now s.option
  let c :=
    if s.cmd = commandTerminate then
      match c.state with
      | .active | .peerClosed => c.setStateLocked now .peerTerminating
      | .readyToClose => c.setStateLocked now .terminating
      | .terminating => c.setStateLocked now .terminated
      | _ => c
    else c
  let c := c.processReceivingNextLocked s.receivingNext
  let c := c.processSendingNextLocked s.sendingNext
  c.updatePeerRTOLocked s.peerRTO now

def inputSegment : Segment → Conn
  | .data s => c.inputData now s
  | .ack s => c.inputAck now s
  | .cmdOnly s => c.inputCmdOnly now s

/-- The loop of `Input`, which ends at a segment of another conversation. -/
def inputSegments : List Segment → Conn → Conn
  | [], c => c
  | seg :: rest, c =>
    if seg.conversation ≠ c.conv then c
    else inputSegments rest (c.inputSegment now seg)

def input (segments : List Segment) : Conn :=
  if segments = [] then c
  else if c.state = .terminated then c
  else inputSegments now segments { c with lastIncoming := now }

/-! ### Sending -/

def closeOption : SegmentOption := if c.state = .readyToClose then segmentOptionClose else 0

def newAckSegmentLocked : AckSegment where
  conv := c.conv
  option := c.closeOption
  receivingWindow := serial c.recvNext + c.cfg.receivingInFlightSize
  receivingNext := c.recvNext
  timestamp := 0
  numberList := []

def pingSegmentLocked (cmd : Command) (current : UInt32) : CmdOnlySegment × Conn :=
  ({ conv := c.conv
     cmd
     option := c.closeOption
     sendingNext := c.firstUnacked
     receivingNext := c.recvNext
     peerRTO := c.rto }, { c with lastPing := current })

structure AckFlush where
  segments : List AckSegment
  candidates : List Nat
  ack : AckSegment
  ackDirty : Bool
  items : List AckItem

/-- A turn of the loop of `flushAcksLocked`. -/
def flushAck (current : UInt32) (f : AckFlush) (item : AckItem) : AckFlush :=
  if item.nextFlush > current then
    { f with
      candidates := if f.candidates.length < 128 then f.candidates ++ [item.number] else f.candidates
      items := f.items ++ [item] }
  else
    let ack :=
      { f.ack with
        numberList := f.ack.numberList ++ [item.number]
        timestamp := if item.timestamp - f.ack.timestamp < 0x7fffffff then item.timestamp
          else f.ack.timestamp }
    let items := f.items ++ [{ item with nextFlush := current + max (c.rto / 2) 20 }]
    if ack.numberList.length = 128 then
      { f with segments := f.segments ++ [ack], ack := c.newAckSegmentLocked, ackDirty := false, items }
    else { f with ack, items }

def flushAcksLocked (current : UInt32) : Conn × List Segment :=
  if c.ackList = [] then (c, [])
  else
    let f := c.ackList.foldl (c.flushAck current) ⟨[], [], c.newAckSegmentLocked, c.ackDirty, []⟩
    if f.ackDirty ∨ f.ack.numberList ≠ [] then
      let ack := { f.ack with
        numberList := f.ack.numberList ++ f.candidates.take (128 - f.ack.numberList.length) }
      ({ c with ackList := f.items, ackDirty := false }, (f.segments ++ [ack]).map .ack)
    else ({ c with ackList := f.items, ackDirty := f.ackDirty }, f.segments.map .ack)

def onPacketLossLocked (lossRate : UInt32) : Conn :=
  if c.rto = 0 then c
  else
    let controlWindow :=
      if lossRate ≥ 15 then 3 * c.controlWindow / 4
      else if lossRate ≤ 5 then c.controlWindow + c.controlWindow / 4
      else c.controlWindow
    { c with controlWindow := min (max controlWindow 16) (2 * c.cfg.sendingInFlightSize) }

/-- The local variables of `flushSendLocked`. -/
structure SendFlush where
  window : List DataSegment
  segments : List DataSegment
  lost : UInt32
  inFlight : UInt32
  totalInFlightSize : UInt32

/-- The loop of `flushSendLocked` over the rest of the window. -/
def flushWindow (current cwnd : UInt32) : List DataSegment → SendFlush → SendFlush
  | [], f => f
  | seg :: rest, f =>
    if current - seg.timeout ≥ 0x7fffffff then
      flushWindow current cwnd rest { f with window := f.window ++ [seg] }
    else
      let seg' := { seg with
        conv := c.conv
        timestamp := current
        sendingNext := c.firstUnacked
        option := c.closeOption
        transmit := seg.transmit + 1
        timeout := current + max c.rto c.cfg.tti }
      let f' : SendFlush :=
        { window := f.window ++ [seg']
          segments := f.segments ++ [seg']
          lost := if seg.transmit = 0 then f.lost else f.lost + 1
          inFlight := f.inFlight + 1
          totalInFlightSize := if seg.transmit =
            0 then f.totalInFlightSize + 1 else f.totalInFlightSize }
      if f'.inFlight ≥ cwnd then { f' with window := f'.window ++ rest }
      else flushWindow current cwnd rest f'

def sendingWindow : UInt32 :=
  let cwnd := min c.cfg.sendingInFlightSize (c.remoteRecvWin - serial c.firstUnacked)
  20 * if c.cfg.Congestion then min cwnd c.controlWindow else cwnd

def flushSendLocked (current : UInt32) : Conn × List Segment :=
  if c.sendWindow = [] then
    if c.firstUnackedWasUpdated then
      let (ping, c) := { c with firstUnackedWasUpdated := false }.pingSegmentLocked commandPing current
      (c, [.cmdOnly ping])
    else (c, [])
  else
    let f := c.flushWindow current c.sendingWindow c.sendWindow ⟨[], [], 0, 0, c.totalInFlightSize⟩
    let c := { c with
      sendWindow := f.window
      totalInFlightSize := f.totalInFlightSize }
    let c :=
      if c.cfg.Congestion ∧ f.inFlight > 0 ∧ c.totalInFlightSize ≠ 0 then
        c.onPacketLossLocked (f.lost * 100 / c.totalInFlightSize)
      else c
    ({ c with firstUnackedWasUpdated := false }, f.segments.map .data)

def setStateWhen (p : Bool) (state : ConnState) : Conn :=
  if p then c.setStateLocked now state else c

/-- The idle timeout and the empty window at the head of `flush`. -/
def flushState : Conn :=
  let c := c.setStateWhen now (c.state = .active ∧ now - c.lastIncoming ≥ 30000) .readyToClose
  c.setStateWhen now (c.state = .readyToClose ∧ c.sendWindow = []) .terminating

def flushTerminating : Conn × List Segment :=
  let (ping, c) := c.pingSegmentLocked commandTerminate now
  (c.setStateWhen now (now - c.stateBegin > 8000) .terminated, [.cmdOnly ping])

def flushOpen : Conn × List Segment :=
  let c := c.setStateWhen now (c.state = .peerTerminating ∧ now - c.stateBegin > 4000) .terminating
  let c := c.setStateWhen now (c.state = .readyToClose ∧ now - c.stateBegin > 15000) .terminating
  let (c, acks) := c.flushAcksLocked now
  let (c, sends) := c.flushSendLocked now
  if now - c.lastPing ≥ 3000 then
    let (ping, c) := c.pingSegmentLocked commandPing now
    (c, acks ++ sends ++ [.cmdOnly ping])
  else (c, acks ++ sends)

def flush : Conn × List Segment :=
  if c.state = .terminated then (c, [])
  else
    let c := c.flushState now
    if c.state = .terminating then c.flushTerminating now else c.flushOpen now

end Conn

end Mihomo.Mkcp
