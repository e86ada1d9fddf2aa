import Mathlib.Data.List.AList
import Mihomo.Net.Addr

/-!
# The race of direct UDP targets

A `directUDPRacePacketConn` sends the first datagrams for a logical address to several candidate
addresses, and settles on one of them, the winner of the target: the candidate that answers first, or
one that the time, the traffic or failed sends leave over. For QUIC the winner is the candidate whose
connection ID the application goes on with.

The definitions here are the parts that run with the mutex held, and `writeCandidateSet`, which sends
without it. The zero `AddrPort` is `none` where it can occur.
-/

namespace Mihomo.Outbound
open Go Net

structure AddrPort where
  addr : Addr
  port : UInt16
  valid : addr.isValid = true
  deriving DecidableEq

def AddrPort.family (a : AddrPort) : Family := if a.addr.is4 then .v4 else .v6

def directUDPRaceDatagrams : Nat := 4
def directUDPRaceBytes : Nat := 16 * 1024
def directUDPRaceWindow : Int := 300 * 10 ^ 6
def directUDPQUICRaceWindow : Int := 3 * directUDPRaceWindow
def directUDPQUICServerCIDLimit : Nat := 32

def quicLongHeaderConnectionIDs (payload : Str) : Option (Str × Str) :=
  if payload.length < 7 ∨ payload.getD 0 0 &&& 0xc0 ≠ 0xc0 ∨
      payload.getD 1 0 ||| payload.getD 2 0 ||| payload.getD 3 0 ||| payload.getD 4 0 = 0 then none
  else
    let destinationLength := (payload.getD 5 0).toNat
    if destinationLength > 20 ∨ 6 + destinationLength ≥ payload.length then none
    else
      let destinationEnd := 6 + destinationLength
      let sourceLength := (payload.getD destinationEnd 0).toNat
      let sourceStart := destinationEnd + 1
      let sourceEnd := sourceStart + sourceLength
      if sourceLength > 20 ∨ sourceEnd > payload.length then none
      else some ((payload.take destinationEnd).drop 6, (payload.take sourceEnd).drop sourceStart)

structure Target where
  host : Str
  adapter : Str
  candidates : List AddrPort := []
  live : AddrPort → Bool := fun _ => false
  winner : Option AddrPort := none
  started : Option Int := none
  datagrams : Nat := 0
  bytes : Nat := 0
  quic : Bool := false
  quicConfirmed : Bool := false
  responder : Option AddrPort := none
  /-- `quicCandidateByServerCID`; an ambiguous connection ID names no candidate. -/
  serverCIDs : AList fun _ : Str => Option AddrPort := ∅
  collectingCandidates : Bool := false
  replay : List Str := []
  replayBytes : Nat := 0

namespace Target
variable (t : Target)

def acceptsCandidates (now : Int) (host adapter : Str) : Bool :=
  let window := if t.quic then directUDPQUICRaceWindow else directUDPRaceWindow
  t.host = host && t.adapter = adapter && t.winner.isNone &&
    match t.started with
    | none => true
    | some started => now - started < window

def firstLiveDirectUDPCandidate : Option AddrPort := t.candidates.find? t.live

def countLiveDirectUDPCandidates : Nat := t.candidates.countP t.live

def settleDirectUDPCandidate : Option AddrPort :=
  match t.responder with
  | some responder => if t.live responder then some responder else t.firstLiveDirectUDPCandidate
  | none => t.firstLiveDirectUDPCandidate

/-- The loop of `register` over the new candidates, with those that were added. -/
def addCandidates (conns : Family → Bool) : List AddrPort → Target → Target × List AddrPort
  | [], t => (t, [])
  | candidate :: rest, t =>
    if conns candidate.family = false ∨ t.live candidate then addCandidates conns rest t
    else
      let (t, added) := addCandidates conns rest
        { t with
          candidates := t.candidates ++ [candidate]
          live := Function.update t.live candidate true }
      (t, candidate :: added)

/-- The opening datagrams that are sent to the added candidates, within the budget of the race. -/
def takeReplay (added : Nat) : List Str → Target → Target × List Str
  | [], t => (t, [])
  | payload :: rest, t =>
    if t.bytes + payload.length * added > directUDPRaceBytes then (t, [])
    else
      let (t, replay) := takeReplay added rest { t with bytes := t.bytes + payload.length * added }
      (t, payload :: replay)

/-- The part of `WriteTo` that looks at the connection ID of the datagram. -/
def noteHeader (payload : Str) : Target :=
  match quicLongHeaderConnectionIDs payload with
  | some (destination, _) =>
    match t.serverCIDs.lookup destination with
    | some (some candidate) => { t with quic := true, winner := some candidate }
    | _ => { t with quic := true }
  | none =>
    if t.quic ∧ t.winner.isSome ∧ !t.quicConfirmed ∧
        t.serverCIDs.entries.any (fun e => e.2 = t.winner ∧ 1 + e.1.length ≤ payload.length ∧
          (payload.drop 1).take e.1.length = e.1) then
      { t with quicConfirmed := true }
    else t

/-- The part of `WriteTo` that ends a race which has gone on for too long. -/
def settleForWrite (now : Int) (payload : Str) : Target :=
  match t.winner, t.started with
  | none, some started =>
    if t.quic then
      if directUDPQUICRaceWindow ≤ now - started then { t with winner := t.settleDirectUDPCandidate }
      else t
    else if directUDPRaceWindow ≤ now - started ∨ directUDPRaceDatagrams ≤ t.datagrams ∨
        directUDPRaceBytes < t.bytes + payload.length * t.candidates.length then
      { t with winner := t.firstLiveDirectUDPCandidate }
    else t
  | _, _ => t

theorem settleForWrite_frame (now : Int) (payload : Str) :
    (t.settleForWrite now payload).candidates = t.candidates ∧
      (t.settleForWrite now payload).live = t.live := by
  fun_cases t.settleForWrite now payload <;> exact ⟨rfl, rfl⟩

/-- The part of `WriteTo` after the winner is looked up: the target and where the datagram goes. -/
def route (now : Int) (payload : Str) : Target × List AddrPort :=
  match t.winner with
  | some winner => ({ t with replay := [], replayBytes := 0 }, [winner])
  | none =>
    let candidates := t.candidates.filter t.live
    let keep := t.collectingCandidates ∧ t.replay.length < directUDPRaceDatagrams ∧
      t.replayBytes + payload.length ≤ directUDPRaceBytes
    ({ t with
        started := some (t.started.getD now)
        datagrams := t.datagrams + 1
        bytes := t.bytes + payload.length * candidates.length
        replay := if keep then t.replay ++ [payload] else t.replay
        replayBytes := if keep then t.replayBytes + payload.length else t.replayBytes },
      candidates)

/-- `WriteTo` up to the first release of the mutex. -/
def beginWrite (now : Int) (payload : Str) : Target × List AddrPort :=
  ((t.noteHeader payload).settleForWrite now payload).route now payload

def dropLive (failed : List AddrPort) : Target :=
  { t with live := fun candidate => t.live candidate && candidate ∉ failed }

/-- The last part of `WriteTo`, for a race without a winner, if sends have failed. -/
def endWrite (failed : List AddrPort) : Target :=
  let t := t.dropLive failed
  if t.quic = false ∧ t.winner = none ∧ t.countLiveDirectUDPCandidates = 1 then
    { t with winner := t.firstLiveDirectUDPCandidate }
  else t

/-- The part of `WaitReadFrom` that remembers the connection ID of the server. -/
def noteServerCID (source : AddrPort) (data : Str) : Target :=
  match quicLongHeaderConnectionIDs data with
  | some (_, serverConnectionID) =>
    if t.quic ∧ serverConnectionID ≠ [] then
      match t.serverCIDs.lookup serverConnectionID with
      | some candidate =>
        if candidate ≠ some source then
          { t with serverCIDs := t.serverCIDs.insert serverConnectionID none }
        else t
      | none =>
        if t.serverCIDs.keys.length < directUDPQUICServerCIDLimit then
          { t with serverCIDs := t.serverCIDs.insert serverConnectionID (some source) }
        else t
    else t
  | none => t

def noteResponder (source : AddrPort) : Target :=
  if t.live source ∧ t.responder = none then { t with responder := some source } else t

/-- The part of `WaitReadFrom` that ends a race which has gone on for too long. -/
def settleForRead (now : Int) : Target :=
  match t.winner, t.started with
  | none, some started =>
    if t.quic then
      if directUDPQUICRaceWindow ≤ now - started then { t with winner := t.settleDirectUDPCandidate }
      else t
    else if directUDPRaceWindow ≤ now - started then
      { t with winner := t.firstLiveDirectUDPCandidate }
    else t
  | _, _ => t

/-- The part of `WaitReadFrom` that says whether the datagram is one of the target. -/
def claim (source : AddrPort) : Target × Bool :=
  match t.winner with
  | some winner => (t, winner = source)
  | none =>
    if t.quic then (t, true)
    else if t.live source then ({ t with winner := some source }, true)
    else (t, false)

/-- The loop body of `WaitReadFrom` for one target of the source. -/
def observe (now : Int) (source : AddrPort) (data : Str) : Target × Bool :=
  if t.started = none then (t, false)
  else (((t.noteServerCID source data).noteResponder source).settleForRead now).claim source

end Target

/-- `directUDPRacePacketConn`: which sockets exist, the targets, and the targets of each candidate. -/
structure Race where
  conns : Family → Bool := fun _ => false
  targets : AddrPort → Option Target := fun _ => none
  sources : AddrPort → List AddrPort := fun _ => []
  closed : Bool := false

namespace Race
variable (c : Race)

def setTarget (logical : AddrPort) (t : Target) : Race :=
  { c with targets := Function.update c.targets logical (some t) }

/-- The second part of `register` with the mutex held: none if the call ends there, otherwise the
added candidates and the datagrams to be sent to them. -/
def register (now : Int) (logical : AddrPort) (candidates : List AddrPort) (host adapter : Str) :
    Race × Option (List AddrPort × List Str) :=
  if c.closed ∨ (c.conns .v4 = false ∧ c.conns .v6 = false) then (c, none)
  else
    let t := (c.targets logical).getD { host, adapter }
    if (c.targets logical).isSome ∧ t.acceptsCandidates now host adapter = false then (c, none)
    else
      let (t, added) := t.addCandidates c.conns candidates
      if t.candidates = [] then (c, none)
      else
        let (t, replay) := t.takeReplay added.length t.replay
        ({ c.setTarget logical t with
            sources := fun source =>
              if source ∈ added then c.sources source ++ [logical] else c.sources source },
          some (added, replay))

/-- The loop of `WaitReadFrom` over the targets of a source: the logical address, if one is found. -/
def offer (now : Int) (source : AddrPort) (data : Str) : List AddrPort → Race → Race × Option AddrPort
  | [], c => (c, none)
  | logical :: rest, c =>
    match c.targets logical with
    | none => offer now source data rest c
    | some t =>
      let (t, found) := t.observe now source data
      if found then (c.setTarget logical t, some logical)
      else offer now source data rest (c.setTarget logical t)

/-- The part of `WaitReadFrom` with the mutex held. -/
def read (now : Int) (source : AddrPort) (data : Str) : Race × Option AddrPort :=
  offer now source data (c.sources source) c

end Race

structure Sent where
  accepted : List AddrPort := []
  errs : List AddrPort := []
  failed : List AddrPort := []

/-- The loop of `writeCandidateSet`; the outcomes of the sends come from outside. -/
def writeCandidateSet (conns : Family → Bool) : (Nat → Bool) → List AddrPort → Sent
  | _, [] => {}
  | outcome, candidate :: rest =>
    if conns candidate.family = false then
      let sent := writeCandidateSet conns outcome rest
      { sent with failed := candidate :: sent.failed }
    else
      let sent := writeCandidateSet conns (fun i => outcome (i + 1)) rest
      if outcome 0 then { sent with accepted := candidate :: sent.accepted }
      else { sent with errs := candidate :: sent.errs, failed := candidate :: sent.failed }

/-- The number of bytes and the error that `writeCandidateSet` returns; joining no errors gives nil. -/
def Sent.result (sent : Sent) (payload : Str) : Nat × Option (List AddrPort) :=
  if sent.accepted ≠ [] then (payload.length, none)
  else (0, if sent.errs = [] then none else some sent.errs)

end Mihomo.Outbound
