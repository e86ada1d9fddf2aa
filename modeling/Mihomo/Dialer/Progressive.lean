import Mihomo.Lib.Handoff
import Mihomo.Lib.Run
import Mihomo.Net.Addr

/-!
# The progressive direct race

`runProgressiveDirectRace` dials the addresses of a host while its name is still being looked up. One
feed per family sends the batches of the resolver over a buffered channel, each dial is a goroutine
that offers its result on an unbuffered one, and the result of the race goes to the caller over
`resultCh`. Winners of earlier races that the answer confirms are dialed first; the other candidates
are queued until the winners fail or their budget is over.

`Vars` holds the local variables of the function with its channels and goroutines, `Point` is where it
stands. Timers may fire at any time while they are set.
-/

namespace Mihomo.Dialer.Progressive
open Net Lib Lib.Handoff

/-- `tcp` stands for every network but the two others. -/
inductive Network where
  | tcp | tcp4 | tcp6
  deriving DecidableEq

structure Setup where
  network : Network
  /-- `DisableIPv6` when the feeds are started. -/
  disableIPv6 : Bool
  /-- The winners of the cache, none of them on a miss. -/
  winners : List Addr
  /-- `DisableIPv6` when a winner is looked at. -/
  winnerDisabled : Addr → Bool
  prefer : Nat

namespace Setup

def startedFamily (c : Setup) : Bool → Bool
  | false => c.network != .tcp6
  | true => c.network != .tcp4 && !c.disableIPv6

def families (c : Setup) : Nat := (c.startedFamily false).toNat + (c.startedFamily true).toNat

def usableWinners (c : Setup) : List Addr := c.winners.filter fun ip =>
  !(ip.is4 && c.network == .tcp6 || ip.is6 && (c.network == .tcp4 || c.winnerDisabled ip))

def cachedIPv6 (c : Setup) : Bool :=
  match c.usableWinners with
  | [] => false
  | ip :: _ => ip.is6

def cachedWinners (c : Setup) : List Addr := c.usableWinners.filter fun ip => ip.is6 == c.cachedIPv6

def preferenceEnabled (c : Setup) : Bool := c.prefer == 4 || c.prefer == 6

def preferredIPv6 (c : Setup) : Bool := c.prefer == 6

end Setup

structure Attempt where
  ip : Addr
  ipv6 : Bool
  fast : Bool
  deriving DecidableEq

/-- `progressiveCandidateEvent`, without the error of a failed batch. -/
inductive Candidates where
  | batch (ipv6 : Bool) (ips : List Addr)
  | failed (ipv6 : Bool)
  | done (ipv6 : Bool)
  deriving DecidableEq

structure Vars where
  cancelled : Bool
  feeding : Bool → Bool
  events : List Candidates
  dials : Tasks Attempt
  seen : List Addr
  pending : Nat
  pendingFamily : Bool → Nat
  doneFamilies : Nat
  doneFamily : Bool → Bool
  delivered : Bool
  heldFallback : Option Nat
  /-- `preferenceTimeout` is set and has not fired. -/
  preferenceTimer : Bool
  queued : List (Addr × Bool)
  cachePending : Bool
  fastInFlight : List Addr
  fastPriority : Bool
  fastSucceeded : Bool
  /-- `fastTimeout` is set and has not fired. -/
  fastTimer : Bool
  /-- All candidates that the loop has read. The function itself keeps no such list. -/
  answered : List (Addr × Bool)
  /-- The results that the caller got: a connection, or none for an error. -/
  sent : List (Option Nat)

inductive Point where
  | head
  | select
  /-- Before the result of a dial is looked at. -/
  | received (i : Nat) (attempt : Attempt) (ok : Bool)
  | fastFired
  /-- In `sendResult`, after which the function returns or continues its loop. -/
  | sending (conn : Option Nat) (last : Bool)
  | returned
  deriving DecidableEq

structure State where
  vars : Vars
  point : Point

def init (c : Setup) : State where
  vars :=
    { cancelled := false
      feeding := c.startedFamily
      events := []
      dials := .empty
      seen := []
      pending := 0
      pendingFamily := fun _ => 0
      doneFamilies := 0
      doneFamily := fun _ => false
      delivered := false
      heldFallback := none
      preferenceTimer := false
      queued := []
      cachePending := !c.usableWinners.isEmpty
      fastInFlight := []
      fastPriority := false
      fastSucceeded := false
      fastTimer := false
      answered := []
      sent := [] }
  point := if c.families = 0 then .sending none true else .head

namespace Vars

def closeConn (v : Vars) (i : Nat) : Vars := { v with dials := v.dials.close i }

def closeHeld (v : Vars) : Vars :=
  match v.heldFallback with
  | none => v
  | some i => { v.closeConn i with heldFallback := none }

def deliver (v : Vars) (i : Nat) : State :=
  if v.delivered then ⟨v.closeConn i, .head⟩
  else ⟨{ v with delivered := true }, .sending (some i) false⟩

def launch (v : Vars) (attempt : Attempt) : Vars :=
  { v with
    seen := attempt.ip :: v.seen
    pending := v.pending + 1
    pendingFamily := Function.update v.pendingFamily attempt.ipv6 (v.pendingFamily attempt.ipv6 + 1)
    dials := v.dials.launch attempt }

def start (v : Vars) (candidate : Addr × Bool) : Vars :=
  let ip := candidate.1.unmap
  if !ip.isValid then v
  else if ip ∈ v.seen then v
  else v.launch ⟨ip, candidate.2, false⟩

def startAll (v : Vars) (candidates : List (Addr × Bool)) : Vars := candidates.foldl start v

def startQueued (v : Vars) : Vars := { v.startAll v.queued with queued := [] }

def startFastGroup (v : Vars) (winners : List Addr) (ipv6 : Bool) : Vars :=
  { winners.foldl (fun v ip => v.launch ⟨ip, ipv6, true⟩) v with
    fastPriority := true
    fastInFlight := winners
    fastTimer := true }

def abandonFastPath (v : Vars) : Vars :=
  startQueued
    { v with
      cachePending := false
      fastPriority := false
      fastInFlight := []
      fastTimer := false }

def preferredDone (v : Vars) (c : Setup) : Bool :=
  !c.preferenceEnabled || !c.startedFamily c.preferredIPv6 ||
    v.doneFamily c.preferredIPv6 && v.pendingFamily c.preferredIPv6 == 0

def deliverHeld (v : Vars) (ready : Bool) : State :=
  match v.heldFallback with
  | none => ⟨v, .head⟩
  | some i =>
    if ready && !v.delivered then { v with heldFallback := none }.deliver i else ⟨v, .head⟩

def giveUp (v : Vars) : State :=
  if v.delivered then ⟨v.closeHeld, .returned⟩ else ⟨v.closeHeld, .sending none true⟩

/-- The head of the loop, up to the `select`. -/
def loop (v : Vars) (c : Setup) : State :=
  if v.doneFamilies = c.families ∧ v.pending = 0 then
    if v.delivered then ⟨v, .returned⟩
    else
      match v.heldFallback with
      | some i => ⟨{ v with heldFallback := none, delivered := true }, .sending (some i) true⟩
      | none => ⟨v, .sending none true⟩
  else ⟨v, .select⟩

/-- `containsTCPConcurrentCandidate`. -/
def containsCandidate (candidates : List Addr) (winner : Addr) : Bool :=
  candidates.any fun candidate => candidate.unmap == winner.unmap

def candidates (v : Vars) (c : Setup) (ipv6 : Bool) (ips : List Addr) : Vars :=
  let batch := ips.map fun ip => (ip, ipv6)
  if v.fastSucceeded then v
  else if v.cachePending || v.fastPriority then
    if v.cachePending && ipv6 != c.cachedIPv6 then v.startAll batch
    else
      let v := { v with queued := v.queued ++ batch }
      if v.cachePending && ipv6 == c.cachedIPv6 then
        let v := { v with cachePending := false }
        let fastWinners := c.cachedWinners.filter (containsCandidate ips)
        if fastWinners.isEmpty then v.abandonFastPath else v.startFastGroup fastWinners ipv6
      else v
  else v.startAll batch

def familyDone (v : Vars) (c : Setup) (ipv6 : Bool) : Vars :=
  let v := if v.cachePending && ipv6 == c.cachedIPv6 then v.abandonFastPath else v
  { v with
    doneFamilies := v.doneFamilies + 1
    doneFamily := Function.update v.doneFamily ipv6 true }

def event (v : Vars) (c : Setup) : Candidates → State
  | .done ipv6 =>
    let v := v.familyDone c ipv6
    v.deliverHeld (v.preferredDone c)
  | .failed _ => ⟨v, .head⟩
  | .batch ipv6 ips =>
    let v := { v with answered := v.answered ++ ips.map fun ip => (ip, ipv6) }
    ⟨v.candidates c ipv6 ips, .head⟩

def countOut (v : Vars) (ipv6 : Bool) : Vars :=
  { v with
    pending := v.pending - 1
    pendingFamily := Function.update v.pendingFamily ipv6 (v.pendingFamily ipv6 - 1) }

def fastResult (v : Vars) (i : Nat) (ip : Addr) (ok : Bool) : State :=
  let v := { v with fastInFlight := v.fastInFlight.filter fun a => a != ip }
  if !ok then
    if v.fastPriority && v.fastInFlight.isEmpty then ⟨v.abandonFastPath, .head⟩ else ⟨v, .head⟩
  else
    { v with fastSucceeded := true, queued := [], fastPriority := false }.closeHeld.deliver i

def hold (v : Vars) (i : Nat) : Vars :=
  match v.heldFallback with
  | none => { v with heldFallback := some i, preferenceTimer := true }
  | some _ => v.closeConn i

def connected (v : Vars) (c : Setup) (i : Nat) (ipv6 : Bool) : State :=
  if v.delivered then ⟨v.closeConn i, .head⟩
  else if !c.preferenceEnabled || ipv6 == c.preferredIPv6 then v.closeHeld.deliver i
  else
    let v := v.hold i
    v.deliverHeld (v.preferredDone c)

def receive (v : Vars) (c : Setup) (i : Nat) (attempt : Attempt) (ok : Bool) : State :=
  if v.cancelled then (if ok then v.closeConn i else v).giveUp
  else
    let v := v.countOut attempt.ipv6
    if attempt.fast then v.fastResult i attempt.ip ok
    else if !ok then v.deliverHeld (v.preferredDone c)
    else v.connected c i attempt.ipv6

def fastTimeout (v : Vars) : Vars :=
  if v.cancelled then v
  else if !v.fastPriority then { v with fastInFlight := [], fastTimer := false }
  else v.abandonFastPath

end Vars

def State.advance (c : Setup) : State → Option State
  | ⟨v, .head⟩ => some (v.loop c)
  | ⟨v, .received i attempt ok⟩ => some (v.receive c i attempt ok)
  | ⟨v, .fastFired⟩ => some ⟨v.fastTimeout, .head⟩
  | ⟨_, .select⟩ | ⟨_, .sending ..⟩ | ⟨_, .returned⟩ => none

inductive Case where
  | done
  | event
  | result (i : Nat)
  | preference
  | fast

def Vars.select (v : Vars) (c : Setup) : Case → Option State
  | .done => if v.cancelled then some v.giveUp else none
  | .event =>
    match v.events with
    | [] => none
    | e :: events => some ({ v with events := events }.event c e)
  | .result i => (v.dials.take i).map fun (dials, attempt, ok) =>
    ⟨{ v with dials := dials }, .received i attempt ok⟩
  | .preference =>
    if v.preferenceTimer then some ({ v with preferenceTimer := false }.deliverHeld true) else none
  | .fast => if v.fastTimer then some ⟨{ v with fastTimer := false }, .fastFired⟩ else none

def Point.afterSend (last : Bool) : Point := if last then returned else head

def State.send (got : Bool) : State → Option State
  | ⟨v, .sending conn last⟩ =>
    if got then some ⟨{ v with sent := v.sent ++ [conn] }, .afterSend last⟩
    else if v.cancelled then some ⟨conn.elim v v.closeConn, .afterSend last⟩
    else none
  | _ => none

def State.done (s : State) : Bool := s.vars.cancelled || s.point == .returned

inductive Event where
  | cancel
  | answer (ipv6 : Bool) (ips : Option (List Addr))
  | exhausted (ipv6 : Bool)
  /-- A feed takes the case of a done context. -/
  | stopped (ipv6 : Bool)
  | dialed (i : Nat) (ok : Bool)
  /-- The goroutine of a dial takes the case of a done context. -/
  | abandon (i : Nat)
  | advance
  | select (case : Case)
  | send (got : Bool)

def State.setDials (s : State) (dials : Tasks Attempt) : State :=
  ⟨{ s.vars with dials := dials }, s.point⟩

def Vars.canFeed (v : Vars) (ipv6 : Bool) : Bool := v.feeding ipv6 && v.events.length < 8

def answerOf (ipv6 : Bool) : Option (List Addr) → Candidates
  | some ips => .batch ipv6 ips
  | none => .failed ipv6

def next (c : Setup) (s : State) : Event → Option State
  | .cancel => some ⟨{ s.vars with cancelled := true }, s.point⟩
  | .answer ipv6 ips =>
    if s.vars.canFeed ipv6 then
      some ⟨{ s.vars with events := s.vars.events ++ [answerOf ipv6 ips] }, s.point⟩
    else none
  | .exhausted ipv6 =>
    if s.vars.canFeed ipv6 then
      some ⟨{ s.vars with
        events := s.vars.events ++ [.done ipv6]
        feeding := Function.update s.vars.feeding ipv6 false }, s.point⟩
    else none
  | .stopped ipv6 =>
    if s.done then some ⟨{ s.vars with feeding := Function.update s.vars.feeding ipv6 false }, s.point⟩
    else none
  | .dialed i ok => (s.vars.dials.finish i ok).map s.setDials
  | .abandon i => if s.done then (s.vars.dials.drop i).map s.setDials else none
  | .advance => s.advance c
  | .select case => if s.point = .select then s.vars.select c case else none
  | .send got => s.send got

def step (c : Setup) (s : State) (e : Event) : Except Unit State :=
  match next c s e with
  | some t => .ok t
  | none => .error ()

end Mihomo.Dialer.Progressive
