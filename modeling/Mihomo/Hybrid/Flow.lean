import Mihomo.Lib.Mutex

/-!
# The raw path of a hybrid flow (component/hybrid/client.go, lease.go)

A flow sends its packets on a stream or, while it has a lease of the server, as plain datagrams on the
raw path. `write`, `watch`, `acceptLease`, `confirmLeasePacket` and `disable` run under `writeMu`;
`readRaw` does not, and tests and sets the atomic fields one by one. A section is one access to a field
that both sides use, together with what only the holder of the mutex sees.

The flow is leased, as `open` makes it. Times are nanoseconds, and 0 is the zero time. `clock`, the
requests, the acknowledged numbers and the times of raw packets are kept for the statements only.
-/

namespace Mihomo.Hybrid
open Lib
def second : Nat := 1000000000
def leaseDuration : Nat := 30 * second
def leaseRenewal : Nat := 10 * second
def probeInterval : Nat := 250 * 1000000
def probeTimeout : Nat := 3 * second
def rawSilence : Nat := 15 * second
def rawRetryBase : Nat := 30 * second
def rawRetryMax : Nat := 10 * 60 * second
def rawRetryLimit : Nat := 8

inductive Kind where
  | bind | bound | activate | renew | renewed | confirmed
  deriving DecidableEq

structure Control where
  kind : Kind
  seq : Nat
  deriving DecidableEq

inductive Reason where
  | leaseExpired | rawSilence | probeTimeout
  deriving DecidableEq

structure Request where
  seq : Nat
  time : Nat
  deriving DecidableEq

structure Flow where
  disabled : Bool := false
  active : Bool := false
  confirmedRaw : Bool := false
  lastRaw : Nat := 0
  leaseUntil : Nat := 0
  /-- `writeMu`. -/
  locked : Bool := false
  probeEnd : Nat := 0
  nextProbe : Nat := 0
  retryAt : Nat := 0
  retries : Nat := 0
  leaseSeq : Nat := 0
  leaseSent : Nat := 0
  leaseNext : Nat := 0
  /-- Whether there is a packet for probes. -/
  leaseProbe : Bool := false
  lastActivity : Nat := 0
  clock : Nat := 0
  requests : List Request := []
  acks : List Nat := []
  rawSent : List Nat := []

/-- What the caller of `fallbackLocked` or `disableLocked` does after it. -/
inductive After where
  | done
  | route (now : Nat) (short : Bool)
  | stream (now : Nat)
  | silence (now : Nat)
  deriving DecidableEq

/-- What is run under `writeMu`. -/
inductive Locked where
  | confirm
  | accept (c : Control)
  | write (short : Bool)
  | disable (notify : Bool)
  | watch
  deriving DecidableEq

inductive Section where
  | rawRead
  | rawDisabled
  | rawLease
  | rawActive
  | rawSwap
  | rawConfirmed (now : Nat)
  | rawLast (now : Nat)
  | rawTouch (now : Nat)
  | streamTouch
  | lock (op : Locked)
  | unlock
  | confirm
  | confirmWrite
  | accept (c : Control)
  | acceptLast (c : Control)
  | acceptConfirmed (c : Control)
  | acceptActive (c : Control)
  | disable (notify : Bool) (k : After)
  | disableActive (notify : Bool) (k : After)
  | disableLease (notify : Bool) (k : After)
  /-- The empty frame that tells the server to stop. -/
  | notify (k : After)
  | fallback (now : Nat) (reason : Reason) (k : After)
  | fallbackLease (now : Nat) (reason : Reason) (k : After)
  | fallbackLast (now : Nat) (reason : Reason) (k : After)
  | fallbackRetry (now : Nat) (reason : Reason) (k : After)
  | writeNow (short : Bool)
  | writeExpired (now : Nat) (short : Bool)
  | writeRoute (now : Nat) (short : Bool)
  | writeLast (now : Nat)
  | writeProbe (now : Nat)
  | writeRaw (now : Nat)
  | writeRequest (now : Nat)
  | writeStream (now : Nat) (probe : Bool)
  | probeRaw
  | watchLease
  | watchRenew (now : Nat)
  | watchActive (now : Nat)
  | watchSilent (now : Nat)
  deriving DecidableEq

/-- What the sockets and the clock decide. A packet on the raw path counts if it is from the relay and
has a short header. A tick may be handled after its time. -/
inductive Choice where
  | ok
  | fail
  | clock (now : Nat)
  | tick (now handled : Nat)
  | packet (counts : Bool)
  | transient
  | closed
  deriving DecidableEq

def After.first : After → Section
  | .done => .unlock
  | .route now short => .writeRoute now short
  | .stream now => .writeStream now false
  | .silence now => .watchActive now

def Locked.first : Locked → Section
  | .confirm => .confirm
  | .accept c => .accept c
  | .write short => .writeNow short
  | .disable notify => .disable notify .done
  | .watch => .watchLease

namespace Flow

def idleFor (s : Flow) (now : Nat) : Nat := if s.lastActivity = 0 then 0 else now - s.lastActivity

def silent (s : Flow) (now : Nat) : Bool := s.lastRaw ≠ 0 && rawSilence ≤ now - s.lastRaw

def sendRequest (s : Flow) (now : Nat) : Flow :=
  { s with
    leaseSeq := s.leaseSeq + 1
    leaseSent := now
    requests := ⟨s.leaseSeq + 1, s.clock⟩ :: s.requests }

end Flow

def goOn (s : Flow) (next : Section) : Option (Effect Flow Section) :=
  some { shared := s, next := [next] }

def readClock (s : Flow) (choice : Choice) (k : Nat → Flow → Option (Effect Flow Section)) :
    Option (Effect Flow Section) :=
  match choice with
  | .clock now => if s.clock ≤ now then k now { s with clock := now } else none
  | _ => none

def tryWrite (choice : Choice) (ok fail : Option (Effect Flow Section)) : Option (Effect Flow Section) :=
  match choice with
  | .ok => ok
  | .fail => fail
  | _ => none

def readRaw (s : Flow) (choice : Choice) : Section → Option (Effect Flow Section)
  | .rawRead =>
    match choice with
    | .packet counts => goOn s (if counts then .rawDisabled else .rawRead)
    | .transient => goOn s .rawRead
    | .fail => goOn s (.lock (.disable true))
    | .closed => some { shared := s }
    | _ => none
  | .rawDisabled => goOn s (if s.disabled then .rawRead else .rawLease)
  | .rawLease =>
    readClock s choice fun now s => goOn s (if s.leaseUntil ≤ now then .rawRead else .rawActive)
  | .rawActive => goOn s (if s.active then .rawSwap else .lock .confirm)
  | .rawSwap => readClock s choice fun now s => goOn { s with active := true } (.rawConfirmed now)
  | .rawConfirmed now => goOn { s with confirmedRaw := true } (.rawLast now)
  | .rawLast now => goOn { s with lastRaw := now } (.rawTouch now)
  | .rawTouch now => goOn { s with lastActivity := now } .rawRead
  | _ => none

/-- `acceptLease`, after the mutex has been taken. -/
def acceptLease (s : Flow) (c : Control) (now : Nat) : Option (Effect Flow Section) :=
  if c.kind ≠ .bound ∧ c.kind ≠ .renewed ∧ c.kind ≠ .confirmed then goOn s .unlock
  else
    let s := { s with acks := c.seq :: s.acks }
    if s.disabled ∨ c.seq ≠ s.leaseSeq then goOn s .unlock
    else
      let deadline := s.leaseSent + leaseDuration
      if deadline ≤ now then goOn s .unlock
      else
        let s := { s with leaseUntil := deadline, leaseNext := s.leaseSent + leaseRenewal }
        goOn s (if c.kind = .confirmed then .acceptLast c else .unlock)

/-- The end of `fallbackLocked`. -/
def retryLater (s : Flow) (now : Nat) (reason : Reason) (k : After) : Option (Effect Flow Section) :=
  if reason = .rawSilence ∧ rawSilence ≤ s.idleFor now then goOn { s with retryAt := 0 } (.notify k)
  else
    let s := { s with retries := s.retries + 1 }
    if rawRetryLimit < s.retries then goOn s (.disable true k)
    else
      let wait := min (rawRetryBase <<< (s.retries - 1)) rawRetryMax
      goOn { s with retryAt := now + wait } (.notify k)

def tryProbe (s : Flow) (now : Nat) : Option (Effect Flow Section) :=
  if s.retryAt ≤ now ∧ s.leaseUntil = 0 then
    let s := { s with probeEnd := if s.probeEnd = 0 then now + probeTimeout else s.probeEnd }
    if s.probeEnd ≤ now then goOn s (.fallback now .probeTimeout (.stream now))
    else if s.nextProbe ≤ now then
      goOn { s with nextProbe := now + probeInterval } (.writeRequest now)
    else goOn s (.writeStream now false)
  else goOn s (.writeStream now false)

def effect (s : Flow) (sec : Section) (choice : Choice) : Option (Effect Flow Section) :=
  match sec with
  | .lock op => if s.locked then none else goOn { s with locked := true } op.first
  | .unlock => some { shared := { s with locked := false } }
  | .streamTouch => readClock s choice fun now s => some { shared := { s with lastActivity := now } }
  | .confirm =>
    readClock s choice fun now s =>
      if s.disabled ∨ s.active ∨ s.leaseUntil ≤ now then
        some { shared := s, next := [.unlock, .rawRead] }
      else goOn s .confirmWrite
  | .confirmWrite =>
    tryWrite choice (some { shared := s, next := [.unlock, .rawRead] }) (goOn s .unlock)
  | .accept c => readClock s choice fun now s => acceptLease s c now
  | .acceptLast c =>
    readClock s choice fun now s => goOn { s with probeEnd := 0, lastRaw := now } (.acceptConfirmed c)
  | .acceptConfirmed c => goOn { s with confirmedRaw := true } (.acceptActive c)
  | .acceptActive _ => goOn { s with active := true } .unlock
  | .disable notify k => goOn { s with disabled := true } (.disableActive notify k)
  | .disableActive notify k => goOn { s with active := false } (.disableLease notify k)
  | .disableLease notify k =>
    goOn { s with leaseUntil := 0, leaseProbe := false } (if notify then .notify k else k.first)
  | .notify k => tryWrite choice (goOn s k.first) (goOn s .unlock)
  | .fallback now reason k => goOn { s with active := false } (.fallbackLease now reason k)
  | .fallbackLease now reason k =>
    goOn { s with leaseUntil := 0, leaseProbe := false, leaseSeq := s.leaseSeq + 1 }
      (.fallbackLast now reason k)
  | .fallbackLast now reason k =>
    goOn { s with lastRaw := 0, probeEnd := 0, nextProbe := 0 } (.fallbackRetry now reason k)
  | .fallbackRetry now reason k => retryLater s now reason k
  | .writeNow short => readClock s choice fun now s => goOn s (.writeExpired now short)
  | .writeExpired now short =>
    if s.active ∧ s.leaseUntil ≤ now then goOn s (.fallback now .leaseExpired (.route now short))
    else goOn s (.writeRoute now short)
  | .writeRoute now short =>
    goOn s (if s.disabled = false ∧ short then if s.active then .writeLast now else .writeProbe now
      else .writeStream now false)
  | .writeLast now =>
    goOn s (if s.silent now then .fallback now .rawSilence (.stream now) else .writeRaw now)
  | .writeProbe now => tryProbe s now
  | .writeRaw now =>
    tryWrite choice (goOn { s with rawSent := now :: s.rawSent, lastActivity := now } .unlock)
      (goOn s (.disable true (.stream now)))
  | .writeRequest now =>
    if s.leaseProbe then goOn s (.writeStream now true)
    else
      let s := { s.sendRequest now with leaseProbe := true }
      tryWrite choice (goOn s (.writeStream now true)) (goOn s .unlock)
  | .writeStream now probe =>
    tryWrite choice (goOn { s with lastActivity := now } (if probe then .probeRaw else .unlock))
      (goOn s .unlock)
  | .probeRaw => tryWrite choice (goOn s .unlock) (goOn s (.disable true .done))
  | .watchLease =>
    match choice with
    | .tick now handled =>
      if s.clock ≤ handled ∧ now ≤ handled then
        let s := { s with clock := handled }
        if s.disabled = false ∧ s.leaseUntil ≠ 0 then
          if s.leaseUntil ≤ now then goOn s (.fallback now .leaseExpired (.silence now))
          else goOn s (.watchRenew now)
        else goOn s (.watchActive now)
      else none
    | _ => none
  | .watchRenew now =>
    if s.active ∧ s.leaseNext ≤ now then
      let s := { s.sendRequest now with leaseNext := now + leaseRenewal }
      tryWrite choice (goOn s (.watchActive now)) (goOn s .unlock)
    else goOn s (.watchActive now)
  | .watchActive now =>
    goOn s (if s.disabled then .unlock
      else if s.active then .watchSilent now
      else if s.probeEnd ≠ 0 ∧ s.probeEnd ≤ now then .fallback now .probeTimeout .done
      else .unlock)
  | .watchSilent now => goOn s (if s.silent now then .fallback now .rawSilence .done else .unlock)
  | sec => readRaw s choice sec

inductive Call where
  | write (short : Bool)
  | watch
  | control (c : Control)
  | disable (notify : Bool)
  | streamPacket
  deriving DecidableEq

def entry (_ : Flow) : Call → Option (List Section)
  | .write short => some [.lock (.write short)]
  | .watch => some [.lock .watch]
  | .control c => some [.lock (.accept c)]
  | .disable notify => some [.lock (.disable notify)]
  | .streamPacket => some [.streamTouch]

def program : Program Flow Section Choice Call := ⟨effect, entry⟩

def newFlow (raw : Bool) : Pool Flow Section :=
  if raw then ⟨{}, [[.rawRead]]⟩ else ⟨{ disabled := true }, [[.lock (.disable true)]]⟩

end Mihomo.Hybrid
