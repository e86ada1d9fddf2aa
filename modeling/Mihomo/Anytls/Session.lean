import Mathlib.Data.List.AList
import Mihomo.Go.Text
import Mihomo.Lib.Goroutines

/-!
# Sessions (transport/anytls/session/session.go, stream.go)

The critical sections of a session are those of `streamLock`, of `dieOnce` of the session and of the
streams, the tests of the channel `die`, and the reads and writes of the connection. The watcher of
`synDone` closes the session after a while; `Close` may be called at any time here.

Streams are objects of a heap and are named by their index. The hooks, and what becomes of the result
of `OpenStream`, are sections without an effect on the session.
-/

namespace Mihomo.Anytls
open Go Lib
def cmdWaste : UInt8 := 0
def cmdSYN : UInt8 := 1
def cmdPSH : UInt8 := 2
def cmdFIN : UInt8 := 3
def cmdSettings : UInt8 := 4
def cmdAlert : UInt8 := 5
def cmdUpdatePaddingScheme : UInt8 := 6
def cmdSYNACK : UInt8 := 7
def cmdHeartRequest : UInt8 := 8
def cmdHeartResponse : UInt8 := 9
def cmdServerSettings : UInt8 := 10

/-- `died` says that `dieOnce` has been run: `dieErr` is set and the pipe is closed, so that `Read`
does not wait any more. `hooked` says that `dieHook` is set. -/
structure Stream where
  id : UInt32
  died : Bool := false
  hooked : Bool := false
  deriving DecidableEq

/-- `sweeping` are the streams that `Close`, which then holds `streamLock`, has still to close.
`idleSince` is only used by a client. -/
structure Session where
  isClient : Bool
  heap : List Stream := []
  streams : AList fun _ : UInt32 => Nat := ∅
  streamId : UInt32 := 0
  die : Bool := false
  sweeping : Option (List Nat) := none
  connClosed : Bool := false
  receivedSettings : Bool := false
  idleSince : Int := 0

namespace Session

def register (s : Session) (sid : UInt32) : Session :=
  { s with
    heap := s.heap ++ [{ id := sid }]
    streams := s.streams.insert sid s.heap.length }

def delete (s : Session) (sid : UInt32) : Session := { s with streams := s.streams.erase sid }

/-- The function of `dieOnce` of a stream. -/
def kill (s : Session) (r : Nat) : Session :=
  { s with heap := s.heap.modify r fun st => { st with died := true } }

def Lives (s : Session) (r : Nat) : Prop := ∃ st, s.heap[r]? = some st ∧ st.died = false

instance (s : Session) (r : Nat) : Decidable (s.Lives r) :=
  match h : s.heap[r]? with
  | none => isFalse fun ⟨st, hst, _⟩ => by rw [h] at hst; cases hst
  | some st =>
    decidable_of_iff (st.died = false)
      ⟨fun hdied => ⟨st, h, hdied⟩, fun ⟨st', hst', hdied⟩ => by
        rw [h] at hst'
        cases hst'
        exact hdied⟩

end Session

inductive Section where
  /-- `IsClosed` of `OpenStream`. -/
  | openCheck
  | openStreamId
  | writeSYN (sid : UInt32)
  | openRegister (sid : UInt32)
  | opened (r : Nat)
  | openFailed
  | dieOnce
  | dieHook
  | sweep
  | connClose
  /-- `IsClosed` at the head of the loop of `recvLoop`. -/
  | recvCheck
  | recvFrame
  | recvPSH (sid : UInt32)
  | pipeWrite (r : Nat)
  | recvSYN (sid : UInt32)
  | recvSYNACK (sid : UInt32)
  | recvFIN (sid : UInt32)
  /-- `closeLocally` of the stream of a FIN. -/
  | finClose (r : Nat)
  | recvReply (frames : Nat)
  /-- `writeControlFrame` with a result that is not looked at. -/
  | writeControl
  | streamDie (r : Nat)
  | streamClosed (sid : UInt32)
  | streamDelete (sid : UInt32)
  | streamHook (r : Nat)
  deriving DecidableEq

/-- What the connection decides. `replies` is the number of control frames that the settings of a
client call for: the padding scheme if the sums differ, and the settings of the server for a client
of version 2. -/
inductive Choice where
  | ok
  | fail
  | frame (cmd : UInt8) (sid : UInt32) (data : Str) (replies : Nat)
  deriving DecidableEq

def recvReturn : List Section := [.dieOnce]

def dispatch (s : Session) (cmd : UInt8) (sid : UInt32) (data : Str) (replies : Nat) :
    Session × List Section :=
  if cmd = cmdPSH then (s, if data = [] then [.recvCheck] else [.recvPSH sid])
  else if cmd = cmdSYN then
    if s.isClient = false ∧ s.receivedSettings = false then (s, .writeControl :: recvReturn)
    else (s, [.recvSYN sid])
  else if cmd = cmdSYNACK then (s, if data = [] then [.recvCheck] else [.recvSYNACK sid])
  else if cmd = cmdFIN then (s, [.recvFIN sid])
  else if cmd = cmdSettings then
    if data = [] ∨ s.isClient then (s, [.recvCheck])
    else ({ s with receivedSettings := true }, [.recvReply (min replies 2)])
  else if cmd = cmdAlert then (s, if data = [] then [.recvCheck] else recvReturn)
  else if cmd = cmdHeartRequest then (s, [.recvReply 1])
  else (s, [.recvCheck])

def effect (s : Session) : Section → Choice → Option (Effect Session Section)
  | .openCheck, _ =>
    some { shared := s, next := if s.die then [.openFailed] else [.openStreamId] }
  | .openStreamId, _ =>
    some { shared := { s with streamId := s.streamId + 1 }, next := [.writeSYN (s.streamId + 1)] }
  | .writeSYN sid, .ok => some { shared := s, next := [.openRegister sid] }
  | .writeSYN _, .fail => some { shared := s, next := [.dieOnce, .openFailed] }
  | .writeSYN _, _ => none
  | .openRegister sid, _ =>
    if s.sweeping.isSome then none
    else if s.die then some { shared := s, next := [.openFailed] }
    else some { shared := s.register sid, next := [.opened s.heap.length] }
  | .opened _, _ => some { shared := s }
  | .openFailed, _ => some { shared := s }
  | .dieOnce, _ =>
    if s.die then some { shared := s }
    else some { shared := { s with die := true }, next := [.dieHook, .sweep, .connClose] }
  | .dieHook, _ => some { shared := s }
  | .sweep, _ =>
    match s.sweeping with
    | none =>
      some { shared := { s with sweeping := some (s.streams.entries.map Sigma.snd) }, next := [.sweep] }
    | some (r :: left) =>
      some {
        shared := { s.kill r with sweeping := some left }
        next := if s.Lives r then [.streamHook r, .sweep] else [.sweep] }
    | some [] => some { shared := { s with streams := ∅, sweeping := none } }
  | .connClose, _ => some { shared := { s with connClosed := true } }
  | .recvCheck, _ => some { shared := s, next := if s.die then recvReturn else [.recvFrame] }
  | .recvFrame, .frame cmd sid data replies =>
    if s.connClosed then none
    else
      some {
        shared := (dispatch s cmd sid data replies).1
        next := (dispatch s cmd sid data replies).2 }
  | .recvFrame, .fail => some { shared := s, next := recvReturn }
  | .recvFrame, _ => none
  | .recvPSH sid, _ =>
    if s.sweeping.isSome then none
    else
      some {
        shared := s
        next :=
          match s.streams.lookup sid with
          | some r => [.pipeWrite r, .recvCheck]
          | none => [.recvCheck] }
  -- either the stream has died or a reader takes the bytes
  | .pipeWrite r, choice => if s.Lives r ∧ choice ≠ .ok then none else some { shared := s }
  | .recvSYN sid, _ =>
    if s.sweeping.isSome then none
    else if (s.streams.lookup sid).isSome then some { shared := s, next := [.recvCheck] }
    else
      some {
        shared := s.register sid
        next := [.recvCheck]
        started := if s.isClient then [[.streamDie s.heap.length]] else [] }
  | .recvSYNACK sid, _ =>
    if s.sweeping.isSome then none
    else
      some {
        shared := s
        next :=
          match s.streams.lookup sid with
          | some r => [.streamDie r, .recvCheck]
          | none => [.recvCheck] }
  | .recvFIN sid, _ =>
    if s.sweeping.isSome then none
    else
      some {
        shared := s.delete sid
        next :=
          match s.streams.lookup sid with
          | some r => [.finClose r, .recvCheck]
          | none => [.recvCheck] }
  | .finClose r, _ =>
    some { shared := s.kill r, next := if s.Lives r then [.streamHook r] else [] }
  | .recvReply 0, _ => some { shared := s, next := [.recvCheck] }
  | .recvReply (frames + 1), .ok => some { shared := s, next := [.recvReply frames] }
  | .recvReply (_ + 1), .fail => some { shared := s, next := .dieOnce :: recvReturn }
  | .recvReply (_ + 1), _ => none
  | .writeControl, .ok => some { shared := s }
  | .writeControl, .fail => some { shared := s, next := [.dieOnce] }
  | .writeControl, _ => none
  | .streamDie r, _ =>
    match s.heap[r]? with
    | none => none
    | some st =>
      some {
        shared := s.kill r
        next := if st.died then [] else [.streamClosed st.id, .streamHook r] }
  | .streamClosed sid, _ =>
    some { shared := s, next := if s.die then [] else [.writeControl, .streamDelete sid] }
  | .streamDelete sid, _ => if s.sweeping.isSome then none else some { shared := s.delete sid }
  | .streamHook _, _ => some { shared := s }

/-- The calls from outside. A stream is closed by the caller of `OpenStream` or by its handler;
`control` are the reports of a handler. -/
inductive Call where
  | openStream
  | close
  | streamClose (r : Nat)
  | control
  deriving DecidableEq

def entry (s : Session) : Call → Option (List Section)
  | .openStream => some [.openCheck]
  | .close => some [.dieOnce]
  | .streamClose r => if r < s.heap.length then some [.streamDie r] else none
  | .control => some [.writeControl]

def program : Program Session Section Choice Call := ⟨effect, entry⟩

def newSession (isClient : Bool) : Pool Session Section := ⟨{ isClient }, [[.recvCheck]]⟩

end Mihomo.Anytls
