import Mihomo.Lib.Run
import Mihomo.Mkcp.Frames

/-!
# Two connections over a network

Each side has its connection, the calls of `Write` in progress, and what an observer has seen: the
payloads that `Write` accepted, the bytes that `Read` returned, and the segments handed to the
network. The network loses, repeats and reorders: a segment that was sent may come at any time,
any number of times, or never.
-/

namespace Mihomo.Mkcp
open Go Lib List

structure WriteCall where
  b : Str
  written : Nat

structure Endpoint where
  conn : Conn
  writes : List WriteCall
  accepted : List Str
  returned : Str
  sent : List Segment

/-- What happens at a side: `Write` is called, call `k` takes a turn or ends at its deadline, `Read`
takes a turn, the connection is closed, terminated or flushed, or a segment comes in. -/
inductive Event where
  | write (b : Str)
  | attempt (k : Nat)
  | deadline (k : Nat)
  | read (size : Nat)
  | close (now : UInt32)
  | terminate (now : UInt32)
  | flush (now : UInt32)
  | receive (seg : Segment) (now : UInt32)

def Conn.ReadResult.bytes : Conn.ReadResult → Str
  | .data b => b
  | _ => []

namespace Endpoint

def appended (e : Endpoint) : Str := e.returned ++ e.conn.readBuf

def attempt (e : Endpoint) (k : Nat) : Endpoint :=
  match e.writes[k]? with
  | none => e
  | some call =>
    let payload := (call.b.drop call.written).take e.conn.mss
    match e.conn.write payload with
    | .closedPipe => { e with writes := e.writes.eraseIdx k }
    | .wait => e
    | .accepted conn =>
      let written := min (call.written + e.conn.mss) call.b.length
      { e with
        conn
        accepted := e.accepted ++ [payload]
        writes := if written < call.b.length then e.writes.set k { call with written }
          else e.writes.eraseIdx k }

def step (e : Endpoint) : Event → Endpoint
  | .write b => if b = [] then e else { e with writes := e.writes ++ [⟨b, 0⟩] }
  | .attempt k => e.attempt k
  | .deadline k => { e with writes := e.writes.eraseIdx k }
  | .read size =>
    { e with conn := (e.conn.read size).1, returned := e.returned ++ (e.conn.read size).2.bytes }
  | .close now => { e with conn := (e.conn.close now).getD e.conn }
  | .terminate now => { e with conn := e.conn.terminate now }
  | .flush now => { e with conn := (e.conn.flush now).1, sent := e.sent ++ (e.conn.flush now).2 }
  | .receive seg now => { e with conn := e.conn.input now [seg] }

end Endpoint

inductive Side where
  | dialer
  | listener
  deriving DecidableEq, Repr

def Side.peer : Side → Side
  | .dialer => .listener
  | .listener => .dialer

theorem Side.peer_ne (x : Side) : x.peer ≠ x := by cases x <;> exact fun h => Side.noConfusion h

theorem Side.peer_peer (x : Side) : x.peer.peer = x := by cases x <;> rfl

abbrev Link := Side → Endpoint

namespace Link

def step (l : Link) (a : Side × Event) : Except Empty Link :=
  .ok (Function.update l a.1 ((l a.1).step a.2))

structure Opened (cfg : Side → Config) (l : Link) : Prop where
  conn : ∀ x, ∃ conv overhead, newConn (cfg x) conv overhead = some (l x).conn
  conv : ∀ x y, (l x).conn.conv = (l y).conn.conv
  fresh : ∀ x, (l x).writes = [] ∧ (l x).accepted = [] ∧ (l x).returned = [] ∧ (l x).sent = []

def fresh (c : Conn) : Link := fun _ => ⟨c, [], [], [], []⟩

theorem opened_fresh {cfg : Config} {conv : UInt16} {overhead : Nat} {c : Conn}
    (h : newConn cfg conv overhead = some c) : Opened (fun _ => cfg) (fresh c) :=
  ⟨fun _ => ⟨conv, overhead, h⟩, fun _ _ => rfl, fun _ => ⟨rfl, rfl, rfl, rfl⟩⟩

/-- What comes in was sent by the peer, and data is less than 2^31 numbers away from the next
segment. -/
def Carried (l : Link) (a : Side × Event) : Prop :=
  match a.2 with
  | .receive seg _ => seg ∈ (l a.1.peer).sent ∧
      ∀ s, seg = .data s → Close s.number (l a.1).conn.recvNext
  | _ => True

end Link

/-! ### The events of a side -/

def Event.Takes : Event → Nat → Prop
  | .receive (.ack s) _, i => Conn.Acknowledged s i
  | .receive (.cmdOnly s) _, i => serial i < serial s.receivingNext
  | _, _ => False

structure Rests (P : Nat → Prop) (e e' : Endpoint) : Prop extends Conn.Sheds P e.conn e'.conn where
  cfg : e'.conn.cfg = e.conn.cfg
  recvCache : e'.conn.recvCache = e.conn.recvCache
  recvNext : e'.conn.recvNext = e.conn.recvNext
  acks : e'.conn.acks.Sublist e.conn.acks
  accepted : e'.accepted = e.accepted
  appended : e'.appended = e.appended
  sent : ∃ segs, e'.sent = e.sent ++ segs ∧ ∀ seg ∈ segs, seg.From e.conn

variable {P : Nat → Prop}

theorem Rests.of_frame {e e' : Endpoint} (h : Conn.Frame P e.conn e'.conn)
    (haccepted : e'.accepted = e.accepted) (hreturned : e'.returned = e.returned)
    (hsent : ∃ segs, e'.sent = e.sent ++ segs ∧ ∀ seg ∈ segs, seg.From e.conn) : Rests P e e' := by
  have hinbound := h.inbound
  simp only [Conn.inbound, Prod.mk.injEq] at hinbound
  obtain ⟨hcfg, -, -, hreadBuf, hrecvCache, hrecvNext⟩ := hinbound
  refine ⟨h.toSheds, hcfg, hrecvCache, hrecvNext, h.acks, haccepted, ?_, hsent⟩
  rw [Endpoint.appended, hreturned, hreadBuf, Endpoint.appended]

theorem Rests.of_conn {e : Endpoint} {conn : Conn} (h : Conn.Frame P e.conn conn)
    (writes : List WriteCall) : Rests P e { e with conn, writes } :=
  .of_frame h rfl rfl ⟨[], (append_nil _).symm, nofun⟩

inductive Endpoint.Stepped (e : Endpoint) : Event → Endpoint → Prop where
  | rests {ev : Event} {e' : Endpoint} (h : Rests ev.Takes e e') : Stepped e ev e'
  | accepts {k : Nat} {payload : Str} {conn : Conn} (h : e.conn.write payload = .accepted conn)
      (writes : List WriteCall) :
    Stepped e (.attempt k) { e with conn, accepted := e.accepted ++ [payload], writes }
  | handles {s : DataSegment} {now : UInt32} (hconv : s.conv = e.conn.conv)
      (hstate : e.conn.state ≠ .terminated) :
    Stepped e (.receive (.data s) now)
      { e with conn := { e.conn with lastIncoming := now }.inputData now s }

theorem Conn.frame_lastIncoming (c : Conn) (now : UInt32) :
    Conn.Frame P c { c with lastIncoming := now } := .of_window rfl rfl rfl rfl id

theorem Conn.frame_close {c c' : Conn} (now : UInt32) (h : c.close now = some c') :
    Conn.Frame P c c' := by
  unfold Conn.close at h
  cases hstate : c.state <;> rw [hstate] at h <;> dsimp only at h
  case readyToClose | terminating | terminated => cases h
  case active =>
    cases h
    exact c.frame_setStateLocked now fun _ => by rw [hstate]; rfl
  case peerClosed | peerTerminating =>
    cases h
    exact c.frame_setStateLocked now fun h => Bool.noConfusion h

theorem Rests.of_read (e : Endpoint) (size : Nat) :
    Rests P e
      { e with conn := (e.conn.read size).1, returned := e.returned ++ (e.conn.read size).2.bytes } := by
  have hnone : ∃ segs, e.sent = e.sent ++ segs ∧ ∀ seg ∈ segs, seg.From e.conn :=
    ⟨[], (append_nil _).symm, nofun⟩
  have hempty : e.returned ++ [] ++ e.conn.readBuf = e.returned ++ e.conn.readBuf := by
    rw [append_nil]
  unfold Conn.read
  split
  · refine ⟨.of_window rfl rfl id, rfl, rfl, rfl, .refl _, rfl, ?_, hnone⟩
    change e.returned ++ e.conn.readBuf.take size ++ e.conn.readBuf.drop size = _
    rw [append_assoc, take_append_drop, Endpoint.appended]
  · split <;> exact ⟨.of_window rfl rfl id, rfl, rfl, rfl, .refl _, rfl, hempty, hnone⟩

theorem Endpoint.stepped_receive (e : Endpoint) (seg : Segment) (now : UInt32) :
    Stepped e (.receive seg now) { e with conn := e.conn.input now [seg] } := by
  unfold Conn.input
  rw [if_neg (cons_ne_nil _ _)]
  split_ifs with hstate
  · exact .rests (.of_conn (.refl _) _)
  · rw [Conn.inputSegments]
    split_ifs with hconv
    · exact .rests (.of_conn (e.conn.frame_lastIncoming now) _)
    · cases seg with
      | data s => exact .handles (not_not.mp hconv) hstate
      | ack s =>
        exact .rests (.of_conn ((e.conn.frame_lastIncoming now).trans (Conn.frame_inputAck now _ s)) _)
      | cmdOnly s =>
        exact .rests
          (.of_conn ((e.conn.frame_lastIncoming now).trans (Conn.frame_inputCmdOnly now _ s)) _)

theorem Endpoint.stepped_attempt (e : Endpoint) (k : Nat) : Stepped e (.attempt k) (e.attempt k) := by
  unfold attempt
  cases e.writes[k]? with
  | none => exact .rests (.of_conn (.refl _) _)
  | some call =>
    dsimp only
    cases hwrite : e.conn.write ((call.b.drop call.written).take e.conn.mss) with
    | closedPipe | wait => exact .rests (.of_conn (.refl _) _)
    | accepted conn => exact .accepts hwrite _

theorem Endpoint.stepped (e : Endpoint) (ev : Event) : e.Stepped ev (e.step ev) := by
  cases ev with
  | write b =>
    rw [step]
    split_ifs <;> exact .rests (.of_conn (.refl _) _)
  | attempt k => exact e.stepped_attempt k
  | deadline k => exact .rests (.of_conn (.refl _) _)
  | read size => exact .rests (.of_read e size)
  | close now =>
    rw [step]
    cases hclose : e.conn.close now with
    | none => exact .rests (.of_conn (.refl _) _)
    | some conn => exact .rests (.of_conn (Conn.frame_close now hclose) _)
  | terminate now =>
    exact .rests (.of_conn (e.conn.frame_setStateLocked now Bool.noConfusion) _)
  | flush now =>
    obtain ⟨hframe, hfrom⟩ := e.conn.flush_spec now
    exact .rests (.of_frame hframe rfl rfl ⟨_, rfl, hfrom⟩)
  | receive seg now => exact e.stepped_receive seg now

end Mihomo.Mkcp
