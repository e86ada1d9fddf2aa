import Mathlib.Data.List.AList
import Mihomo.Go.Text
import Mihomo.Lib.Goroutines

/-!
# Multiplexed sessions (transport/sudoku/multiplex/session.go)

A session carries streams over one connection. Its critical sections are those of `streamsMu`, of the
mutex of a stream and of `closeOnce`, the tests and the closing of the channel `closed`, and the reads
and writes of the connection. `writeMu` only puts writes in an order, so sections of different
goroutines come in more orders here.

Streams are objects of a heap and are named by their index. The function of `closeOnce` is run by the
goroutine that is first in `Do`; its state is kept in the session, and a step of it is a step of any
goroutine that is in `Do`.
-/

namespace Mihomo.Sudoku.Mux
open Go Lib
def frameOpen : UInt8 := 1
def frameData : UInt8 := 2
def frameClose : UInt8 := 3
def frameReset : UInt8 := 4

def maxQueuedBytesPerStream : Nat := 4 * 1024 * 1024
def maxFrameSize : Nat := 256 * 1024

inductive Err where
  | closedPipe
  /-- "mux receive queue full" -/
  | receiveQueueFull
  | reset (msg : Str)
  | conn (code : Nat)
  /-- "invalid mux frame length: %d" -/
  | invalidLength (n : Nat)
  /-- "unknown mux frame type: %d" -/
  | unknownType (frameType : UInt8)
  /-- "mux payload too large: %d" -/
  | tooLarge (n : Nat)
  | eof
  deriving DecidableEq

/-! ### Streams -/

structure Stream where
  id : UInt32
  closed : Bool := false
  localReadClosed : Bool := false
  localWriteClosed : Bool := false
  remoteWriteClosed : Bool := false
  closeErr : Option Err := none
  readBuf : Str := []
  queue : List Str := []
  queuedBytes : Nat := 0

namespace Stream

def closeNoSend (err : Err) (st : Stream) : Stream :=
  if st.closed then st else { st with closed := true, closeErr := st.closeErr.or (some err) }

def closeRemoteWrite (st : Stream) : Stream × Bool :=
  if st.closed then (st, false)
  else ({ st with remoteWriteClosed := true }, st.localWriteClosed)

/-- `none` is `errMuxReceiveQueueFull`. -/
def enqueue (payload : Str) (st : Stream) : Option Stream :=
  if st.closed ∨ st.localReadClosed ∨ st.remoteWriteClosed then some st
  else if maxQueuedBytesPerStream < st.queuedBytes + payload.length then none
  else
    let st := { st with queuedBytes := st.queuedBytes + payload.length }
    if st.readBuf = [] ∧ st.queue = [] then some { st with readBuf := payload }
    else some { st with queue := st.queue ++ [payload] }

def Waits (st : Stream) : Prop :=
  st.readBuf = [] ∧ st.queue = [] ∧ ¬ st.closed ∧ ¬ st.localReadClosed ∧ ¬ st.remoteWriteClosed

instance (st : Stream) : Decidable st.Waits := by unfold Waits; infer_instance

/-- `Read` into `n` bytes when it does not wait. -/
def read (n : Nat) (st : Stream) : Except Err Str × Stream :=
  if n = 0 then (.ok [], st)
  else
    let st :=
      match st.readBuf, st.queue with
      | [], first :: queue => { st with readBuf := first, queue := queue }
      | _, _ => st
    if st.readBuf = [] ∧ st.closed then (.error (st.closeErr.getD .closedPipe), st)
    else if st.readBuf = [] ∧ st.localReadClosed then (.error .closedPipe, st)
    else if st.readBuf = [] ∧ st.remoteWriteClosed then (.error .eof, st)
    else
      let out := st.readBuf.take n
      (.ok out, { st with
        readBuf := st.readBuf.drop n, queuedBytes := st.queuedBytes - out.length })

/-- `Close` up to the point where the mutex is given back. -/
def close (st : Stream) : Stream :=
  { st with
    closed := true
    localReadClosed := true
    localWriteClosed := true
    closeErr := st.closeErr.or (some .closedPipe)
    readBuf := []
    queue := []
    queuedBytes := 0 }

def closeRead (st : Stream) : Stream :=
  { st with localReadClosed := true, readBuf := [], queue := [], queuedBytes := 0 }

def Shut (st : Stream) : Prop :=
  st.closed ∨ st.localWriteClosed ∧ (st.localReadClosed ∨ st.remoteWriteClosed)

instance (st : Stream) : Decidable st.Shut := by unfold Shut; infer_instance

variable {st st' : Stream}

theorem Shut.not_waits (h : st.Shut) : ¬ st.Waits := by
  rintro ⟨-, -, hclosed, hlocal, hremote⟩
  rcases h with h | ⟨-, h | h⟩
  · exact hclosed h
  · exact hlocal h
  · exact hremote h

structure Later (st st' : Stream) : Prop where
  id : st'.id = st.id
  closed : st.closed → st'.closed
  localReadClosed : st.localReadClosed → st'.localReadClosed
  localWriteClosed : st.localWriteClosed → st'.localWriteClosed
  remoteWriteClosed : st.remoteWriteClosed → st'.remoteWriteClosed

theorem Later.refl (st : Stream) : Later st st := ⟨rfl, fun h => h, fun h => h, fun h => h, fun h => h⟩

theorem Shut.later (h : st.Shut) (hlater : Later st st') : st'.Shut :=
  h.imp hlater.closed
    (.imp hlater.localWriteClosed (.imp hlater.localReadClosed hlater.remoteWriteClosed))

theorem later_closeNoSend (err : Err) (st : Stream) : Later st (st.closeNoSend err) := by
  unfold closeNoSend
  split
  · exact .refl st
  · exact ⟨rfl, fun _ => rfl, fun h => h, fun h => h, fun h => h⟩

theorem closed_closeNoSend (err : Err) (st : Stream) : (st.closeNoSend err).closed := by
  unfold closeNoSend
  split
  · assumption
  · rfl

theorem later_closeRemoteWrite (st : Stream) : Later st st.closeRemoteWrite.1 := by
  unfold closeRemoteWrite
  split
  · exact .refl st
  · exact ⟨rfl, fun h => h, fun h => h, fun h => h, fun _ => rfl⟩

theorem later_enqueue {payload : Str} (h : st.enqueue payload = some st') : Later st st' := by
  unfold enqueue at h
  dsimp only at h
  split_ifs at h <;> cases h <;> exact ⟨rfl, fun h => h, fun h => h, fun h => h, fun h => h⟩

theorem later_read (n : Nat) (st : Stream) : Later st (st.read n).2 := by
  unfold read
  split
  · exact .refl st
  · dsimp only
    split <;> split_ifs <;> exact ⟨rfl, fun h => h, fun h => h, fun h => h, fun h => h⟩

theorem later_close (st : Stream) : Later st st.close :=
  ⟨rfl, fun _ => rfl, fun _ => rfl, fun _ => rfl, fun h => h⟩

theorem later_closeRead (st : Stream) : Later st st.closeRead := ⟨rfl, fun h => h, fun _ => rfl, fun h => h, fun h => h⟩

end Stream

/-! ### Sessions -/

/-- How far the function of `closeOnce` has come. -/
inductive Closing where
  | fresh
  | begun (err : Err)
  /-- The table has been taken; these streams are still to be closed. -/
  | sweeping (err : Err) (left : List Nat)
  /-- The channel is closed, the connection is not. -/
  | signalled
  | finished
  deriving DecidableEq

/-- `handed` is the history of the streams that `OpenStream` has returned and of those that went
into `acceptCh`. A client has no `acceptCh`. -/
structure Session where
  server : Bool
  heap : List Stream := []
  streams : AList fun _ : UInt32 => Nat := ∅
  nextID : UInt32 := 0
  acceptCh : List (Nat × Str) := []
  closeErr : Option Err := none
  closed : Bool := false
  closeOnce : Closing := .fresh
  connClosed : Bool := false
  reading : Bool := true
  handed : List Nat := []

namespace Session

def closedErr (s : Session) : Err := s.closeErr.getD .closedPipe

def update (s : Session) (r : Nat) (f : Stream → Stream) : Session :=
  { s with heap := s.heap.modify r f }

def register (s : Session) (id : UInt32) : Session :=
  { s with
    heap := s.heap ++ [{ id }]
    streams := s.streams.insert id s.heap.length }

def removeStream (s : Session) (id : UInt32) : Session :=
  { s with streams := s.streams.erase id }

def nextStreamID (s : Session) : UInt32 :=
  if s.nextID + 1 = 0 then s.nextID + 2 else s.nextID + 1

def closeStep (s : Session) (err : Err) : Session :=
  match s.closeOnce with
  | .fresh => { s with closeOnce := .begun err }
  | .begun err =>
    { s with
      closeErr := s.closeErr.or (some err)
      closeOnce := .sweeping err (s.streams.entries.map Sigma.snd)
      streams := ∅ }
  | .sweeping err (r :: left) =>
    { s.update r (·.closeNoSend err) with closeOnce := .sweeping err left }
  | .sweeping _ [] => { s with closed := true, closeOnce := .signalled }
  | .signalled => { s with connClosed := true, closeOnce := .finished }
  | .finished => s

end Session

inductive Section where
  /-- The first test of `OpenStream`, with a payload of this length. -/
  | isClosed (payload : Nat)
  | nextStreamID (payload : Nat)
  | registerStream (id : UInt32) (payload : Nat)
  /-- `sendFrame` of `OpenStream` up to the write. -/
  | sendOpen (r : Nat) (id : UInt32) (payload : Nat)
  | writeOpen (r : Nat) (id : UInt32)
  /-- `sendFrame` with a result that is not looked at. -/
  | sendFrame
  | writeAllChunks
  | closeWithError (err : Err)
  | closeNoSend (r : Nat) (err : Err)
  | removeStream (id : UInt32)
  | readLoop
  | getOpen (id : UInt32) (payload : Str)
  | registerAccept (id : UInt32) (payload : Str)
  | getData (id : UInt32) (payload : Str)
  | enqueue (r : Nat) (id : UInt32) (payload : Str)
  | goReset
  | getClose (id : UInt32)
  | closeRemoteWrite (r : Nat) (id : UInt32)
  | getReset (id : UInt32) (payload : Str)
  | exitLoop
  /-- The goroutine that offers a stream to `acceptCh`. -/
  | offer (r : Nat) (id : UInt32) (payload : Str)
  | accept
  | read (r : Nat) (n : Nat)
  | write (r : Nat) (chunks : Nat)
  | close (r : Nat)
  | closeWrite (r : Nat)
  | closeRead (r : Nat)
  deriving DecidableEq

/-- What the connection and `select` decide. -/
inductive Choice where
  | ok
  | fail (code : Nat)
  | frame (frameType : UInt8) (id : UInt32) (payload : Str)
  /-- A header with a length that is too large. -/
  | oversized (n : Nat)
  | acceptCh
  | closed
  deriving DecidableEq

def trimASCII (b : Str) : Str :=
  let blank := fun c : UInt8 => c = 32 ∨ c = 10 ∨ c = 13 ∨ c = 9
  ((b.dropWhile blank).reverse.dropWhile blank).reverse

def resetText : Str := [114, 101, 115, 101, 116]

def dispatch (s : Session) (frameType : UInt8) (id : UInt32) (payload : Str) : List Section :=
  if frameType = frameOpen then
    if s.server = false ∨ id = 0 then [.sendFrame, .sendFrame, .readLoop] else [.getOpen id payload]
  else if frameType = frameData then [.getData id payload]
  else if frameType = frameClose then [.getClose id]
  else if frameType = frameReset then [.getReset id payload]
  else [.closeWithError (.unknownType frameType), .exitLoop]

/-- What is left to do when `sendFrame` of `OpenStream` has failed. -/
def openFailed (r : Nat) (id : UInt32) (err : Err) : List Section :=
  [.closeNoSend r err, .removeStream id]

def effect (s : Session) : Section → Choice → Option (Effect Session Section)
  | .isClosed payload, _ =>
    some { shared := s, next := if s.closed then [] else [.nextStreamID payload] }
  | .nextStreamID payload, _ =>
    some {
      shared := { s with nextID := s.nextStreamID }
      next := [.registerStream s.nextStreamID payload] }
  | .registerStream id payload, _ =>
    some { shared := s.register id, next := [.sendOpen s.heap.length id payload] }
  | .sendOpen r id payload, _ =>
    some {
      shared := s
      next :=
        if s.closed then openFailed r id s.closedErr
        else if maxFrameSize < payload then openFailed r id (.tooLarge payload)
        else [.writeOpen r id] }
  | .writeOpen r _, .ok =>
    if s.connClosed ∨ s.heap.length ≤ r then none
    else some { shared := { s with handed := s.handed ++ [r] } }
  | .writeOpen r id, .fail code =>
    some { shared := s, next := .closeWithError (.conn code) :: openFailed r id (.conn code) }
  | .writeOpen _ _, _ => none
  | .sendFrame, _ => some { shared := s, next := if s.closed then [] else [.writeAllChunks] }
  | .writeAllChunks, .ok => if s.connClosed then none else some { shared := s }
  | .writeAllChunks, .fail code => some { shared := s, next := [.closeWithError (.conn code)] }
  | .writeAllChunks, _ => none
  | .closeWithError err, _ =>
    some {
      shared := s.closeStep err
      next := if s.closeOnce = .signalled ∨ s.closeOnce = .finished then [] else
        [.closeWithError err] }
  | .closeNoSend r err, _ => some { shared := s.update r (·.closeNoSend err) }
  | .removeStream id, _ => some { shared := s.removeStream id }
  | .readLoop, .frame frameType id payload =>
    if s.connClosed ∨ maxFrameSize < payload.length then none
    else some { shared := s, next := dispatch s frameType id payload }
  | .readLoop, .oversized n =>
    if s.connClosed ∨ n ≤ maxFrameSize then none
    else some { shared := s, next := [.closeWithError (.invalidLength n), .exitLoop] }
  | .readLoop, .fail code =>
    some { shared := s, next := [.closeWithError (.conn code), .exitLoop] }
  | .readLoop, _ => none
  | .getOpen id payload, _ =>
    some {
      shared := s
      next :=
        if (s.streams.lookup id).isSome then [.sendFrame, .sendFrame, .readLoop]
        else [.registerAccept id payload] }
  | .registerAccept id payload, _ =>
    some {
      shared := s.register id
      next := [.readLoop]
      started := [[.offer s.heap.length id payload]] }
  | .getData id payload, _ =>
    some {
      shared := s
      next :=
        match s.streams.lookup id with
        | some r => if payload = [] then [.readLoop] else [.enqueue r id payload]
        | none => [.readLoop] }
  | .enqueue r id payload, _ =>
    match s.heap[r]? with
    | none => none
    | some st =>
      match st.enqueue payload with
      | some st' => some { shared := s.update r fun _ => st', next := [.readLoop] }
      | none =>
        some {
          shared := s
          next := [.closeNoSend r .receiveQueueFull, .removeStream id, .goReset, .readLoop] }
  | .goReset, _ => some { shared := s, started := [[.sendFrame, .sendFrame]] }
  | .getClose id, _ =>
    some {
      shared := s
      next :=
        match s.streams.lookup id with
        | some r => [.closeRemoteWrite r id]
        | none => [.readLoop] }
  | .closeRemoteWrite r id, _ =>
    match s.heap[r]? with
    | none => none
    | some st =>
      some {
        shared := s.update r fun st => st.closeRemoteWrite.1
        next := if st.closeRemoteWrite.2 then [.removeStream id, .readLoop] else [.readLoop] }
  | .getReset id payload, _ =>
    some {
      shared := s
      next :=
        match s.streams.lookup id with
        | some r =>
          let msg := if trimASCII payload = [] then resetText else trimASCII payload
          [.closeNoSend r (.reset msg), .removeStream id, .readLoop]
        | none => [.readLoop] }
  | .exitLoop, _ => some { shared := { s with reading := false } }
  | .offer r _ payload, .acceptCh =>
    if s.acceptCh.length < 256 ∧ r < s.heap.length then
      some {
        shared := { s with acceptCh := s.acceptCh ++ [(r, payload)], handed := s.handed ++ [r] } }
    else none
  | .offer r id _, .closed =>
    if s.closed then some { shared := s, next := openFailed r id .closedPipe } else none
  | .offer _ _ _, _ => none
  | .accept, .acceptCh =>
    if s.acceptCh = [] then none else some { shared := { s with acceptCh := s.acceptCh.tail } }
  | .accept, .closed => if s.closed then some { shared := s } else none
  | .accept, _ => none
  | .read r n, _ =>
    match s.heap[r]? with
    | none => none
    | some st =>
      if st.Waits ∧ n ≠ 0 then none else some { shared := s.update r fun st => (st.read n).2 }
  | .write r chunks, _ =>
    match s.heap[r]? with
    | none => none
    | some st =>
      some {
        shared := s
        next :=
          if s.closed ∨ st.closed ∨ st.localWriteClosed then []
          else List.replicate chunks .sendFrame }
  | .close r, _ =>
    match s.heap[r]? with
    | none => none
    | some st =>
      if st.closed then some { shared := s }
      else
        some {
          shared := s.update r Stream.close
          next := (if st.localWriteClosed then [] else [.sendFrame]) ++ [.removeStream st.id] }
  | .closeWrite r, _ =>
    match s.heap[r]? with
    | none => none
    | some st =>
      if st.closed ∨ st.localWriteClosed then some { shared := s }
      else
        some {
          shared := s.update r fun st => { st with localWriteClosed := true }
          next := .sendFrame ::
            if st.remoteWriteClosed ∨ st.localReadClosed then [.removeStream st.id] else [] }
  | .closeRead r, _ =>
    match s.heap[r]? with
    | none => none
    | some st =>
      if st.closed ∨ st.localReadClosed then some { shared := s }
      else
        some {
          shared := s.update r Stream.closeRead
          next := if st.localWriteClosed then [.removeStream st.id] else [] }

inductive Call where
  | openStream (payload : Nat)
  | acceptStream
  | close
  | keepalive
  | streamRead (r : Nat) (n : Nat)
  | streamWrite (r : Nat) (chunks : Nat)
  | streamClose (r : Nat)
  | streamCloseWrite (r : Nat)
  | streamCloseRead (r : Nat)
  deriving DecidableEq

def Session.Owned (s : Session) (r : Nat) : Prop := r ∈ s.handed ∧ r ∉ s.acceptCh.map Prod.fst

instance (s : Session) (r : Nat) : Decidable (s.Owned r) := by
  unfold Session.Owned
  infer_instance

def entry (s : Session) : Call → Option (List Section)
  | .openStream payload => some [.isClosed payload]
  | .acceptStream => if s.server then some [.accept] else none
  | .close => some [.closeWithError .closedPipe]
  | .keepalive => some [.sendFrame]
  | .streamRead r n => if s.Owned r then some [.read r n] else none
  | .streamWrite r chunks => if s.Owned r then some [.write r chunks] else none
  | .streamClose r => if s.Owned r then some [.close r] else none
  | .streamCloseWrite r => if s.Owned r then some [.closeWrite r] else none
  | .streamCloseRead r => if s.Owned r then some [.closeRead r] else none

def program : Program Session Section Choice Call := ⟨effect, entry⟩

/-- `NewClientSession` and `NewServerSession`. -/
def newSession (server : Bool) : Pool Session Section := ⟨{ server }, [[.readLoop]]⟩

/-! ### The bytes that wait in a stream -/

namespace Stream
variable {st st' : Stream}

def unread (st : Stream) : Str := st.readBuf ++ st.queue.flatten

structure Metered (st : Stream) : Prop where
  queued : st.queuedBytes = st.unread.length
  bound : st.queuedBytes ≤ maxQueuedBytesPerStream
  chunks : [] ∉ st.queue

theorem Metered.closeNoSend (h : st.Metered) (err : Err) : (st.closeNoSend err).Metered := by
  unfold Stream.closeNoSend
  split
  · exact h
  · exact ⟨h.queued, h.bound, h.chunks⟩

theorem Metered.closeRemoteWrite (h : st.Metered) : st.closeRemoteWrite.1.Metered := by
  unfold Stream.closeRemoteWrite
  split
  · exact h
  · exact ⟨h.queued, h.bound, h.chunks⟩

theorem Metered.enqueue {payload : Str} (h : st.Metered) (hpayload : payload ≠ [])
    (hst' : st.enqueue payload = some st') : st'.Metered := by
  have hqueued := h.queued
  unfold unread at hqueued
  unfold Stream.enqueue at hst'
  dsimp only at hst'
  split_ifs at hst' with hdeaf hfull hempty <;> cases hst'
  · exact h
  · exact ⟨by simp [unread, hempty, hqueued], Nat.not_lt.mp hfull, h.chunks⟩
  · exact ⟨by simp [unread, hqueued, Nat.add_assoc], Nat.not_lt.mp hfull,
      by simp [h.chunks, hpayload.symm]⟩

theorem Metered.read (h : st.Metered) (n : Nat) : (st.read n).2.Metered := by
  obtain ⟨hqueued, hbound, hchunks⟩ := h
  unfold unread at hqueued
  unfold Stream.read
  dsimp only
  split
  · exact ⟨hqueued, hbound, hchunks⟩
  · split <;> split_ifs <;>
      refine ⟨?_, ?_, ?_⟩ <;> simp_all [unread] <;> omega

theorem Metered.read_error (h : st.Metered) {n : Nat} {err : Err}
    (herr : (st.read n).1 = .error err) : st.unread = [] := by
  have hchunks := h.chunks
  revert herr
  unfold Stream.read unread
  dsimp only
  cases hqueue : st.queue with
  | nil => split_ifs <;> simp_all
  | cons first queue =>
    -- a chunk at the front would be returned, since it is not empty
    have hfirst : first ≠ [] := fun hnil => hchunks (by simp [hqueue, hnil])
    cases hbuf : st.readBuf <;> simp_all <;> split_ifs <;> nofun

end Stream

variable {s : Session} {sec : Section} {choice : Choice} {e : Effect Session Section}

def Filled : Section → Prop
  | .enqueue _ _ payload => payload ≠ []
  | _ => True

theorem filled_of_effect (h : effect s sec choice = some e) :
    ∀ g ∈ e.next :: e.started, ∀ t ∈ g, Filled t := by
  revert h
  fun_cases effect s sec choice
  all_goals
    intro h
    cases h
  all_goals
    refine List.forall_mem_cons.mpr ⟨?_, by simp [Filled]⟩
    dsimp only [dispatch]
    repeat' split
    all_goals simp_all [Filled, openFailed]

theorem metered_of_effect (h : ∀ st ∈ s.heap, st.Metered) (hsec : Filled sec)
    (he : effect s sec choice = some e) : ∀ st ∈ e.shared.heap, st.Metered := by
  have hupdate : ∀ r {f : Stream → Stream}, (∀ {st : Stream}, st.Metered → (f st).Metered) →
      ∀ st ∈ (s.update r f).heap, st.Metered := by
    intro r f hf st hst
    obtain ⟨r', hr'⟩ := List.mem_iff_getElem?.mp hst
    rw [Session.update, List.getElem?_modify] at hr'
    obtain ⟨st₀, hst₀, rfl⟩ := Option.map_eq_some_iff.mp hr'
    have hmetered := h st₀ (List.mem_of_getElem? hst₀)
    split
    · exact hf hmetered
    · exact hmetered
  revert he
  fun_cases effect s sec choice
  all_goals
    intro he
    cases he
  case case3 | case24 =>
    exact List.forall_mem_append.mpr ⟨h, List.forall_mem_singleton.mpr
      ⟨rfl, Nat.zero_le _, List.not_mem_nil⟩⟩
  case case14 err =>
    fun_cases s.closeStep err
    case case3 => exact hupdate _ (·.closeNoSend _)
    all_goals exact h
  case case15 => exact hupdate _ (·.closeNoSend _)
  case case27 st hst st' hst' =>
    exact hupdate _ fun _ => (h st (List.mem_of_getElem? hst)).enqueue hsec hst'
  case case32 => exact hupdate _ (·.closeRemoteWrite)
  case case47 => exact hupdate _ (·.read _)
  case case52 | case58 => exact hupdate _ fun _ => ⟨rfl, Nat.zero_le _, List.not_mem_nil⟩
  case case55 => exact hupdate _ fun h => ⟨h.queued, h.bound, h.chunks⟩
  -- the other sections leave the streams as they are
  all_goals exact h

/-- In every interleaving a stream counts the bytes that wait in it, they stay within the limit, and
`Read` reports an error or the end only when none is left. -/
theorem always_metered (server : Bool) (moves : List (Move Choice Call)) :
    Always program.step (fun p => ∀ st ∈ p.shared.heap, st.queuedBytes = st.unread.length ∧
      st.queuedBytes ≤ maxQueuedBytesPerStream ∧
        ∀ n err, (st.read n).1 = .error err → st.unread = []) (newSession server) moves := by
  have hmoves : Along program.step (Program.Meets fun _ _ => True) (newSession server) moves :=
    along_of_forall (fun _ _ _ _ => trivial) _ moves
  have hmetered := always_pool (P := program)
    (I := fun p => (∀ st ∈ p.shared.heap, st.Metered) ∧ ∀ g ∈ p.running, ∀ t ∈ g, Filled t)
    ?_ ?_ (by simp [newSession, Filled]) moves hmoves
  · refine hmetered.mono fun h st hst => ?_
    obtain ⟨hqueued, hbound, -⟩ := h.1 st hst
    exact ⟨hqueued, hbound, fun _ _ => (h.1 st hst).read_error⟩
  · intro p before sec rest after choice e hp hrunning _ he
    rw [hrunning] at hp
    simp only [List.forall_mem_append, List.forall_mem_cons] at hp ⊢
    obtain ⟨hstreams, hbefore, ⟨hsec, hrest⟩, hafter⟩ := hp
    have hfilled := List.forall_mem_cons.mp (filled_of_effect he)
    exact ⟨metered_of_effect hstreams hsec he, hbefore, ⟨hfilled.1, hrest⟩, hafter, hfilled.2⟩
  · intro p c g hp hg
    refine ⟨hp.1, List.forall_mem_append.mpr ⟨hp.2, List.forall_mem_singleton.mpr ?_⟩⟩
    revert hg
    change entry p.shared c = some g → _
    fun_cases entry p.shared c
    all_goals
      intro hg
      cases hg
    all_goals simp [Filled]

end Mihomo.Sudoku.Mux
