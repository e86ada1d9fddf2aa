import Mihomo.Lib.Run

/-!
# Data epochs of an OpenVPN client

A rekey installs a new data channel. The new key is used for decryption at once; packets are encrypted
with the previous key until there is evidence that the peer uses the new one, a deadline has passed or
the previous key has expired.

A section that holds the lock is one step; every `time.Now()` in it has a reading of its own.
`MarkPeerActive` is called without the lock; it commutes with the encryption that a section ends with.
The semaphore admits one writer, whose program counter is `Writer`. Times are nanoseconds, 0 stands for
the zero `time.Time`.
-/

namespace Mihomo.OpenVPN
open Lib

/-- A `DataChannel`; `id` stands for its address. -/
structure Epoch where
  id : Nat
  keyID : UInt8
  deriving DecidableEq, Repr

def authDeferredExpire : Int := 60000000000

/-- The fields under `dataLock`. `installed` are the epochs installed so far, newest first; the
channel `dataChanged` is closed with every installation, so that their number identifies it. -/
structure Client where
  data : Option Epoch
  retiring : Option Epoch
  outboundKey : Option Epoch
  outboundStart : Int
  pendingOutboundStart : Int
  retiringExpiry : Int
  pendingRetiringExpiry : Int
  dataByKey : UInt8 → Option Epoch
  peerActive : List Epoch
  installed : List Epoch

namespace Client

def zero : Client := ⟨none, none, none, 0, 0, 0, 0, fun _ => none, [], []⟩

def stageRetiringWindow (c : Client) (window deadline : Int) : Client :=
  if deadline = 0 then c
  else { c with pendingRetiringExpiry := deadline, pendingOutboundStart := deadline - window }

def keepEpochs (dataByKey : UInt8 → Option Epoch) (old : Option Epoch) (newData : Epoch) :
    UInt8 → Option Epoch :=
  let entered := match old with
    | some old =>
        if old.keyID ≠ newData.keyID then Function.update dataByKey old.keyID (some old) else dataByKey
    | none => dataByKey
  let entered := Function.update entered newData.keyID (some newData)
  fun id => if id ≠ newData.keyID ∧ old.map Epoch.keyID ≠ some id then none else entered id

/-- `installDataChannel` with the readings for the two deadlines. -/
def installDataChannel (c : Client) (window : Int) (newData : Epoch) (startNow expiryNow : Int) :
    Client :=
  let old := c.data
  { data := some newData
    retiring := old
    outboundKey := if old.isSome then old else some newData
    outboundStart := if old.isSome ∧ c.pendingOutboundStart ≠ 0 then c.pendingOutboundStart else startNow
    pendingOutboundStart := 0
    retiringExpiry :=
      if old.isSome then
        if c.pendingRetiringExpiry ≠ 0 then c.pendingRetiringExpiry else expiryNow + window
      else 0
    pendingRetiringExpiry := 0
    dataByKey := keepEpochs c.dataByKey old newData
    peerActive := c.peerActive
    installed := newData :: c.installed }

def pendingExpired (c : Client) (now : Int) : Bool :=
  c.pendingRetiringExpiry ≠ 0 ∧ c.pendingRetiringExpiry < now

def selectionExpired (c : Client) (now : Int) : Bool := c.outboundStart + authDeferredExpire < now

def retiringExpired (c : Client) (now : Int) : Bool :=
  c.retiring ≠ none ∧ c.outboundKey = c.retiring ∧ c.retiringExpiry ≠ 0 ∧ c.retiringExpiry < now

/-- The readings of one section: of the pending deadline, of `selectionExpired` and of
`retiringExpired`. -/
structure Readings where
  pending : Int
  selection : Int
  retiring : Int

def promotionDue (c : Client) (data : Epoch) (now : Readings) : Bool :=
  decide (data ∈ c.peerActive) || c.selectionExpired now.selection || c.retiringExpired now.retiring

def valid (c : Client) (outbound : Epoch) : Bool :=
  c.dataByKey outbound.keyID = some outbound ∧
    (some outbound = c.data ∨ some outbound = c.retiring ∨ some outbound = c.outboundKey)

def promote (c : Client) (now : Readings) (startNow : Int) : Client :=
  match c.data with
  | none => c
  | some data =>
    if c.outboundKey ≠ some data ∧ c.outboundKey ≠ none ∧ c.promotionDue data now then
      { c with outboundKey := some data, outboundStart := startNow }
    else c

end Client

/-- Where `writeDataPacket` stands: not running or returned, at the head of the loop, waiting for
`dataChanged`, about to promote, or with a selected key. -/
inductive Writer where
  | idle
  | loop
  | waiting (changed : Nat)
  | promoting
  | selected (outbound : Epoch)
  deriving DecidableEq, Repr

structure Encryption where
  epoch : Epoch
  client : Client
  now : Client.Readings

structure Decryption where
  packetKeyID : UInt8
  epoch : Epoch
  client : Client
  retiringNow : Int

/-- `toMark` are the epochs that a reader is about to mark as peer-active. -/
structure System where
  client : Client
  writer : Writer
  toMark : List Epoch
  encrypted : List Encryption
  decrypted : List Decryption

def System.start : System := ⟨.zero, .idle, [], [], []⟩

inductive Event where
  | install (keyID : UInt8) (startNow expiryNow : Int)
  | stage (deadline : Int)
  | decrypt (keyID : UInt8) (pendingNow retiringNow : Int) (authentic : Bool)
  | mark (epoch : Epoch)
  | write
  | select (now : Client.Readings)
  | wake
  | promote (now : Client.Readings) (startNow : Int)
  | encrypt (now : Client.Readings)
  | giveUp

namespace System

/-- The section of `decryptDataPacket`; the packet is dropped, or decrypted with the epoch found. -/
def decryptDataPacket (s : System) (keyID : UInt8) (pendingNow retiringNow : Int) (authentic : Bool) :
    System :=
  let c := s.client
  if c.pendingExpired pendingNow then s
  else if c.retiring.map Epoch.keyID = some keyID ∧ c.retiringExpiry ≠ 0 ∧
    c.retiringExpiry < retiringNow then s
  else
    match c.dataByKey keyID with
    | none => s
    | some data =>
      { s with
        decrypted := ⟨keyID, data, c, retiringNow⟩ :: s.decrypted
        toMark := if authentic ∧ c.data = some data then data :: s.toMark else s.toMark }

/-- The first section of `writeDataPacket`. -/
def select (s : System) (now : Client.Readings) : System :=
  let c := s.client
  match c.data with
  | none => { s with writer := .idle }
  | some data =>
    if c.pendingExpired now.pending then { s with writer := .waiting c.installed.length }
    else
      let outbound := c.outboundKey.getD data
      if outbound ≠ data ∧ c.promotionDue data now then { s with writer := .promoting }
      else { s with writer := .selected outbound }

/-- The section that encrypts with the selected key, or sends the writer back to the loop. -/
def encrypt (s : System) (outbound : Epoch) (now : Client.Readings) : System :=
  let c := s.client
  if c.pendingExpired now.pending then { s with writer := .waiting c.installed.length }
  else if !c.valid outbound then { s with writer := .loop }
  else
    match c.data with
    | none => { s with writer := .loop }
    | some data =>
      if outbound ≠ data ∧ c.promotionDue data now then { s with writer := .loop }
      else { s with writer := .idle, encrypted := ⟨outbound, c, now⟩ :: s.encrypted }

def step (window : Int) (s : System) : Event → Except Empty System
  | .install keyID startNow expiryNow =>
    .ok { s with client :=
      s.client.installDataChannel window ⟨s.client.installed.length, keyID⟩ startNow expiryNow }
  | .stage deadline => .ok { s with client := s.client.stageRetiringWindow window deadline }
  | .decrypt keyID pendingNow retiringNow authentic =>
    .ok (s.decryptDataPacket keyID pendingNow retiringNow authentic)
  | .mark epoch =>
    .ok (if epoch ∈ s.toMark then
        { s with
          client := { s.client with peerActive := epoch :: s.client.peerActive }
          toMark := s.toMark.erase epoch }
      else s)
  | .write => .ok (if s.writer = .idle then { s with writer := .loop } else s)
  | .select now => .ok (if s.writer = .loop then s.select now else s)
  | .wake => .ok (match s.writer with
    | .waiting changed => if changed ≠ s.client.installed.length then { s with writer := .loop } else s
    | _ => s)
  | .promote now startNow =>
    .ok (if s.writer =
      .promoting then { s with client := s.client.promote now startNow, writer := .loop } else s)
  | .encrypt now => .ok (match s.writer with
    | .selected outbound => s.encrypt outbound now
    | _ => s)
  | .giveUp => .ok { s with writer := .idle }

end System

/-! ### What the epochs are in every state -/

def Client.newest (c : Client) : Option Epoch := c.installed[0]?

def Client.preceding (c : Client) : Option Epoch := c.installed[1]?

structure Client.Consistent (c : Client) : Prop where
  data : c.data = c.newest
  retiring : c.retiring = c.preceding
  outbound : c.outboundKey = c.data ∨ c.outboundKey = c.retiring
  outbound_isSome : c.data.isSome → c.outboundKey.isSome
  dataByKey : ∀ k e, c.dataByKey k = some e → e.keyID = k ∧ (c.data = some e ∨ c.retiring = some e)
  expiry : c.retiring.isSome → c.retiringExpiry ≠ 0

theorem Client.consistent_zero : Client.zero.Consistent :=
  ⟨rfl, rfl, .inl rfl, id, fun _ _ h => absurd h.symm (Option.some_ne_none _), fun h =>
    absurd h Bool.false_ne_true⟩

theorem Client.Consistent.stage {c : Client} (h : c.Consistent) (window deadline : Int) :
    (c.stageRetiringWindow window deadline).Consistent := by
  unfold Client.stageRetiringWindow
  split_ifs
  · exact h
  · exact { h with }

theorem keepEpochs_eq {dataByKey : UInt8 → Option Epoch} {old : Option Epoch} {newData e : Epoch}
    {k : UInt8} (h : Client.keepEpochs dataByKey old newData k = some e) :
    e.keyID = k ∧ (newData = e ∨ old = some e) := by
  unfold Client.keepEpochs at h
  split_ifs at h with hdrop
  by_cases hk : k = newData.keyID
  · rw [hk, Function.update_self, Option.some.injEq] at h
    exact ⟨h ▸ hk.symm, .inl h⟩
  · rw [Function.update_of_ne hk] at h
    cases old with
    | none => exact absurd ⟨hk, Option.some_ne_none k |>.symm⟩ hdrop
    | some old =>
      have hold : old.keyID = k := by
        by_contra hne
        exact hdrop ⟨hk, fun heq => hne (Option.some.inj heq)⟩
      dsimp only at h
      rw [if_pos (by rw [hold]; exact hk), hold, Function.update_self] at h
      exact ⟨Option.some.inj h ▸ hold, .inr h⟩

theorem Client.Consistent.install {c : Client} (h : c.Consistent) {window : Int} (startNow : Int)
    {expiryNow : Int} (newData : Epoch) (hnow : 0 < expiryNow) (hwindow : 0 ≤ window) :
    (c.installDataChannel window newData startNow expiryNow).Consistent := by
  refine ⟨rfl, ?_, ?_, fun _ => ?_, fun k e he => ?_, fun hsome => ?_⟩
  · change c.data = (newData :: c.installed)[1]?
    rw [h.data]
    rfl
  · change (if c.data.isSome then c.data else some newData) = some newData ∨
      (if c.data.isSome then c.data else some newData) = c.data
    split_ifs
    · exact .inr rfl
    · exact .inl rfl
  · change (if c.data.isSome then c.data else some newData).isSome
    split_ifs with hsome
    · exact hsome
    · rfl
  · obtain ⟨hkey, hwhich⟩ := keepEpochs_eq he
    exact ⟨hkey, hwhich.imp (congrArg some) id⟩
  · change (if c.data.isSome then if c.pendingRetiringExpiry ≠
      0 then c.pendingRetiringExpiry else expiryNow + window
      else 0) ≠ 0
    rw [if_pos (show c.data.isSome from hsome)]
    split_ifs with hpending
    · exact hpending
    · omega

theorem Client.Consistent.promote {c : Client} (h : c.Consistent) (now : Client.Readings)
    (startNow : Int) : (c.promote now startNow).Consistent := by
  unfold Client.promote
  cases hdata : c.data with
  | none => exact h
  | some data =>
    dsimp only
    split_ifs
    · rw [← hdata]
      exact ⟨h.data, h.retiring, .inl rfl, fun hsome => hsome, h.dataByKey, h.expiry⟩
    · exact h

end Mihomo.OpenVPN
