import Mihomo.Go.Read
import Mihomo.Lib.Run
import Mihomo.Lib.Slots

/-!
# Fragments of UDP messages in Hysteria

A message that does not fit into a datagram is cut into numbered fragments, and the receiver collects
them in one slot array, which belongs to the message ID it has seen last.
-/

namespace Mihomo.Hysteria
open Go Lib Read

structure UdpMessage where
  sessionID : UInt32
  host : Str
  port : UInt16
  msgID : UInt16
  fragID : UInt8
  fragCount : UInt8
  data : Str
  deriving DecidableEq, Repr

namespace UdpMessage

def headerSize (m : UdpMessage) : Nat := 4 + 2 + m.host.length + 2 + 2 + 1 + 1 + 2

def size (m : UdpMessage) : Nat := m.headerSize + m.data.length

def pack (m : UdpMessage) : Str :=
  Net.bytesBE 4 m.sessionID.toNat ++ Net.bytesBE 2 m.host.length ++ m.host ++
    Net.bytesBE 2 m.port.toNat ++ Net.bytesBE 2 m.msgID.toNat ++ Net.bytesBE 1 m.fragID.toNat ++
    Net.bytesBE 1 m.fragCount.toNat ++ Net.bytesBE 2 m.data.length ++ m.data

/-- `Unpack`; the rest of the datagram has to be the data. -/
def unpack : Read UdpMessage := do
  let sessionID ← Read.uint32
  let hostLen ← Read.number 2
  let host ← Read.full hostLen
  let port ← Read.uint16
  let msgID ← Read.uint16
  let fragID ← Read.uint8
  let fragCount ← Read.uint8
  let dataLen ← Read.number 2
  let rest ← get
  if rest.length ≠ dataLen then Read.fail (.invalid (ascii "invalid data length"))
  else
    set ([] : Str)
    return { sessionID, host, port, msgID, fragID, fragCount, data := rest }

theorem length_pack (m : UdpMessage) : m.pack.length = m.size := by
  simp only [pack, List.length_append, Net.bytesBE_length, size, headerSize]

theorem unpack_pack (m : UdpMessage) (hhost : m.host.length < 65536) (hdata : m.data.length < 65536) :
    unpack m.pack = .ok (m, []) := by
  have hget : (get : Read Str) m.data = .ok (m.data, m.data) := rfl
  simp only [pack, List.append_assoc]
  rw [unpack, bind_ok (uint32_append ..), bind_ok (number_append hhost _),
    bind_ok (full_append _), bind_ok (uint16_append ..),
    bind_ok (uint16_append ..), bind_ok (uint8_append ..),
    bind_ok (uint8_append ..), bind_ok (number_append hdata _), bind_ok hget,
    if_neg (not_not_intro rfl)]
  rfl

theorem unpack_pack_hello :
    unpack (pack ⟨1, ascii "a.b", 53, 7, 0, 1, ascii "hello"⟩) =
      .ok (⟨1, ascii "a.b", 53, 7, 0, 1, ascii "hello"⟩, []) :=
  unpack_pack _ (by decide) (by decide)

end UdpMessage

/-- The loop of `fragUDPMessage` from offset `off`; every round advances, so as many rounds
as there are bytes are enough. -/
def fragLoop (m : UdpMessage) (maxPayloadSize : Nat) (fragCount : UInt8) :
    Nat → Nat → UInt8 → List UdpMessage
  | 0, _, _ => []
  | rounds + 1, off, fragID =>
    if off < m.data.length then
      let payloadSize := min (m.data.length - off) maxPayloadSize
      { m with fragID, fragCount, data := (m.data.drop off).take payloadSize } ::
        fragLoop m maxPayloadSize fragCount rounds (off + payloadSize) (fragID + 1)
    else []

def fragUDPMessage (m : UdpMessage) (maxSize : Int) : Except Panic (List UdpMessage) :=
  if (m.size : Int) ≤ maxSize then .ok [m]
  else
    let maxPayloadSize := maxSize - m.headerSize
    if maxPayloadSize = 0 then .error .divideByZero
    else if maxPayloadSize < 0 then
      -- the first slice of a payload would have a negative length
      if m.data = [] then .ok [] else .error .sliceBounds
    else
      let size := maxPayloadSize.toNat
      let fragCount := UInt8.ofNat ((m.data.length + size - 1) / size)
      .ok (fragLoop m size fragCount m.data.length 0 0)

structure Defragger where
  msgID : UInt16
  frags : List (Option UdpMessage)
  count : UInt8
  deriving DecidableEq, Repr

def assemble : List (Option UdpMessage) → Except Panic Str
  | [] => .ok []
  | none :: _ => .error .nilDereference
  | some frag :: frags => do return frag.data ++ (← assemble frags)

namespace Defragger

def zero : Defragger := ⟨0, [], 0⟩

/-- `Feed`. The assembled message is built in the variable whose address the last slot holds. -/
def feed (d : Defragger) (m : UdpMessage) : Except Panic (Defragger × Option UdpMessage) :=
  if m.fragCount ≤ 1 then .ok (d, some m)
  else if m.fragCount ≤ m.fragID then .ok (d, none)
  else if m.msgID ≠ d.msgID then
    let frags := (List.replicate m.fragCount.toNat none).set m.fragID.toNat (some m)
    .ok (⟨m.msgID, frags, 1⟩, none)
  else
    match d.frags[m.fragID.toNat]? with
    | none => .error .indexOutOfRange
    | some (some _) => .ok (d, none)
    | some none =>
      let frags := d.frags.set m.fragID.toNat (some m)
      let count := d.count + 1
      if count.toNat = frags.length then do
        let data ← assemble frags
        let whole := { m with data, fragID := 0, fragCount := 1 }
        .ok (⟨d.msgID, frags.set m.fragID.toNat (some whole), count⟩, some whole)
      else .ok (⟨d.msgID, frags, count⟩, none)

end Defragger

theorem assemble_of_filled {frags : List (Option UdpMessage)} (h : ∀ slot ∈ frags, slot ≠ none) :
    assemble frags = .ok (frags.flatMap fun slot => slot.elim [] UdpMessage.data) := by
  induction frags with
  | nil => rfl
  | cons slot frags ih =>
    rw [List.forall_mem_cons] at h
    cases slot with
    | none => exact absurd rfl h.1
    | some frag =>
      rw [assemble, ih h.2]
      rfl

end Mihomo.Hysteria
