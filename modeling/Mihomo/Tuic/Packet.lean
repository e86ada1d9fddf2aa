import Mihomo.Tuic.Address
import Mihomo.Lib.Slots

/-!
# Packet commands and their fragments

A UDP packet travels in one or more packet commands of TUIC version 5. The first
fragment carries the address of the packet; the type byte of the others says that they
have none. `received` is what `ReadPacket` makes of a command that was written.
-/

namespace Mihomo.Tuic
open Go Lib List Nat Read

/-! ### Command heads -/

def authenticateType : UInt8 := 0

def connectType : UInt8 := 1

def packetType : UInt8 := 2

def dissociateType : UInt8 := 3

def heartbeatType : UInt8 := 4

def version : UInt8 := 5

def hexDigit (n : Nat) : UInt8 := if n < 10 then UInt8.ofNat (48 + n) else UInt8.ofNat (87 + n)

/-- The verb `%#x` for a byte. -/
def hexByte (b : UInt8) : Str :=
  ascii "0x" ++ (if b.toNat < 16 then [] else [hexDigit (b.toNat / 16)]) ++ [hexDigit (b.toNat % 16)]

def commandTypeString (c : UInt8) : Str :=
  if c = authenticateType then ascii "Authenticate"
  else if c = connectType then ascii "Connect"
  else if c = packetType then ascii "Packet"
  else if c = dissociateType then ascii "Dissociate"
  else if c = heartbeatType then ascii "Heartbeat"
  else ascii "UnknowCommand: " ++ hexByte c

structure CommandHead where
  ver : UInt8
  type : UInt8
  deriving DecidableEq, Repr

def newCommandHead (type : UInt8) : CommandHead := ⟨version, type⟩

def readCommandHead : Read CommandHead := do
  let ver ← Read.byte
  let type ← Read.byte
  return ⟨ver, type⟩

def CommandHead.writeTo (c : CommandHead) : Str := [c.ver, c.type]

/-! ### Packets -/

structure Packet where
  head : CommandHead
  assocID : UInt16
  pktID : UInt16
  fragTotal : UInt8
  fragID : UInt8
  size : UInt16
  addr : Address
  data : Str
  deriving DecidableEq, Repr

def newPacket (assocID pktID : UInt16) (fragTotal fragID : UInt8) (size : UInt16) (addr : Address)
    (data : Str) :
    Packet :=
  { head := newCommandHead packetType, assocID, pktID, fragTotal, fragID, size, addr, data }

def readPacketWithHead (head : CommandHead) : Read Packet :=
  if head.type ≠ packetType then
    Read.fail (.invalid (ascii "error command type: " ++ commandTypeString head.type))
  else do
    let assocID ← Read.uint16
    let pktID ← Read.uint16
    let fragTotal ← Read.uint8
    let fragID ← Read.uint8
    let size ← Read.uint16
    let addr ← readAddress .v5
    let data ← Read.full size.toNat
    return { head, assocID, pktID, fragTotal, fragID, size, addr, data }

def readPacket : Read Packet := do
  let head ← readCommandHead
  readPacketWithHead head

def Packet.writeTo (c : Packet) : Str :=
  c.head.writeTo ++ Net.bytesBE 2 c.assocID.toNat ++ Net.bytesBE 2 c.pktID.toNat ++
    Net.bytesBE 1 c.fragTotal.toNat ++ Net.bytesBE 1 c.fragID.toNat ++ Net.bytesBE 2 c.size.toNat ++
    c.addr.writeTo .v5 ++ c.data

def Packet.received (c : Packet) : Packet :=
  if c.addr.type = atypNone then { c with addr := ⟨atypNone, [], 0⟩ } else c

theorem Address.Readable.type_ne {a : Address} (h : a.Readable) : a.type ≠ atypNone := by
  cases h with
  | ipv4 => exact (by decide : atypIPv4 ≠ atypNone)
  | ipv6 => exact (by decide : atypIPv6 ≠ atypNone)
  | domainName => exact (by decide : atypDomainName ≠ atypNone)

theorem readAddress_none {a : Address} (h : a.type = atypNone) (s : Str) :
    readAddress .v5 (a.writeTo .v5 ++ s) = .ok (⟨atypNone, [], 0⟩, s) := by
  rw [Address.writeTo, h]
  rfl

theorem readAddress_received {c : Packet} (h : c.addr.Readable ∨ c.addr.type = atypNone) (s : Str) :
    readAddress .v5 (c.addr.writeTo .v5 ++ s) = .ok (c.received.addr, s) := by
  obtain h | h := h
  · rw [Packet.received, if_neg h.type_ne]
    exact readAddress_writeTo .v5 h s
  · rw [Packet.received, if_pos h]
    exact readAddress_none h s

theorem readPacket_writeTo {c : Packet} (htype : c.head.type = packetType)
    (hsize : c.size.toNat = c.data.length) (haddr : c.addr.Readable ∨ c.addr.type = atypNone)
    (s : Str) : readPacket (c.writeTo ++ s) = .ok (c.received, s) := by
  have hhead : ∀ rest, readCommandHead (c.head.writeTo ++ rest) = .ok (c.head, rest) := fun rest => rfl
  simp only [Packet.writeTo, append_assoc]
  rw [readPacket, bind_ok (hhead _), readPacketWithHead, if_neg (not_not_intro htype),
    bind_ok (uint16_append ..), bind_ok (uint16_append ..),
    bind_ok (uint8_append ..), bind_ok (uint8_append ..),
    bind_ok (uint16_append ..), bind_ok (readAddress_received haddr _), hsize,
    bind_ok (full_append _)]
  unfold Packet.received
  split_ifs <;> rfl

/-! ### Fragmentation -/

/-- The loop of `fragWriteNative` from offset `off`; `packet` is the variable that loses its
address after the first round. As many rounds as there are bytes are enough. -/
def fragLoop (fullPayload : Str) (fragSize : Nat) : Nat → Packet → Nat → UInt8 → List Packet
  | 0, _, _, _ => []
  | rounds + 1, packet, off, fragID =>
    if off < fullPayload.length then
      let payloadSize := min (fullPayload.length - off) fragSize
      { packet with fragID, size := UInt16.ofNat payloadSize, data :=
        (fullPayload.drop off).take payloadSize } ::
        fragLoop fullPayload fragSize rounds
          { packet with addr := { packet.addr with type := atypNone } }
          (off + payloadSize) (fragID + 1)
    else []

/-- The fragments that `fragWriteNative` writes; each of them is one datagram. -/
def fragments (packet : Packet) (fragSize : Int) : Except Panic (List Packet) :=
  if fragSize = 0 then .error .divideByZero
  else if fragSize < 0 then
    -- the first slice of a payload would have a negative length
    if packet.data = [] then .ok [] else .error .sliceBounds
  else
    let size := fragSize.toNat
    let fragCount := UInt8.ofNat ((packet.data.length + size - 1) / size)
    .ok (fragLoop packet.data size packet.data.length { packet with fragTotal := fragCount } 0 0)

def fragWriteNative (packet : Packet) (fragSize : Int) : Except Panic (List Str) :=
  (map Packet.writeTo) <$> fragments packet fragSize

def fragment (packet : Packet) (size n i : Nat) : Packet :=
  { packet with
    fragTotal := UInt8.ofNat n
    fragID := UInt8.ofNat i
    size := UInt16.ofNat (pieceAt size packet.data i).length
    addr := if i = 0 then packet.addr else { packet.addr with type := atypNone }
    data := pieceAt size packet.data i }

theorem fragLoop_eq (packet : Packet) {size n : Nat} (hs : 0 < size) (rounds : Nat) {p : Packet}
    {i off : Nat}
    (hp : p = { packet with
      fragTotal := UInt8.ofNat n
      addr := if i = 0 then packet.addr else { packet.addr with type := atypNone } })
    (hoff : off = min (i * size) packet.data.length)
    (hrounds : pieceCount packet.data.length size - i ≤ rounds) :
    fragLoop packet.data size rounds p off (UInt8.ofNat i) =
      (range' i (pieceCount packet.data.length size - i)).map (fragment packet size n) := by
  induction rounds generalizing i off p with
  | zero =>
    rw [le_zero.mp hrounds]
    rfl
  | succ rounds ih =>
    rw [fragLoop]
    by_cases hi : i < pieceCount packet.data.length size
    · obtain ⟨hlt, hdata, hnext⟩ := pieceAt_of_offset hs hoff hi
      obtain ⟨k, hk⟩ : ∃ k, pieceCount packet.data.length size - i = k + 1 :=
        ⟨_, (Nat.sub_add_cancel (by omega)).symm⟩
      have hk' : k = pieceCount packet.data.length size - (i + 1) := by omega
      have hid : .ofNat i + 1 = UInt8.ofNat (i + 1) := (UInt8.ofNat_add i 1).symm
      have hlen : (pieceAt size packet.data i).length = min (packet.data.length - off) size := by
        rw [← hdata, length_take, length_drop]
        omega
      have hp' : { p with addr := { p.addr with type := atypNone } } = { packet with
          fragTotal := .ofNat n
          addr := if i + 1 = 0 then packet.addr else { packet.addr with type := atypNone } } := by
        rw [hp, if_neg (succ_ne_zero i)]
        split_ifs <;> rfl
      rw [if_pos hlt, hk, range'_succ, map_cons, hk', ← ih hp' hnext (by omega)]
      simp only [hid, hdata, hp, fragment, hlen]
    · rw [if_neg (offset_of_pieceCount_le hs hoff (not_lt.mp hi)).not_lt,
        Nat.sub_eq_zero_of_le (not_lt.mp hi)]
      rfl

theorem fragments_eq (packet : Packet) {fragSize : Int} (hsize : 0 < fragSize) :
    fragments packet fragSize = .ok ((range (pieceCount packet.data.length fragSize.toNat)).map
      (fragment packet fragSize.toNat (pieceCount packet.data.length fragSize.toNat))) := by
  have hs : 0 < fragSize.toNat := by omega
  have hle := pieceCount_le packet.data.length hs
  have hloop :=
    fragLoop_eq packet (n := pieceCount packet.data.length fragSize.toNat) hs packet.data.length
      rfl
    (show 0 = min (0 * _) _ by rw [zero_mul, Nat.zero_min]) (by omega)
  rw [← range_eq_range'] at hloop
  rw [fragments, if_neg (by omega), if_neg (by omega)]
  exact congrArg Except.ok hloop

theorem readPacket_fragment {packet : Packet} (htype : packet.head.type = packetType)
    (haddr : packet.addr.Readable) (hdata : packet.data.length ≤ 65535) (size n i : Nat) (s : Str) :
    readPacket ((fragment packet size n i).writeTo ++ s) =
      .ok ((fragment packet size n i).received, s) := by
  refine readPacket_writeTo (c := fragment packet size n i) htype ?_ ?_ s
  · have hlen := length_pieceAt size packet.data i
    change (UInt16.ofNat (pieceAt size packet.data i).length).toNat = (pieceAt size packet.data i).length
    rw [UInt16.toNat_ofNat']
    omega
  · rw [fragment]
    split_ifs
    · exact .inl haddr
    · exact .inr rfl

/-! ### Sending again what was too large -/

def CommandHead.bytesLen (_ : CommandHead) : Nat := 1 + 1

/-- The two bytes of the size are not counted. -/
def Packet.bytesLen (c : Packet) : Nat := c.head.bytesLen + 4 + 2 + c.addr.bytesLen + c.data.length

def newAddressAddrPort (addr : Net.Addr) (port : UInt16) : Address :=
  ⟨if addr.unmap.is4 then atypIPv4 else atypIPv6, addr.unmap.asSlice, port⟩

/-- A destination is a valid address with its port, or what `SetRemoteAddress` makes of its text. -/
def newAddressNetAddr : Net.Addr × UInt16 ⊕ Metadata → Address
  | .inl (addr, port) => newAddressAddrPort addr port
  | .inr metadata => newAddress metadata

def packetOverHead : Nat := (newPacket 0 0 0 0 0 (newAddressAddrPort (.ip .v6 0 []) 0) []).bytesLen

/-- The packet of `WriteTo`, cut for datagrams of at most `limit` bytes after one was too large. -/
def retry (connID pktID : UInt16) (dst : Net.Addr × UInt16 ⊕ Metadata) (p : Str) (limit : Int) :
    Except Panic (List Str) :=
  fragWriteNative (newPacket connID pktID 1 0 (UInt16.ofNat p.length) (newAddressNetAddr dst) p)
    (limit - packetOverHead)

theorem newAddressNetAddr_ne_none (dst : Net.Addr × UInt16 ⊕ Metadata) :
    isNone .v5 (newAddressNetAddr dst).type = false := by
  rcases dst with ⟨addr, port⟩ | metadata
  · change isNone .v5 (if addr.unmap.is4 then atypIPv4 else atypIPv6) = false
    split <;> rfl
  · exact newAddress_ne_none .v5 metadata

theorem length_packet_writeTo (c : Packet) :
    c.writeTo.length = 10 + (c.addr.writeTo .v5).length + c.data.length := by
  simp only [Packet.writeTo, CommandHead.writeTo, length_append, Net.bytesBE_length,
    length_cons, length_nil]

theorem length_fragment_zero (packet : Packet) (haddr : isNone .v5 packet.addr.type = false) (size n : Nat) :
    (fragment packet size n 0).writeTo.length = 10 + packet.addr.bytesLen + min size packet.data.length := by
  rw [length_packet_writeTo]
  change 10 + (packet.addr.writeTo .v5).length + (pieceAt size packet.data 0).length = _
  rw [length_writeTo .v5 haddr, length_pieceAt, zero_mul, Nat.sub_zero]

theorem length_fragment_succ (packet : Packet) (size n i : Nat) :
    (fragment packet size n (i + 1)).writeTo.length ≤ 11 + size := by
  rw [length_packet_writeTo]
  change 10 + 1 + (pieceAt size packet.data (i + 1)).length ≤ _
  rw [length_pieceAt]
  omega

/-- A second attempt fits if there is room beyond the overhead and the first fragment, the only one
with the address, has a short address or all the data. -/
theorem retry_fits_iff (connID pktID : UInt16) (dst : Net.Addr × UInt16 ⊕ Metadata) {p : Str}
    (hp : p ≠ []) (limit : Int) :
    (∃ datagrams, retry connID pktID dst p limit = .ok datagrams ∧
        ∀ datagram ∈ datagrams, (datagram.length : Int) ≤ limit) ↔
      packetOverHead < limit ∧ ((newAddressNetAddr dst).addr.length ≤ 14 ∨
        ((newAddressNetAddr dst).addr.length + 13 + p.length : Int) ≤ limit) := by
  have hover : packetOverHead = 27 := by decide
  have hpos : 0 < p.length := List.length_pos_of_ne_nil hp
  unfold retry
  generalize hpacket : newPacket connID pktID 1 0 (UInt16.ofNat p.length) (newAddressNetAddr dst) p = packet
  have hdata : packet.data = p := by rw [← hpacket]; rfl
  have haddr : packet.addr = newAddressNetAddr dst := by rw [← hpacket]; rfl
  have hfirst := length_fragment_zero packet (haddr ▸ newAddressNetAddr_ne_none dst)
    (limit - packetOverHead).toNat (pieceCount p.length (limit - packetOverHead).toNat)
  rw [haddr, hdata, Address.bytesLen] at hfirst
  rcases lt_or_ge (packetOverHead : Int) limit with hlimit | hlimit
  · have hsize : 0 < limit - packetOverHead := by omega
    rw [fragWriteNative, fragments_eq packet hsize, hdata]
    constructor
    · rintro ⟨_, ⟨⟩, hfits⟩
      have hzero : 0 < pieceCount p.length (limit - packetOverHead).toNat :=
        (lt_pieceCount_iff (by omega)).mpr (by omega)
      have hle := hfits _ (List.mem_map_of_mem (List.mem_map_of_mem (List.mem_range.mpr hzero)))
      omega
    · rintro ⟨-, hroom⟩
      refine ⟨_, rfl, ?_⟩
      simp only [List.mem_map, exists_exists_and_eq_and]
      rintro _ ⟨i, -, rfl⟩
      cases i with
      | zero => rw [hfirst]; omega
      | succ i =>
        have hle := length_fragment_succ packet (limit - packetOverHead).toNat
          (pieceCount p.length (limit - packetOverHead).toNat) i
        omega
  · -- Without room the call divides by zero or takes a slice of negative length.
    refine iff_of_false ?_ (fun h => absurd h.1 (not_lt.mpr hlimit))
    rintro ⟨datagrams, hok, -⟩
    have hne : packet.data ≠ [] := hdata ▸ hp
    unfold fragWriteNative fragments at hok
    split_ifs at hok with hzero hneg
    · cases hok
    · cases hok
    · omega

theorem retry_fits_ipv4 :
    ∃ datagrams, retry 0 0 (.inl (.ip .v4 0 [], 53)) [1, 2, 3] 29 = .ok datagrams ∧
      ∀ datagram ∈ datagrams, (datagram.length : Int) ≤ 29 :=
  (retry_fits_iff 0 0 (.inl (.ip .v4 0 [], 53)) (by decide) 29).mpr (by decide)

/-- With an IPv6 address the first datagram is again larger than the limit, by the two bytes that are
not counted. At a limit of 27 bytes the call divides by zero. -/
theorem retry_too_large :
    (retry 0 0 (.inl (.ip .v6 0 [], 53)) (List.replicate 20 0) 40).map (List.map List.length) =
        .ok [42, 18] ∧
      retry 0 0 (.inl (.ip .v6 0 [], 53)) [0] 27 = .error .divideByZero := by
  decide

end Mihomo.Tuic
