import Mihomo.Go.Read

/-!
# Addresses in TUIC

An address is written as a type byte, the address bytes and a port. Version 5 has one type more than
version 4, for the fragments that carry no address.
-/

namespace Mihomo.Tuic
open Go UInt8 Read

inductive Version where
  | v4 | v5
  deriving DecidableEq, Repr

def atypDomainName : UInt8 := 0

def atypIPv4 : UInt8 := 1

def atypIPv6 : UInt8 := 2

def atypNone : UInt8 := 255

structure Address where
  type : UInt8
  addr : Str
  port : UInt16
  deriving DecidableEq, Repr

structure Metadata where
  host : Str
  dstIP : Net.Addr
  dstPort : UInt16

inductive AddrType where
  | ipv4 | domainName | ipv6
  deriving DecidableEq, Repr

def Metadata.addrType (m : Metadata) : AddrType :=
  if m.host ≠ [] then .domainName
  else
    match m.dstIP with
    | .zero => .domainName
    | .ip .v4 _ _ => .ipv4
    | .ip .v6 _ _ => .ipv6

def newAddress (m : Metadata) : Address :=
  match m.addrType with
  | .ipv4 => ⟨atypIPv4, m.dstIP.asSlice, m.dstPort⟩
  | .ipv6 => ⟨atypIPv6, m.dstIP.asSlice, m.dstPort⟩
  | .domainName => ⟨atypDomainName, ofNat m.host.length :: m.host, m.dstPort⟩

/-- The domain name case of `ReadAddress`: the size of the buffer is a byte, too, and its
first element is set before the rest is read. -/
def readDomainName : Read Str := do
  let addrLen ← Read.byte
  let size := addrLen + 1
  if size = 0 then Read.fail (.panic .indexOutOfRange)
  else
    let rest ← Read.full (size.toNat - 1)
    return addrLen :: rest

/-- The switch of `ReadAddress` over the type byte; other types have no address bytes. -/
def readAddr (type : UInt8) : Read Str :=
  if type = atypIPv4 then Read.full 4
  else if type = atypIPv6 then Read.full 16
  else if type = atypDomainName then readDomainName
  else return []

def isNone (v : Version) (type : UInt8) : Bool := v = .v5 ∧ type = atypNone

def readAddress (v : Version) : Read Address := do
  let type ← Read.byte
  let addr ← readAddr type
  if isNone v type then return ⟨type, addr, 0⟩
  else
    let port ← Read.uint16
    return ⟨type, addr, port⟩

namespace Address

def writeTo (v : Version) (a : Address) : Str :=
  if isNone v a.type then [a.type]
  else a.type :: (a.addr ++ Net.bytesBE 2 a.port.toNat)

def bytesLen (a : Address) : Nat := 1 + a.addr.length + 2

end Address

/-! ### Reading any stream -/

theorem readDomainName_panics_iff (s : Str) :
    (∃ p, readDomainName s = .error (.panic p)) ↔ ∃ rest, s = 255 :: rest := by
  constructor
  · rintro ⟨p, h⟩
    cases s with
    | nil => cases h
    | cons addrLen rest =>
      rw [readDomainName,
        bind_ok (show Read.byte (addrLen :: rest) = .ok (addrLen, rest) from rfl)] at h
      split_ifs at h with hsize
      · exact ⟨rest, by rw [eq_neg_of_add_eq_zero_left hsize]; rfl⟩
      · exact absurd h (((safe_full _).bind fun _ => .pure _) rest p)
  · rintro ⟨rest, rfl⟩
    exact ⟨.indexOutOfRange, rfl⟩

theorem safe_readAddr {type : UInt8} (h : type ≠ atypDomainName) : Read.Safe (readAddr type) := by
  unfold readAddr
  split_ifs
  · exact safe_full 4
  · exact safe_full 16
  · exact .pure []

theorem safe_port (v : Version) (type : UInt8) (addr : Str) :
    Read.Safe (if isNone v type then return (⟨type, addr, 0⟩ : Address)
      else do
        let port ← Read.uint16
        return ⟨type, addr, port⟩) := by
  split_ifs
  · exact .pure _
  · exact safe_uint16.bind fun _ => .pure _

theorem readAddress_cons (v : Version) (type : UInt8) (s : Str) :
    readAddress v (type :: s) = (readAddr type >>= fun addr =>
      if isNone v type then return (⟨type, addr, 0⟩ : Address)
      else do
        let port ← Read.uint16
        return ⟨type, addr, port⟩) s :=
  bind_ok (show Read.byte (type :: s) = .ok (type, s) from rfl)

theorem readAddress_panics_iff (v : Version) (s : Str) :
    (∃ p, readAddress v s = .error (.panic p)) ↔ ∃ rest, s = 0 :: 255 :: rest := by
  constructor
  · rintro ⟨p, h⟩
    cases s with
    | nil => cases h
    | cons type s =>
      rw [readAddress_cons] at h
      by_cases htype : type = atypDomainName
      · subst htype
        change (readDomainName >>= _) s = _ at h
        cases hread : readDomainName s with
        | ok r =>
          rw [bind_ok hread] at h
          exact absurd h (safe_port v atypDomainName r.1 r.2 p)
        | error e =>
          rw [bind_error hread, Except.error.injEq] at h
          obtain ⟨rest, rfl⟩ := (readDomainName_panics_iff s).mp ⟨p, h ▸ hread⟩
          exact ⟨rest, rfl⟩
      · exact absurd h (((safe_readAddr htype).bind (safe_port v type)) s p)
  · rintro ⟨rest, rfl⟩
    exact ⟨.indexOutOfRange, rfl⟩

/-! ### Reading what was written -/

inductive Address.Readable : Address → Prop where
  | ipv4 {addr : Str} (port : UInt16) (h : addr.length = 4) : Readable ⟨atypIPv4, addr, port⟩
  | ipv6 {addr : Str} (port : UInt16) (h : addr.length = 16) : Readable ⟨atypIPv6, addr, port⟩
  | domainName {host : Str} (port : UInt16) (h : host.length < 255) :
    Readable ⟨atypDomainName, ofNat host.length :: host, port⟩

variable {a : Address}

theorem isNone_eq_false {v : Version} (h : a.Readable) : isNone v a.type = false := by
  cases h <;> cases v <;> rfl

theorem Address.Readable.readAddr (h : a.Readable) (s : Str) :
    Tuic.readAddr a.type (a.addr ++ s) = .ok (a.addr, s) := by
  cases h with
  | @ipv4 addr port hlen =>
    have hfull := full_append (b := addr) s
    rwa [hlen] at hfull
  | @ipv6 addr port hlen =>
    have hfull := full_append (b := addr) s
    rwa [hlen] at hfull
  | @domainName host port hlen =>
    have hnat : (ofNat host.length).toNat = host.length := by
      rw [toNat_ofNat']
      omega
    have hsize : (ofNat host.length + 1).toNat = host.length + 1 := by
      rw [UInt8.toNat_add, toNat_one]
      omega
    have hne : ofNat host.length + 1 ≠ 0 := by
      intro h
      rw [h] at hsize
      cases hsize
    change readDomainName (ofNat host.length :: (host ++ s)) = _
    rw [readDomainName, bind_ok (show Read.byte (_ :: (host ++ s)) = .ok (_, host ++ s) from rfl),
      if_neg hne, hsize, Nat.add_sub_cancel, bind_ok (full_append s)]
    rfl

theorem readAddress_writeTo (v : Version) (h : a.Readable) (s : Str) :
    readAddress v (a.writeTo v ++ s) = .ok (a, s) := by
  have hnone := isNone_eq_false (v := v) h
  rw [Address.writeTo, hnone, if_neg Bool.false_ne_true, List.cons_append, List.append_assoc,
    readAddress_cons,
    bind_ok (h.readAddr _), hnone, if_neg Bool.false_ne_true, bind_ok (uint16_append ..)]
  rfl

theorem length_writeTo (v : Version) (h : isNone v a.type = false) :
    (a.writeTo v).length = a.bytesLen := by
  rw [Address.writeTo, h, if_neg Bool.false_ne_true, List.length_cons, List.length_append,
    Net.bytesBE_length,
    Address.bytesLen]
  omega

theorem readable_newAddress {m : Metadata} (h : m.addrType = .domainName → m.host.length < 255) :
    (newAddress m).Readable := by
  unfold newAddress
  cases htype : m.addrType with
  | domainName => exact .domainName m.dstPort (h htype)
  | ipv4 =>
    refine .ipv4 m.dstPort ?_
    unfold Metadata.addrType at htype
    split_ifs at htype
    split at htype
    · cases htype
    next hip =>
      rw [hip]
      exact Net.bytesBE_length ..
    · cases htype
  | ipv6 =>
    refine .ipv6 m.dstPort ?_
    unfold Metadata.addrType at htype
    split_ifs at htype
    split at htype
    · cases htype
    · cases htype
    next hip =>
      rw [hip]
      exact Net.bytesBE_length _ _

theorem newAddress_ne_none (v : Version) (m : Metadata) : isNone v (newAddress m).type = false := by
  unfold newAddress
  cases m.addrType <;> cases v <;> rfl

/-- `ReadAddress` panics exactly on the streams that begin with a domain name of 255 bytes, and
the address of a connection is read back, with all the bytes it was written in and no more,
exactly when it is not such a name. -/
theorem readAddress_spec (v : Version) :
    (∀ s, (∃ p, readAddress v s = .error (.panic p)) ↔ ∃ rest, s = 0 :: 255 :: rest) ∧
      ∀ m : Metadata, (m.addrType = .domainName → m.host.length ≤ 255) →
        ((newAddress m).writeTo v).length = (newAddress m).bytesLen ∧
        ∀ s, readAddress v ((newAddress m).writeTo v ++ s) = .ok (newAddress m, s) ↔
          ¬ (m.addrType = .domainName ∧ m.host.length = 255) := by
  refine ⟨readAddress_panics_iff v, fun m hm =>
    ⟨length_writeTo v (newAddress_ne_none v m), fun s => ⟨?_, ?_⟩⟩⟩
  · rintro hread ⟨htype, hlen⟩
    have hstart : (newAddress m).writeTo v ++ s =
        0 :: 255 :: (m.host ++ Net.bytesBE 2 m.dstPort.toNat ++ s) := by
      rw [Address.writeTo, newAddress_ne_none, newAddress, htype, hlen]
      rfl
    obtain ⟨p, hpanic⟩ := (readAddress_panics_iff v _).mpr ⟨_, hstart⟩
    rw [hread] at hpanic
    cases hpanic
  · intro h
    refine readAddress_writeTo v (readable_newAddress fun htype => ?_) s
    have hle := hm htype
    have hne : m.host.length ≠ 255 := fun hlen => h ⟨htype, hlen⟩
    omega

def longDestination : Metadata := ⟨List.replicate 255 97, .zero, 443⟩

/-- A domain name of 255 bytes is written, and reading it panics. -/
theorem readAddress_domain_panics :
    readAddress .v4 ((newAddress longDestination).writeTo .v4) = .error (.panic .indexOutOfRange) ∧
      readAddress .v5 ((newAddress longDestination).writeTo .v5) = .error (.panic .indexOutOfRange) := by
  decide +kernel

theorem readAddress_spec_domain :
    ((newAddress ⟨ascii "a.b", .zero, 443⟩).writeTo .v5).length = 7 ∧
      readAddress .v5 ((newAddress ⟨ascii "a.b", .zero, 443⟩).writeTo .v5 ++ [1, 2]) =
        .ok (newAddress ⟨ascii "a.b", .zero, 443⟩, [1, 2]) := by
  have h := (readAddress_spec .v5).2 ⟨ascii "a.b", .zero, 443⟩ (by decide)
  exact ⟨h.1, (h.2 [1, 2]).mpr (by decide)⟩

end Mihomo.Tuic
