import Mihomo.Go.Text
import Mihomo.Lib.Demand

/-!
# Sniffing TLS (component/sniffer/tls_sniffer.go)

The fields of a ClientHello are read one after the other; before each read the length is tested, and an
error names the length that is missing. The ClientHello comes in records, and a missing length is
translated to an offset of the wire. Indexing and slicing return `panic` when they are out of range.
-/

namespace Mihomo.Sniffer
open Go Lib List Nat UInt8
inductive SniffError where
  | noClue
  | notTLS
  | notClientHello
  | needAtLeast (length : Nat)
  | panic
deriving DecidableEq

def SniffError.needed : SniffError → Option Nat
  | .needAtLeast length => some length
  | _ => none

def tlsRecordHeaderLen : Nat := 5
def tlsHandshakeHeaderLen : Nat := 4
def tlsRecordTypeHandshake : UInt8 := 0x16
def tlsHandshakeTypeClientHello : UInt8 := 0x01
def tlsMaxPlaintext : Nat := 1 <<< 14

def byteAt (data : Str) (i : Nat) : Except SniffError UInt8 :=
  match data[i]? with
  | some byte => .ok byte
  | none => .error .panic

def uint16 (high low : UInt8) : Nat := high.toNat <<< 8 ||| low.toNat

def uint16At (data : Str) (i : Nat) : Except SniffError Nat := do
  let high ← byteAt data i
  let low ← byteAt data (i + 1)
  .ok (uint16 high low)

def sliceAt (data : Str) (low high : Nat) : Except SniffError Str :=
  if low ≤ high ∧ high ≤ data.length then .ok ((data.take high).drop low) else .error .panic

/-! ### The ClientHello -/

def clientHelloSize (data : Str) : Except SniffError Nat :=
  if data.length < tlsHandshakeHeaderLen then .error .noClue
  else do
    let first ← byteAt data 0
    if first ≠ tlsHandshakeTypeClientHello then .error .notClientHello
    else do
      let high ← byteAt data 1
      let middle ← byteAt data 2
      let low ← byteAt data 3
      let bodyLen := high.toNat <<< 16 ||| middle.toNat <<< 8 ||| low.toNat
      .ok (tlsHandshakeHeaderLen + bodyLen)

/-- The closure `need` of `ReadClientHello`. -/
def need (helloSize : Nat) (data : Str) (length : Nat) : Except SniffError Unit :=
  if helloSize < length then .error .notClientHello
  else if data.length < length then .error (.needAtLeast length)
  else .ok ()

def readSessionID (helloSize : Nat) (data : Str) : Except SniffError Nat := do
  let offset := tlsHandshakeHeaderLen + 2 + 32
  need helloSize data (offset + 1)
  let sessionIDLen ← byteAt data offset
  let sessionIDLen := sessionIDLen.toNat
  if 32 < sessionIDLen then .error .notClientHello
  else do
    need helloSize data (offset + 1 + sessionIDLen)
    .ok (offset + 1 + sessionIDLen)

def readCipherSuites (helloSize offset : Nat) (data : Str) : Except SniffError Nat := do
  need helloSize data (offset + 2)
  let cipherSuiteLen ← uint16At data offset
  if cipherSuiteLen % 2 = 1 then .error .notClientHello
  else do
    need helloSize data (offset + 2 + cipherSuiteLen)
    .ok (offset + 2 + cipherSuiteLen)

def readCompressionMethods (helloSize offset : Nat) (data : Str) : Except SniffError Nat := do
  need helloSize data (offset + 1)
  let compressionMethodsLen ← byteAt data offset
  let compressionMethodsLen := compressionMethodsLen.toNat
  need helloSize data (offset + 1 + compressionMethodsLen)
  .ok (offset + 1 + compressionMethodsLen)

def readExtensionsLength (helloSize offset : Nat) (data : Str) : Except SniffError Nat :=
  if offset = helloSize then .error .notClientHello
  else do
    need helloSize data (offset + 2)
    let extensionsLength ← uint16At data offset
    if offset + 2 + extensionsLength ≠ helloSize then .error .notClientHello
    else .ok (offset + 2)

def readNames (helloSize namesEnd offset : Nat) (data : Str) : Except SniffError (Option Str) :=
  if _h : offset < namesEnd then do
    need helloSize data (offset + 3)
    let nameType ← byteAt data offset
    let nameLen ← uint16At data (offset + 1)
    let nameEnd := offset + 3 + nameLen
    if namesEnd < nameEnd then .error .notClientHello
    else do
      need helloSize data nameEnd
      if nameType = 0 then do
        let serverName ← sliceAt data (offset + 3) nameEnd
        if serverName.getLast? = some 0x2E then .error .notClientHello else .ok (some serverName)
      else readNames helloSize namesEnd nameEnd data
  else .ok none
termination_by namesEnd - offset
decreasing_by omega

def readExtensions (helloSize extensionsEnd offset : Nat) (data : Str) : Except SniffError Str :=
  if _h : offset < extensionsEnd then do
    need helloSize data (offset + 4)
    let extension ← uint16At data offset
    let length ← uint16At data (offset + 2)
    let extensionEnd := offset + 4 + length
    if extensionsEnd < extensionEnd then .error .notClientHello
    else if extension = 0x00 then
      if length < 2 then .error .notClientHello
      else do
        need helloSize data (offset + 4 + 2)
        let namesLen ← uint16At data (offset + 4)
        if offset + 4 + 2 + namesLen ≠ extensionEnd then .error .notClientHello
        else do
          match ← readNames helloSize extensionEnd (offset + 4 + 2) data with
          | some serverName => .ok serverName
          | none => readExtensions helloSize extensionsEnd extensionEnd data
    else if extensionEnd = extensionsEnd then .error .notTLS
    else do
      need helloSize data extensionEnd
      readExtensions helloSize extensionsEnd extensionEnd data
  else .error .notTLS
termination_by extensionsEnd - offset
decreasing_by all_goals omega

/-- `ReadClientHello` behind the handshake header. -/
def readBody (helloSize : Nat) (data : Str) : Except SniffError Str := do
  let offset ← readSessionID helloSize data
  let offset ← readCipherSuites helloSize offset data
  let offset ← readCompressionMethods helloSize offset data
  let offset ← readExtensionsLength helloSize offset data
  readExtensions helloSize helloSize offset data

def readClientHello (data : Str) : Except SniffError Str :=
  if data.length = 0 then .error (.needAtLeast 1)
  else do
    let first ← byteAt data 0
    if first ≠ tlsHandshakeTypeClientHello then .error .notClientHello
    else if data.length < tlsHandshakeHeaderLen then .error (.needAtLeast tlsHandshakeHeaderLen)
    else do
      let helloSize ← clientHelloSize data
      readBody helloSize (data.take helloSize)

/-! ### Reading fields -/

section
variable {helloSize m : Nat} {ok : Nat → Prop} {i : Nat}

theorem reads_byteAt (h : i < m) : Reads SniffError.needed ok m (byteAt · i) fun _ => m := by
  have hget : ∀ b, m ≤ b.length → ∃ x, ∀ t, byteAt (b ++ t) i = .ok x := by
    intro b hb
    obtain ⟨x, hx⟩ : ∃ x, b[i]? = some x := ⟨_, getElem?_eq_getElem (by omega)⟩
    refine ⟨x, fun t => ?_⟩
    rw [byteAt, getElem?_append_left (by omega), hx]
  refine ⟨fun b hb => ?_, fun b hb n hd => ?_, fun b hb _ _ => hb⟩
  · obtain ⟨x, hx⟩ := hget b hb
    exact .of_const rfl hx
  · obtain ⟨x, hx⟩ := hget b hb
    have hb' := hx []
    rw [append_nil] at hb'
    rw [hb'] at hd
    cases hd

theorem reads_uint16At (h : i + 1 < m) : Reads SniffError.needed ok m (uint16At · i) fun _ => m :=
  (reads_byteAt (by omega)).bind fun _ => (reads_byteAt h).bind fun _ => .pure (le_refl _)

theorem reads_sliceAt {low high : Nat} (h : low ≤ high) (hm : high ≤ m) :
    Reads SniffError.needed ok m (sliceAt · low high) fun _ => m := by
  have hslice : ∀ b t, m ≤ b.length →
      sliceAt (b ++ t) low high = .ok ((b.take high).drop low) := by
    intro b t hb
    rw [sliceAt, if_pos ⟨h, by rw [length_append]; omega⟩, take_append_of_le_length (by omega)]
  refine ⟨fun b hb => .of_const rfl fun t => hslice b t hb, fun b hb n hd => ?_,
    fun b hb _ _ => hb⟩
  have hb' := hslice b [] hb
  rw [append_nil] at hb'
  rw [hb'] at hd
  cases hd

theorem reads_clientHelloSize : Reads SniffError.needed ok tlsHandshakeHeaderLen clientHelloSize
    fun _ => tlsHandshakeHeaderLen := by
  unfold tlsHandshakeHeaderLen
  refine .enough (le_refl _) ((reads_byteAt (by omega)).bind fun first => ?_)
  refine .ite (fun _ => .error rfl) fun _ => (reads_byteAt (by omega)).bind fun high => ?_
  refine (reads_byteAt (by omega)).bind fun middle => (reads_byteAt (by omega)).bind fun low => ?_
  exact .pure (le_refl _)

abbrev Part {β : Type} (helloSize m : Nat) (f : Str → Except SniffError β) (m' : β → Nat) : Prop :=
  Reads SniffError.needed (· ≤ helloSize) m f m'

theorem part_need (length : Nat) : Part helloSize m (need helloSize · length) fun _ => length := by
  refine .ite (fun _ => .error rfl) fun h => ?_
  exact .guard rfl (not_lt.mp h) (.pure (le_refl _))

theorem part_readSessionID : Part helloSize 0 (readSessionID helloSize) fun offset => offset := by
  refine (part_need _).bind fun _ => (reads_byteAt (lt_succ_self _)).bind fun len => ?_
  refine .ite (fun _ => .error rfl) fun _ => ?_
  exact (part_need _).bind fun _ => .pure (le_refl _)

theorem part_readCipherSuites (offset : Nat) :
    Part helloSize m (readCipherSuites helloSize offset) fun offset => offset := by
  refine (part_need _).bind fun _ => (reads_uint16At (lt_succ_self _)).bind fun len => ?_
  refine .ite (fun _ => .error rfl) fun _ => ?_
  exact (part_need _).bind fun _ => .pure (le_refl _)

theorem part_readCompressionMethods (offset : Nat) :
    Part helloSize m (readCompressionMethods helloSize offset) fun offset => offset := by
  refine (part_need _).bind fun _ => (reads_byteAt (lt_succ_self _)).bind fun len => ?_
  exact (part_need _).bind fun _ => .pure (le_refl _)

theorem part_readExtensionsLength (offset : Nat) :
    Part helloSize m (readExtensionsLength helloSize offset) fun offset => offset := by
  refine .ite (fun _ => .error rfl) fun _ => ?_
  refine (part_need _).bind fun _ => (reads_uint16At (lt_succ_self _)).bind fun len => ?_
  exact .ite (fun _ => .error rfl) fun _ => .pure (le_refl _)

theorem part_readNames (namesEnd offset : Nat) :
    Part helloSize offset (readNames helloSize namesEnd offset) fun name =>
      if name.isSome then 0 else namesEnd := by
  induction hn : namesEnd - offset using Nat.strong_induction_on generalizing offset with
  | _ n ih =>
    change Part helloSize offset (fun data => readNames helloSize namesEnd offset data) _
    unfold readNames
    by_cases h : offset < namesEnd
    · simp only [dif_pos h]
      refine (part_need _).bind fun _ => (reads_byteAt (by omega)).bind fun type => ?_
      refine (reads_uint16At (by omega)).bind fun len => ?_
      refine .ite (fun _ => .error rfl) fun hend => (part_need _).bind fun _ => ?_
      refine .ite (fun _ => ?_) fun _ => ih _ (by omega) _ rfl
      refine (reads_sliceAt (by omega) (le_refl _)).bind fun name => ?_
      exact .ite (fun _ => .error rfl) fun _ => .pure (zero_le _)
    · simp only [dif_neg h]
      exact .pure (not_lt.mp h)

theorem part_readExtensions (extensionsEnd offset : Nat) :
    Part helloSize offset (readExtensions helloSize extensionsEnd offset) fun _ => 0 := by
  induction hn : extensionsEnd - offset using Nat.strong_induction_on generalizing offset with
  | _ n ih =>
    change Part helloSize offset (fun data => readExtensions helloSize extensionsEnd offset data) _
    unfold readExtensions
    by_cases h : offset < extensionsEnd
    · simp only [dif_pos h]
      refine (part_need _).bind fun _ => (reads_uint16At (by omega)).bind fun extension => ?_
      refine (reads_uint16At (by omega)).bind fun len => .ite (fun _ => .error rfl) fun hend => ?_
      have hnext := ih _ (by omega) (offset + 4 + len) rfl
      refine .ite (fun _ => .ite (fun _ => .error rfl) fun _ => ?_) fun _ => ?_
      · refine (part_need _).bind fun _ => (reads_uint16At (by omega)).bind fun namesLen => ?_
        refine .ite (fun _ => .error rfl) fun _ => (part_readNames ..).bind fun name => ?_
        cases name with
        | some name => exact .pure (zero_le _)
        | none => exact hnext
      · exact .ite (fun _ => .error rfl) fun _ => (part_need _).bind fun _ => hnext
    · simp only [dif_neg h]
      exact .error rfl

theorem part_readBody : Part helloSize 0 (readBody helloSize) fun _ => 0 :=
  part_readSessionID.bind fun _ => (part_readCipherSuites _).bind fun _ =>
    (part_readCompressionMethods _).bind fun _ => (part_readExtensionsLength _).bind fun _ =>
      part_readExtensions _ _

theorem readClientHello_stable : PrefixStable SniffError.needed readClientHello := by
  have hreads : Reads SniffError.needed (fun _ => True) 0 readClientHello fun _ => 0 := by
    unfold readClientHello
    simp only [← lt_one_iff]
    refine .guard rfl trivial ((reads_byteAt (by omega)).bind fun first => ?_)
    refine .ite (fun _ => .error rfl) fun _ => .guard rfl trivial ?_
    exact reads_clientHelloSize.bind fun helloSize => part_readBody.take fun _ _ => trivial
  exact hreads.prefixStable

end

/-! ### Records -/

def isValidTLSVersion (major _minor : UInt8) : Bool := major == 3

def readRecordHeader (wireOffset : Nat) (b : Str) : Except SniffError Nat :=
  if b.length < wireOffset + tlsRecordHeaderLen then
    .error (.needAtLeast (wireOffset + tlsRecordHeaderLen))
  else do
    let header ← sliceAt b wireOffset (wireOffset + tlsRecordHeaderLen)
    let type ← byteAt header 0
    let major ← byteAt header 1
    let minor ← byteAt header 2
    if type ≠ tlsRecordTypeHandshake ∨ isValidTLSVersion major minor = false then .error .notTLS
    else do
      let recordLen ← uint16At header 3
      if tlsMaxPlaintext < recordLen then .error .notTLS
      else if recordLen = 0 then .error .notClientHello
      else .ok recordLen

theorem demand_byteAt (data : Str) (i : Nat) : demand SniffError.needed (byteAt data i) = none := by
  unfold byteAt
  split <;> rfl

theorem demand_uint16At (data : Str) (i : Nat) : demand SniffError.needed (uint16At data i) = none := by
  unfold uint16At byteAt
  split
  · split <;> rfl
  · rfl

theorem reads_readRecordHeader (wireOffset : Nat) : Reads SniffError.needed (fun _ => True) 0
    (readRecordHeader wireOffset) fun _ => wireOffset + tlsRecordHeaderLen := by
  refine .guard rfl trivial ((reads_sliceAt (by omega) (le_refl _)).bind fun header => ?_)
  refine (Reads.const (demand_byteAt header 0) fun _ => le_refl _).bind fun type => ?_
  refine (Reads.const (demand_byteAt header 1) fun _ => le_refl _).bind fun major => ?_
  refine (Reads.const (demand_byteAt header 2) fun _ => le_refl _).bind fun minor => ?_
  refine .ite (fun _ => .error rfl) fun _ => ?_
  refine (Reads.const (demand_uint16At header 3) fun _ => le_refl _).bind fun recordLen => ?_
  exact .ite (fun _ => .error rfl) fun _ => .ite (fun _ => .error rfl) fun _ => .pure (le_refl _)

theorem le_of_readRecordHeader {wireOffset recordLen : Nat} {b : Str}
    (h : readRecordHeader wireOffset b = .ok recordLen) : wireOffset + tlsRecordHeaderLen ≤ b.length :=
  (reads_readRecordHeader wireOffset).reaches b (zero_le _) h

def payloadEndOf (b : Str) (wireOffset recordLen : Nat) : Nat :=
  max (min b.length (wireOffset + tlsRecordHeaderLen + recordLen)) (wireOffset + tlsRecordHeaderLen)

def joinPayload (b clientHello : Str) (wireOffset recordLen : Nat) : Str :=
  let payload := (b.take (payloadEndOf b wireOffset recordLen)).drop (wireOffset + tlsRecordHeaderLen)
  if wireOffset = 0 then payload else clientHello ++ payload

/-- The loop of `SniffTLS`. -/
def sniffRecords (b clientHello : Str) (wireOffset : Nat) : Except SniffError Str :=
  match _hheader : readRecordHeader wireOffset b with
  | .error err => .error err
  | .ok recordLen =>
    let recordEnd := wireOffset + tlsRecordHeaderLen + recordLen
    let payloadEnd := payloadEndOf b wireOffset recordLen
    let clientHello := joinPayload b clientHello wireOffset recordLen
    match readClientHello clientHello with
    | .ok domain => .ok domain
    | .error (.needAtLeast length) =>
      if payloadEnd < recordEnd then
        -- The length is translated back to the wire, up to the end of this record.
        let missing := min (length - clientHello.length) (recordEnd - payloadEnd)
        .error (.needAtLeast (payloadEnd + missing))
      else sniffRecords b clientHello recordEnd
    | .error err => .error err
termination_by b.length - wireOffset
decreasing_by
  have hle := le_of_readRecordHeader _hheader
  simp only [tlsRecordHeaderLen] at *
  omega

def sniffTLS (b : Str) : Except SniffError Str := sniffRecords b [] 0

/-- What follows a try to read the ClientHello: `wait` runs when it asks for a length. -/
def orWait (r : Except SniffError Str) (wait : Nat → Except SniffError Str) : Except SniffError Str :=
  match demand SniffError.needed r with
  | some length => wait length
  | none => r

def sniffPayload (clientHello : Str) (wireOffset recordLen : Nat) (b : Str) : Except SniffError Str :=
  let recordEnd := wireOffset + tlsRecordHeaderLen + recordLen
  let payloadEnd := payloadEndOf b wireOffset recordLen
  let clientHello := joinPayload b clientHello wireOffset recordLen
  orWait (readClientHello clientHello) fun length =>
    if payloadEnd < recordEnd then
      .error (.needAtLeast (payloadEnd + min (length - clientHello.length) (recordEnd - payloadEnd)))
    else sniffRecords b clientHello recordEnd

theorem sniffRecords_eq (clientHello : Str) (wireOffset : Nat) (b : Str) :
    sniffRecords b clientHello wireOffset =
      (readRecordHeader wireOffset b >>= fun recordLen =>
        sniffPayload clientHello wireOffset recordLen b) := by
  rw [sniffRecords]
  split
  next hheader =>
    rw [hheader]
    rfl
  next recordLen hheader =>
    rw [hheader]
    change _ = orWait ..
    dsimp only
    split
    next hread =>
      rw [hread]
      rfl
    next hread =>
      rw [hread]
      rfl
    next err hne hread =>
      rw [hread]
      cases err with
      | needAtLeast length => exact absurd rfl (hne length)
      | noClue | notTLS | notClientHello | panic => rfl

variable {r : Except SniffError Str}

theorem orWait_of_none (h : demand SniffError.needed r = none)
    (wait : Nat → Except SniffError Str) : orWait r wait = r := by
  rw [orWait, h]

theorem orWait_of_some {n : Nat} (h : demand SniffError.needed r = some n)
    (wait : Nat → Except SniffError Str) : orWait r wait = wait n := by
  rw [orWait, h]

section
variable {b clientHello : Str} {wireOffset recordLen : Nat}

theorem payloadEndOf_eq (hb : wireOffset + tlsRecordHeaderLen ≤ b.length) :
    payloadEndOf b wireOffset recordLen =
      min b.length (wireOffset + tlsRecordHeaderLen + recordLen) := by
  unfold payloadEndOf
  omega

theorem joinPayload_append (clientHello : Str) (recordLen : Nat)
    (hb : wireOffset + tlsRecordHeaderLen ≤ b.length) (t : Str) :
    joinPayload (b ++ t) clientHello wireOffset recordLen =
      joinPayload b clientHello wireOffset recordLen ++
        t.take (wireOffset + tlsRecordHeaderLen + recordLen - b.length) := by
  have htake : ∀ c : Str, wireOffset + tlsRecordHeaderLen ≤ c.length →
      c.take (payloadEndOf c wireOffset recordLen) =
        c.take (wireOffset + tlsRecordHeaderLen + recordLen) := by
    intro c hc
    rw [payloadEndOf_eq hc, take_eq_take_iff]
    omega
  have happend : wireOffset + tlsRecordHeaderLen ≤ (b ++ t).length := by
    rw [length_append]
    omega
  unfold joinPayload
  rw [htake b hb, htake _ happend, take_append, drop_append_of_le_length
    (by rw [length_take]; omega)]
  split
  · rfl
  · rw [append_assoc]

variable {length : Nat}

/-- A record of which a part is missing: the reader waits for the length or for the end of the record. -/
theorem sniffPayload_of_short (hb : wireOffset + tlsRecordHeaderLen ≤ b.length)
    (hshort : b.length < wireOffset + tlsRecordHeaderLen + recordLen)
    (hd : demand SniffError.needed
      (readClientHello (joinPayload b clientHello wireOffset recordLen)) = some length) :
    sniffPayload clientHello wireOffset recordLen b = .error (.needAtLeast
      (b.length + min (length - (joinPayload b clientHello wireOffset recordLen).length)
        (wireOffset + tlsRecordHeaderLen + recordLen - b.length))) := by
  have hend : payloadEndOf b wireOffset recordLen = b.length := by
    rw [payloadEndOf_eq hb]
    omega
  unfold sniffPayload
  rw [orWait_of_some hd, hend, if_pos hshort]

theorem sniffPayload_of_full
    (hfull : wireOffset + tlsRecordHeaderLen + recordLen ≤ b.length)
    (hd : demand SniffError.needed
      (readClientHello (joinPayload b clientHello wireOffset recordLen)) = some length) :
    sniffPayload clientHello wireOffset recordLen b =
      sniffRecords b (joinPayload b clientHello wireOffset recordLen)
        (wireOffset + tlsRecordHeaderLen + recordLen) := by
  have hend : payloadEndOf b wireOffset recordLen = wireOffset + tlsRecordHeaderLen + recordLen := by
    rw [payloadEndOf_eq (by omega)]
    omega
  unfold sniffPayload
  rw [orWait_of_some hd, hend, if_neg (lt_irrefl _)]

theorem sniffPayload_stableAt (hb : wireOffset + tlsRecordHeaderLen ≤ b.length)
    (hnext : wireOffset + tlsRecordHeaderLen + recordLen ≤ b.length → ∀ clientHello,
      StableAt SniffError.needed
        (fun c => sniffRecords c clientHello (wireOffset + tlsRecordHeaderLen + recordLen)) b) :
    StableAt SniffError.needed (sniffPayload clientHello wireOffset recordLen) b := by
  have hjoin := joinPayload_append clientHello recordLen hb
  have hread := readClientHello_stable (joinPayload b clientHello wireOffset recordLen)
  cases hd : demand SniffError.needed
      (readClientHello (joinPayload b clientHello wireOffset recordLen)) with
  | none =>
    refine .of_const hd fun t => ?_
    rw [sniffPayload, hjoin, hread.decided _ hd, orWait_of_none hd]
  | some length =>
    have hlt := hread.short hd
    by_cases hshort : b.length < wireOffset + tlsRecordHeaderLen + recordLen
    · have hf := sniffPayload_of_short hb hshort hd
      have hneeded : ∀ {n}, demand SniffError.needed (sniffPayload clientHello wireOffset recordLen b) =
          some n → n = b.length + min (length - (joinPayload b clientHello wireOffset recordLen).length)
            (wireOffset + tlsRecordHeaderLen + recordLen - b.length) := by
        intro n hn
        rw [hf] at hn
        exact (Option.some.inj hn).symm
      refine ⟨fun t hn => ?_, fun {n} hn => ?_, fun t n hn hlt' => ?_⟩
      · rw [hf] at hn
        cases hn
      · rw [hneeded hn]
        omega
      · -- The extension still ends before the length and before the end of the record.
        rw [hneeded hn, length_append] at hlt'
        have hext := hjoin t
        rw [take_of_length_le (by omega : t.length ≤ _)] at hext
        have hd' := hread.waits t hd (by rw [length_append]; omega)
        rw [← hext] at hd'
        have hf' : sniffPayload clientHello wireOffset recordLen (b ++ t) = _ :=
          sniffPayload_of_short (by rw [length_append]; omega)
            (by rw [length_append]; omega) (by rw [hd', hd])
        rw [hf, hf', hext, length_append, length_append]
        congr 2
        omega
    · have hfull := not_lt.mp hshort
      refine (hnext hfull (joinPayload b clientHello wireOffset recordLen)).congr fun t => ?_
      have hext := hjoin t
      rw [show wireOffset + tlsRecordHeaderLen + recordLen - b.length = 0 by omega, take_zero,
        append_nil] at hext
      rw [sniffPayload_of_full (by rw [length_append]; omega) (by rw [hext, hd]), hext]

theorem sniffRecords_stableAt :
    StableAt SniffError.needed (fun c => sniffRecords c clientHello wireOffset) b := by
  induction hn : b.length - wireOffset using Nat.strong_induction_on
    generalizing clientHello wireOffset with
  | _ n ih =>
    refine .congr (.bind ((reads_readRecordHeader wireOffset).stable b (zero_le _))
      fun recordLen hheader => ?_) fun t => sniffRecords_eq clientHello wireOffset (b ++ t)
    refine sniffPayload_stableAt (le_of_readRecordHeader hheader) fun hle => ?_
    intro clientHello
    exact ih _ (by unfold tlsRecordHeaderLen at *; omega) rfl

end

theorem sniffTLS_stable : PrefixStable SniffError.needed sniffTLS := fun _ => sniffRecords_stableAt

/-! ### Fragmentation -/

structure Record where
  minor : UInt8
  payload : Str
  ne_nil : payload ≠ []
  le : payload.length ≤ tlsMaxPlaintext

def Record.wire (r : Record) : Str :=
  [tlsRecordTypeHandshake, 3, r.minor, ofNat (r.payload.length / 256),
    ofNat r.payload.length] ++ r.payload

def verdict (r : Except SniffError Str) : Except SniffError Str :=
  match demand SniffError.needed r with
  | some _ => .error (.needAtLeast 0)
  | none => r

theorem Record.length_wire (r : Record) : r.wire.length = tlsRecordHeaderLen + r.payload.length := by
  rw [Record.wire, length_append]
  rfl

theorem uint16_length (r : Record) :
    uint16 (ofNat (r.payload.length / 256)) (ofNat r.payload.length) = r.payload.length := by
  have hle := r.le
  have hlow : r.payload.length % 256 < 2 ^ 8 := mod_lt _ (by omega)
  unfold tlsMaxPlaintext at hle
  rw [uint16, toNat_ofNat', toNat_ofNat', ← shiftLeft_add_eq_or_of_lt hlow]
  omega

theorem readRecordHeader_wire (done : Str) (r : Record) (rest : Str) :
    readRecordHeader done.length (done ++ (r.wire ++ rest)) = .ok r.payload.length := by
  have hlength : done.length + tlsRecordHeaderLen ≤ (done ++ (r.wire ++ rest)).length := by
    rw [length_append, length_append, r.length_wire]
    omega
  have hslice : sliceAt (done ++ (r.wire ++ rest)) done.length (done.length + tlsRecordHeaderLen) =
      .ok [tlsRecordTypeHandshake, 3, r.minor, ofNat (r.payload.length / 256),
        ofNat r.payload.length] := by
    rw [sliceAt, if_pos ⟨le_add_right _ _, hlength⟩, take_length_add_append, drop_left]
    rfl
  have hpos := length_pos_iff.mpr r.ne_nil
  have hle := r.le
  unfold readRecordHeader
  rw [if_neg (not_lt.mpr hlength), hslice]
  change (if tlsMaxPlaintext < uint16 _ _ then _ else _) = _
  rw [uint16_length, if_neg (by omega), if_neg (by omega)]

theorem joinPayload_wire (done : Str) (r : Record) (rest clientHello : Str)
    (hstart : done = [] → clientHello = []) :
    joinPayload (done ++ (r.wire ++ rest)) clientHello done.length r.payload.length =
      clientHello ++ r.payload := by
  have hend : payloadEndOf (done ++ (r.wire ++ rest)) done.length r.payload.length =
      done.length + r.wire.length := by
    rw [payloadEndOf, length_append, length_append, r.length_wire]
    omega
  have hpayload : ((done ++ (r.wire ++ rest)).take (done.length + r.wire.length)).drop
      (done.length + tlsRecordHeaderLen) = r.payload := by
    rw [take_length_add_append, take_left, drop_length_add_append]
    rfl
  unfold joinPayload
  rw [hend, hpayload]
  split
  next hzero =>
    rw [hstart (length_eq_zero_iff.mp hzero), nil_append]
  · rfl

theorem verdict_of_some (h : demand SniffError.needed r ≠ none) :
    verdict r = .error (.needAtLeast 0) := by
  unfold verdict
  split
  · rfl
  · contradiction

theorem verdict_sniffRecords (records : List Record) (done clientHello : Str)
    (hstart : done = [] → clientHello = [])
    (hasks : demand SniffError.needed (readClientHello clientHello) ≠ none) :
    verdict (sniffRecords (done ++ records.flatMap Record.wire) clientHello done.length) =
      verdict (readClientHello (clientHello ++ records.flatMap Record.payload)) := by
  induction records generalizing done clientHello with
  | nil =>
    have hshort : sniffRecords (done ++ []) clientHello done.length =
        .error (.needAtLeast (done.length + tlsRecordHeaderLen)) := by
      rw [append_nil, sniffRecords_eq, readRecordHeader,
        if_pos (Nat.lt_add_of_pos_right (by decide))]
      rfl
    rw [flatMap_nil, flatMap_nil, hshort, append_nil, verdict_of_some hasks]
    rfl
  | cons r records ih =>
    have hjoin := joinPayload_wire done r (records.flatMap Record.wire) clientHello hstart
    have hread := readClientHello_stable (clientHello ++ r.payload)
    rw [flatMap_cons, flatMap_cons, sniffRecords_eq, readRecordHeader_wire]
    change verdict (sniffPayload ..) = _
    cases hd : demand SniffError.needed (readClientHello (clientHello ++ r.payload)) with
    | none =>
      rw [sniffPayload, hjoin, orWait_of_none hd, ← append_assoc, hread.decided _ hd]
    | some length =>
      have hlength : (done ++ r.wire).length = done.length + tlsRecordHeaderLen + r.payload.length := by
        rw [length_append, r.length_wire, Nat.add_assoc]
      have hfull : done.length + tlsRecordHeaderLen + r.payload.length ≤
          (done ++ (r.wire ++ records.flatMap Record.wire)).length := by
        rw [← hlength, ← append_assoc]
        exact (prefix_append ..).length_le
      rw [sniffPayload_of_full hfull (by rw [hjoin, hd]), hjoin, ← hlength, ← append_assoc,
        ← append_assoc]
      apply ih
      · intro hnil
        have hwire := (append_eq_nil_iff.mp hnil).2
        cases hwire
      · rw [hd]
        exact Option.some_ne_none length

/-- A verdict does not change when more arrives, a reader that asks for a length asks until it has it,
and a ClientHello has the same verdict in every sequence of records. -/
theorem tls_verdict_stable :
    PrefixStable SniffError.needed sniffTLS ∧ PrefixStable SniffError.needed readClientHello ∧
      ∀ records : List Record, verdict (sniffTLS (records.flatMap Record.wire)) =
        verdict (readClientHello (records.flatMap Record.payload)) := by
  refine ⟨sniffTLS_stable, readClientHello_stable, fun records => ?_⟩
  exact verdict_sniffRecords records [] [] (fun _ => rfl) (by decide)

end Mihomo.Sniffer
