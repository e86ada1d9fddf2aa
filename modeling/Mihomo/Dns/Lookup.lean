import Mihomo.Dns.Message

/-!
# Address lookups of the resolver

`LookupIP` asks for both families at once. The lookup for AAAA runs beside the one for A and closes its
channel without a value when it fails; after the one for A the caller waits for the channel or for a
timer. Which of the two a `select` takes is an argument.
-/

namespace Mihomo.Dns
open Go Net List

inductive LookupError where
  | exchange (text : String)
  | ipVersion
  | ipNotFound
  deriving DecidableEq

/-- What a resolver depends on: `netip.ParseAddr` and the outcome of `ExchangeContext`. -/
structure Upstream where
  parseAddr : Str → Option Addr
  exchange : Str → UInt16 → Except String Msg

section
variable (u : Upstream) (host : Str)

def lookupIP (dnsType : UInt16) : Except LookupError (List Addr) :=
  match u.parseAddr host with
  | some ip =>
    if dnsType = typeAAAA ∧ !ip.unmap.is4 then .ok [ip.unmap]
    else if dnsType = typeA ∧ ip.unmap.is4 then .ok [ip.unmap]
    else .error .ipVersion
  | none =>
    match u.exchange host dnsType with
    | .error text => .error (.exchange text)
    | .ok msg => if msgToIP msg = [] then .error .ipNotFound else .ok (msgToIP msg)

def ipv6Channel : Option (List Addr) := (lookupIP u host typeAAAA).toOption

def lookupIPPrimaryIPv4 : Except LookupError (List Addr) :=
  match lookupIP u host typeA with
  | .ok ips => .ok ips
  | .error _ =>
    match ipv6Channel u host with
    | some ips => .ok ips
    | none => .error .ipNotFound

/-- `timer` says that the `select` takes the timer. -/
def lookupIPBoth (timer : Bool) : Except LookupError (List Addr) :=
  let ips := (lookupIP u host typeA).toOption
  if timer then .ok (ips.getD [])
  else
    match ips, ipv6Channel u host with
    | none, none => .error .ipNotFound
    | _, ipv6s => .ok (ips.getD [] ++ ipv6s.getD [])

def lookupIPv4 : Except LookupError (List Addr) := lookupIP u host typeA

def lookupIPv6 : Except LookupError (List Addr) := lookupIP u host typeAAAA

def Useful (r : Except LookupError (List Addr)) : Prop := ∀ ips, r = .ok ips → ips ≠ []

structure Sound (timer : Bool) : Prop where
  both : Useful (lookupIPBoth u host timer)
  primary : Useful (lookupIPPrimaryIPv4 u host)
  ipv4 : ∀ ips, lookupIPv4 u host = .ok ips → ∀ ip ∈ ips, ip.is4
  ipv6 : ∀ ips, lookupIPv6 u host = .ok ips → ∀ ip ∈ ips, ip.is6

def HasA : Prop :=
  match u.parseAddr host with
  | some ip => ip.unmap.is4
  | none => ∃ msg, u.exchange host typeA = .ok msg ∧ msgToIP msg ≠ []

def OnlyFamily (dnsType : UInt16) (is : Addr → Bool) : Prop :=
  u.parseAddr host = none → ∀ msg, u.exchange host dnsType = .ok msg → ∀ ip ∈ msgToIP msg, is ip

end

variable {u : Upstream} {host : Str}

theorem useful_lookupIP (dnsType : UInt16) : Useful (lookupIP u host dnsType) := by
  intro ips
  fun_cases lookupIP u host dnsType
  all_goals
    intro hips
    cases hips
  case case1 | case2 => exact cons_ne_nil _ _
  case case6 hne => exact hne

theorem useful_channel {ips : List Addr} (h : ipv6Channel u host = some ips) : ips ≠ [] := by
  unfold ipv6Channel at h
  cases hlookup : lookupIP u host typeAAAA with
  | error e =>
    rw [hlookup] at h
    cases h
  | ok found =>
    rw [hlookup] at h
    cases h
    exact useful_lookupIP typeAAAA _ hlookup

theorem useful_primary : Useful (lookupIPPrimaryIPv4 u host) := by
  intro ips
  fun_cases lookupIPPrimaryIPv4 u host
  all_goals
    intro hips
    cases hips
  case case1 hlookup => exact useful_lookupIP typeA _ hlookup
  case case2 hchannel => exact useful_channel hchannel

theorem hasA_iff : HasA u host ↔ ∃ ips, lookupIP u host typeA = .ok ips := by
  unfold HasA lookupIP
  cases u.parseAddr host with
  | some ip =>
    have hne : ¬ (typeA = typeAAAA ∧ (!ip.unmap.is4) = true) := fun h => absurd h.1 (by decide)
    simp only [hne]
    cases ip.unmap.is4 <;> simp
  | none =>
    cases u.exchange host typeA with
    | error text => simp
    | ok msg =>
      by_cases hnil : msgToIP msg = [] <;> simp [hnil]

theorem useful_both_iff (timer : Bool) :
    Useful (lookupIPBoth u host timer) ↔ (timer = true → HasA u host) := by
  rw [hasA_iff]
  unfold lookupIPBoth
  cases hlookup : lookupIP u host typeA with
  | ok found =>
    have hfound := useful_lookupIP typeA _ hlookup
    refine iff_of_true ?_ fun _ => ⟨found, rfl⟩
    intro ips hips
    cases timer
    · cases hips
      exact append_ne_nil_of_left_ne_nil hfound _
    · cases hips
      exact hfound
  | error e =>
    cases timer with
    | true =>
      refine iff_of_false (fun h => h [] rfl rfl) fun h => ?_
      obtain ⟨ips, hips⟩ := h rfl
      cases hips
    | false =>
      refine iff_of_true ?_ nofun
      intro ips hips
      cases hchannel : ipv6Channel u host with
      | none =>
        rw [hchannel] at hips
        cases hips
      | some found =>
        rw [hchannel] at hips
        cases hips
        exact useful_channel hchannel

theorem family_iff {dnsType : UInt16} {is : Addr → Bool}
    (hliteral : ∀ ip ips, u.parseAddr host = some ip → lookupIP u host dnsType = .ok ips →
      ∀ a ∈ ips, is a) :
    (∀ ips, lookupIP u host dnsType = .ok ips → ∀ ip ∈ ips, is ip) ↔
      OnlyFamily u host dnsType is := by
  constructor
  · intro h hparse msg hmsg ip hip
    refine h (msgToIP msg) ?_ ip hip
    unfold lookupIP
    rw [hparse, hmsg]
    exact if_neg (ne_nil_of_mem hip)
  · intro h ips hips
    cases hparse : u.parseAddr host with
    | some ip => exact hliteral ip ips hparse hips
    | none =>
      unfold lookupIP at hips
      rw [hparse] at hips
      cases hmsg : u.exchange host dnsType with
      | error text =>
        rw [hmsg] at hips
        cases hips
      | ok msg =>
        rw [hmsg] at hips
        dsimp only at hips
        split_ifs at hips
        cases hips
        exact h hparse msg hmsg

theorem unmap_is6 {ip : Addr} (hvalid : ip.isValid) (h : ip.unmap.is4 = false) : ip.unmap.is6 := by
  cases ip with
  | zero => exact absurd hvalid (by decide)
  | ip fam bits zone =>
    cases fam with
    | v4 => cases h
    | v6 =>
      simp only [Addr.unmap] at h ⊢
      split
      next hmapped =>
        rw [if_pos hmapped] at h
        cases h
      · rfl

/-- A lookup is sound if and only if an address for the A question is there when the timer is taken,
and the replies to the two questions carry only addresses of the family that was asked for. A parsed
literal is a valid address. -/
theorem sound_iff (u : Upstream) (hparse : ∀ s ip, u.parseAddr s = some ip → ip.isValid) (host : Str)
    (timer : Bool) : Sound u host timer ↔ (timer = true → HasA u host) ∧
      OnlyFamily u host typeA Addr.is4 ∧ OnlyFamily u host typeAAAA Addr.is6 := by
  have h4 : (∀ ips, lookupIPv4 u host = .ok ips → ∀ ip ∈ ips, ip.is4) ↔
      OnlyFamily u host typeA Addr.is4 := by
    refine family_iff fun ip ips hip hips => ?_
    unfold lookupIP at hips
    rw [hip] at hips
    dsimp only at hips
    split_ifs at hips with hsix hfour
    · exact absurd hsix.1 (by decide)
    · cases hips
      exact forall_mem_singleton.mpr hfour.2
  have h6 : (∀ ips, lookupIPv6 u host = .ok ips → ∀ ip ∈ ips, ip.is6) ↔
      OnlyFamily u host typeAAAA Addr.is6 := by
    refine family_iff fun ip ips hip hips => ?_
    unfold lookupIP at hips
    rw [hip] at hips
    dsimp only at hips
    split_ifs at hips with hsix hfour
    · cases hips
      refine forall_mem_singleton.mpr (unmap_is6 (hparse host ip hip) ?_)
      exact Bool.eq_false_iff.mpr (by simpa using hsix.2)
    · exact absurd hfour.1 (by decide)
  constructor
  · intro h
    exact ⟨(useful_both_iff timer).mp h.both, h4.mp h.ipv4, h6.mp h.ipv6⟩
  · rintro ⟨hboth, hfour, hsix⟩
    exact ⟨(useful_both_iff timer).mpr hboth, useful_primary, h4.mpr hfour, h6.mpr hsix⟩

/-- Both questions are answered with the record `::1` of type AAAA. -/
def mixedUpstream : Upstream where
  parseAddr _ := none
  exchange host dnsType := .ok
    { question := [⟨host, dnsType, classINET⟩]
      answer := [⟨host, 60, .aaaa (List.replicate 15 0 ++ [1])⟩] }

def silentUpstream : Upstream where
  parseAddr _ := none
  exchange _ _ := .error "all DNS requests failed"

theorem sound_iff_sample : Sound silentUpstream [97] false :=
  (sound_iff silentUpstream nofun [97] false).mpr ⟨nofun, nofun, nofun⟩

/-- No address and no error when both lookups fail and the timer is taken; an IPv6 address from
`LookupIPv4` when the reply to the A question has a record of the other type. -/
theorem lookup_unsound :
    lookupIPBoth silentUpstream [97] true = .ok [] ∧ ¬ Sound silentUpstream [97] true ∧
      (∃ ips, lookupIPv4 mixedUpstream [97] = .ok ips ∧ ∃ ip ∈ ips, ip.is4 = false) ∧
      ¬ Sound mixedUpstream [97] false := by
  have hmixed : lookupIPv4 mixedUpstream [97] = .ok [.at .v6 1] := by decide
  refine ⟨rfl, fun h => h.both [] rfl rfl, ⟨_, hmixed, _, mem_singleton_self _, rfl⟩, fun h => ?_⟩
  exact absurd (h.ipv4 _ hmixed _ (mem_singleton_self _)) (by decide)

end Mihomo.Dns
