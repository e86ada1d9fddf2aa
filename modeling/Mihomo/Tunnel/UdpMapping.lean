import Mathlib.Data.List.AList
import Mihomo.Go.Case
import Mihomo.Lib.Run
import Mihomo.Net.Addr

/-!
# Destination identities of a packet sender

A packet sender remembers which local address, normally a fake IP, an application used for each remote
target. `restoreReadFrom` finds the local address for the source of a reply: from a target that was
resolved here, from a domain name, from an address learned before, or from the domain that was last
asked for the port, in which case the address is learned. The parser of a destination is a parameter.
-/

namespace Mihomo.Tunnel.Udp
open Go Net Lib AList

/-- The fields of `Metadata` that name the destination. -/
structure Metadata where
  host : Str
  dstIP : Addr
  dstPort : UInt16
  deriving DecidableEq

/-- `M.Socksaddr`: a domain name or an address, never both. -/
inductive Socksaddr where
  | none
  | fqdn (name : Str) (port : UInt16)
  | ip (addr : Addr) (port : UInt16)
  deriving DecidableEq

def Socksaddr.isValid : Socksaddr → Bool
  | none => false
  | fqdn .. => true
  | ip addr _ => addr.isValid

structure PrepareKey where
  host : Str
  ip : Addr
  port : UInt16
  deriving DecidableEq

def udpPacketKey (m : Metadata) : PrepareKey :=
  if m.host ≠ [] then ⟨m.host, .zero, m.dstPort⟩ else ⟨[], m.dstIP, m.dstPort⟩

/-- `udpDestination`, for a parser of the text of a host. -/
def udpDestination (parse : Str → UInt16 → Socksaddr) (m : Metadata) : Socksaddr :=
  if m.dstIP.isValid then .ip m.dstIP.unmap m.dstPort
  else if m.host ≠ [] then parse m.host m.dstPort
  else .none

def canonicalUDPDomain (domain : Str) : Str :=
  let lower := toLower domain
  if lower.getLast? = some 46 then lower.dropLast else lower

structure RemoteDomainTarget where
  origin : Addr
  ports : UInt16 → Option Nat

def maxLearnedTargets : Nat := 512

/-- The maps of a `packetSender`. -/
structure Mapping where
  preparedTargets : PrepareKey → Socksaddr
  targetToOrigin : Addr → Addr
  remoteDomains : AList fun _ : Str => RemoteDomainTarget
  learnedTargetToOrigin : AList fun _ : Addr => Addr
  sendSeq : Nat

namespace Mapping

def new : Mapping where
  preparedTargets := fun _ => .none
  targetToOrigin := fun _ => .zero
  remoteDomains := ∅
  learnedTargetToOrigin := ∅
  sendSeq := 0

variable (s : Mapping)

def forgetLearnedForOrigin (origin : Addr) : Mapping :=
  if !origin.isValid then s
  else
    { s with learnedTargetToOrigin :=
        { entries := s.learnedTargetToOrigin.entries.filter fun e => e.2 ≠ origin
          nodupKeys := s.learnedTargetToOrigin.nodupKeys.sublist List.filter_sublist } }

def adopt (origin : Addr) (domain : Str) : Mapping × RemoteDomainTarget :=
  match s.remoteDomains.lookup domain with
  | none => (s, ⟨origin, fun _ => none⟩)
  | some target =>
    if target.origin ≠ origin then
      (s.forgetLearnedForOrigin target.origin, { target with origin })
    else (s, target)

def addRemote (origin : Addr) (domain : Str) (port : UInt16) : Mapping :=
  let (s, target) := s.adopt origin domain
  if port ≠ 0 then
    let target := { target with ports := Function.update target.ports port (some (s.sendSeq + 1)) }
    { s with remoteDomains := s.remoteDomains.insert domain target, sendSeq := s.sendSeq + 1 }
  else { s with remoteDomains := s.remoteDomains.insert domain target }

def addExact (origin target : Addr) : Mapping :=
  { s with
    targetToOrigin :=
      if (s.targetToOrigin target).isValid then s.targetToOrigin
      else Function.update s.targetToOrigin target origin
    learnedTargetToOrigin := s.learnedTargetToOrigin.erase target }

def prepare (key : PrepareKey) (target : Socksaddr) : Mapping :=
  if !(s.preparedTargets key).isValid ∧ target.isValid then
    { s with preparedTargets := Function.update s.preparedTargets key target }
  else s

def addMapping (parse : Str → UInt16 → Socksaddr) (origin metadata : Metadata) : Mapping :=
  let originAddr := origin.dstIP.unmap
  let target := udpDestination parse metadata
  let s := s.prepare (udpPacketKey origin) target
  if !originAddr.isValid ∨ !target.isValid then s
  else
    match target with
    | .fqdn name _ => s.addRemote originAddr (canonicalUDPDomain name) metadata.dstPort
    | .ip addr _ => s.addExact originAddr addr.unmap
    | .none => s

def newer (port : UInt16) (best : Option (Str × Addr × Nat)) (domain : Str) :
    Option (Str × Addr × Nat) :=
  match s.remoteDomains.lookup domain with
  | none => best
  | some target =>
    match target.ports port with
    | none => best
    | some seq =>
      if !target.origin.isValid then best
      else
        match best with
        | none => some (domain, target.origin, seq)
        | some (_, _, newest) => if newest < seq then some (domain, target.origin, seq) else best

/-- `remoteOriginForPortLocked`, for the order in which the loop visits the map. -/
def remoteOriginForPort (visit : List Str) (port : UInt16) : Option (Str × Addr) :=
  if port = 0 then none
  else (visit.foldl (s.newer port) none).map fun best => (best.1, best.2.1)

inductive Cause where
  | unknown
  | exact
  | name (domain : Str)
  | learned (target : Addr)
  | port (domain : Str)
  deriving DecidableEq

def known (source : Addr) : Option (Addr × Cause) :=
  if (s.targetToOrigin source).isValid then some (s.targetToOrigin source, .exact)
  else
    match s.learnedTargetToOrigin.lookup source with
    | some origin => if origin.isValid then some (origin, .learned source) else none
    | none => none

def learn (visit : List Str) (source : Addr) (port : UInt16) : Addr × Cause × Mapping :=
  match s.known source with
  | some (origin, cause) => (origin, cause, s)
  | none =>
    match s.remoteOriginForPort visit port with
    | some (domain, origin) =>
      if s.learnedTargetToOrigin.keys.length < maxLearnedTargets then
        (origin, .port domain,
          { s with learnedTargetToOrigin := s.learnedTargetToOrigin.insert source origin })
      else (source, .unknown, s)
    | none => (source, .unknown, s)

/-- `RestoreReadFrom`: the address, why it was chosen, and the maps afterwards. The remote domains are
visited twice, in any two orders. -/
def restoreReadFrom (first second : List Str) (source : Socksaddr) : Addr × Cause × Mapping :=
  match source with
  | .none => (.zero, .unknown, s)
  | .fqdn name _ =>
    match s.remoteDomains.lookup (canonicalUDPDomain name) with
    | some target => (target.origin, .name (canonicalUDPDomain name), s)
    | none => (.zero, .unknown, s)
  | .ip addr port =>
    if !addr.unmap.isValid then (.zero, .unknown, s)
    else
      match s.known addr.unmap with
      | some (origin, cause) => (origin, cause, s)
      | none =>
        if (s.remoteOriginForPort first port).isSome ∧
            s.learnedTargetToOrigin.keys.length < maxLearnedTargets then
          s.learn second addr.unmap port
        else (addr.unmap, .unknown, s)

variable {s}

theorem forgetLearnedForOrigin_remoteDomains (origin : Addr) :
    (s.forgetLearnedForOrigin origin).remoteDomains = s.remoteDomains := by
  unfold forgetLearnedForOrigin
  split <;> rfl

variable {origin source found : Addr} {domain : Str} {port : UInt16}

theorem lookup_of_forget (hvalid : origin.isValid = true)
    (h : (s.forgetLearnedForOrigin origin).learnedTargetToOrigin.lookup source = some found) :
    s.learnedTargetToOrigin.lookup source = some found ∧ found ≠ origin := by
  unfold forgetLearnedForOrigin at h
  rw [hvalid] at h
  have hmem := mem_lookup_iff.mp h
  obtain ⟨hentry, hne⟩ := List.mem_filter.mp hmem
  exact ⟨mem_lookup_iff.mpr hentry, of_decide_eq_true hne⟩

theorem adopt_origin (origin : Addr) (domain : Str) : (s.adopt origin domain).2.origin = origin := by
  unfold adopt
  split
  · rfl
  · split
    · rfl
    · next h => exact not_not.mp h

theorem adopt_remoteDomains (origin : Addr) (domain : Str) :
    (s.adopt origin domain).1.remoteDomains = s.remoteDomains := by
  unfold adopt
  split
  · rfl
  · split
    · exact forgetLearnedForOrigin_remoteDomains _
    · rfl

theorem lookup_of_adopt
    (h : (s.adopt origin domain).1.learnedTargetToOrigin.lookup source = some found) :
    s.learnedTargetToOrigin.lookup source = some found ∧
      ∀ target, s.remoteDomains.lookup domain = some target → target.origin.isValid = true →
        found = target.origin → found = origin := by
  unfold adopt at h
  cases hdomain : s.remoteDomains.lookup domain with
  | none =>
    rw [hdomain] at h
    exact ⟨h, nofun⟩
  | some target =>
    rw [hdomain] at h
    dsimp only at h
    by_cases hsame : target.origin = origin
    · rw [if_neg (not_not_intro hsame)] at h
      refine ⟨h, fun other hother _ hfound => ?_⟩
      cases hother
      exact hfound.trans hsame
    · rw [if_pos hsame] at h
      constructor
      · unfold forgetLearnedForOrigin at h
        split at h
        · exact h
        · exact mem_lookup_iff.mpr (List.mem_filter.mp (mem_lookup_iff.mp h)).1
      · intro other hother hvalid hfound
        cases hother
        exact absurd hfound (lookup_of_forget hvalid h).2

theorem addRemote_learned (origin : Addr) (domain : Str) (port : UInt16) :
    (s.addRemote origin domain port).learnedTargetToOrigin =
      (s.adopt origin domain).1.learnedTargetToOrigin := by
  unfold addRemote
  dsimp only
  split <;> rfl

theorem lookup_addRemote_self (origin : Addr) (domain : Str) (port : UInt16) :
    ∃ target, (s.addRemote origin domain port).remoteDomains.lookup domain = some target ∧
      target.origin = origin := by
  unfold addRemote
  dsimp only
  split <;> exact ⟨_, lookup_insert _, adopt_origin origin domain⟩

theorem lookup_addRemote_ne (origin : Addr) {other : Str} (port : UInt16) (h : other ≠ domain) :
    (s.addRemote origin domain port).remoteDomains.lookup other = s.remoteDomains.lookup other := by
  unfold addRemote
  dsimp only
  split <;> rw [lookup_insert_ne h, adopt_remoteDomains]

theorem prepare_remoteDomains (key : PrepareKey) (target : Socksaddr) :
    (s.prepare key target).remoteDomains = s.remoteDomains := by
  unfold prepare
  split <;> rfl

theorem prepare_learned (key : PrepareKey) (target : Socksaddr) :
    (s.prepare key target).learnedTargetToOrigin = s.learnedTargetToOrigin := by
  unfold prepare
  split <;> rfl

theorem lookup_of_addExact {target : Addr}
    (h : (s.addExact origin target).learnedTargetToOrigin.lookup source = some found) :
    s.learnedTargetToOrigin.lookup source = some found := by
  by_cases hsource : source = target
  · subst hsource
    cases (lookup_erase source s.learnedTargetToOrigin).symm.trans h
  · exact (lookup_erase_ne hsource).symm.trans h

theorem newer_mem (best : Option (Str × Addr × Nat)) (visit : List Str)
    (hbest : ∀ found ∈ best, ∃ target, s.remoteDomains.lookup found.1 = some target ∧
      target.origin = found.2.1) :
    ∀ found ∈ visit.foldl (s.newer port) best, ∃ target,
      s.remoteDomains.lookup found.1 = some target ∧ target.origin = found.2.1 := by
  induction visit generalizing best with
  | nil => exact hbest
  | cons domain visit ih =>
    apply ih
    fun_cases newer s port best domain
    case case4 | case5 =>
      rintro found ⟨⟩
      exact ⟨_, by assumption, rfl⟩
    all_goals exact hbest

theorem remoteOriginForPort_mem {visit : List Str}
    (h : s.remoteOriginForPort visit port = some (domain, origin)) :
    ∃ target, s.remoteDomains.lookup domain = some target ∧ target.origin = origin := by
  obtain ⟨_, h⟩ := of_else h nofun
  obtain ⟨found, hfound, heq⟩ := Option.map_eq_some_iff.mp h
  cases heq
  exact newer_mem none visit nofun found hfound

inductive Restores (s : Mapping) (source : Socksaddr) : Addr → Cause → Mapping → Prop
  | unknown (answer : Addr) : Restores s source answer .unknown s
  | exact (answer : Addr) : Restores s source answer .exact s
  | name {domain : Str} {target : RemoteDomainTarget}
      (h : s.remoteDomains.lookup domain = some target) :
      Restores s source target.origin (.name domain) s
  | learned {target answer : Addr} (h : s.learnedTargetToOrigin.lookup target = some answer) :
      Restores s source answer (.learned target) s
  | port {addr : Addr} {port : UInt16} {domain : Str} {target : RemoteDomainTarget}
      (hsource : source = .ip addr port) (h : s.remoteDomains.lookup domain = some target) :
      Restores s source target.origin (.port domain)
        { s with learnedTargetToOrigin :=
            s.learnedTargetToOrigin.insert addr.unmap target.origin }

theorem restores_known {source : Socksaddr} {addr answer : Addr} {cause : Cause}
    (h : s.known addr = some (answer, cause)) : Restores s source answer cause s := by
  revert h
  fun_cases known s addr
  all_goals
    intro h
    cases h
  case case1 => exact .exact _
  case case2 hlookup _ => exact .learned hlookup

theorem restores_learn (visit : List Str) {source : Socksaddr} {addr : Addr}
    (hsource : source = .ip addr port) :
    Restores s source (s.learn visit addr.unmap port).1 (s.learn visit addr.unmap port).2.1
      (s.learn visit addr.unmap port).2.2 := by
  fun_cases learn s visit addr.unmap port
  case case1 hknown => exact restores_known hknown
  case case2 hport _ =>
    obtain ⟨target, hlookup, rfl⟩ := remoteOriginForPort_mem hport
    exact .port hsource hlookup
  all_goals exact .unknown _

theorem restores (first second : List Str) (source : Socksaddr) :
    Restores s source (s.restoreReadFrom first second source).1
      (s.restoreReadFrom first second source).2.1 (s.restoreReadFrom first second source).2.2 := by
  fun_cases restoreReadFrom s first second source
  case case2 hlookup => exact .name hlookup
  case case5 hknown => exact restores_known hknown
  case case6 => exact restores_learn second rfl
  all_goals exact .unknown _

end Mapping

/-! ### Runs -/

/-- The maps, with the domain that was last requested with an origin and the domain for which a reply
address was learned. -/
structure Trace where
  mapping : Mapping
  owner : Addr → Option Str
  learnedFor : Addr → Option Str

inductive Call where
  | addMapping (origin metadata : Metadata)
  | restoreReadFrom (first second : List Str) (source : Socksaddr)

def requested (parse : Str → UInt16 → Socksaddr) (origin metadata : Metadata) : Option (Addr × Str) :=
  if origin.dstIP.unmap.isValid then
    match udpDestination parse metadata with
    | .fqdn name _ => some (origin.dstIP.unmap, canonicalUDPDomain name)
    | _ => none
  else none

namespace Trace

def new : Trace := ⟨.new, fun _ => none, fun _ => none⟩

def remember (t : Trace) (mapping : Mapping) : Mapping.Cause → Socksaddr → Trace
  | .port domain, .ip addr _ =>
    { t with mapping, learnedFor := Function.update t.learnedFor addr.unmap (some domain) }
  | _, _ => { t with mapping }

def step (parse : Str → UInt16 → Socksaddr) (t : Trace) : Call → Except Unit Trace
  | .addMapping origin metadata =>
    .ok
      { t with
        mapping := t.mapping.addMapping parse origin metadata
        owner :=
          match requested parse origin metadata with
          | some (address, domain) => Function.update t.owner address (some domain)
          | none => t.owner }
  | .restoreReadFrom first second source =>
    if first.Perm t.mapping.remoteDomains.keys ∧ second.Perm t.mapping.remoteDomains.keys then
      let (_, cause, mapping) := t.mapping.restoreReadFrom first second source
      .ok (t.remember mapping cause source)
    else .error ()

/-- The domain to which an answer of `RestoreReadFrom` is credited; none for an exact target and for a
source without an answer. -/
def credited (t : Trace) : Mapping.Cause → Option (Option Str)
  | .name domain => some (some domain)
  | .port domain => some (some domain)
  | .learned target => some (t.learnedFor target)
  | .exact => none
  | .unknown => none

def Owned (t : Trace) : Call → Prop
  | .addMapping .. => True
  | .restoreReadFrom first second source =>
    ∀ domain, t.credited (t.mapping.restoreReadFrom first second source).2.1 = some domain →
      domain.isSome = true ∧ t.owner (t.mapping.restoreReadFrom first second source).1 = domain

def Released (parse : Str → UInt16 → Socksaddr) (t : Trace) : Call → Prop
  | .addMapping origin metadata =>
    ∀ address domain, requested parse origin metadata = some (address, domain) →
      ∀ other target, t.mapping.remoteDomains.lookup other = some target →
        target.origin = address → other = domain
  | .restoreReadFrom .. => True

/-- Every remote domain owns its origin, and what is learned was learned for a domain that still has
the origin. -/
structure Coherent (t : Trace) : Prop where
  valid : ∀ {domain target}, t.mapping.remoteDomains.lookup domain = some target →
    target.origin.isValid = true
  owned : ∀ {domain target}, t.mapping.remoteDomains.lookup domain = some target →
    t.owner target.origin = some domain
  learned : ∀ {source origin}, t.mapping.learnedTargetToOrigin.lookup source = some origin →
    ∃ domain target, t.learnedFor source = some domain ∧
      t.mapping.remoteDomains.lookup domain = some target ∧ target.origin = origin

variable {parse : Str → UInt16 → Socksaddr}

theorem coherent_new : Coherent new := ⟨nofun, nofun, nofun⟩

variable {origin metadata : Metadata} {t : Trace}

theorem addMapping_other {s : Mapping} (h : requested parse origin metadata = none) :
    (s.addMapping parse origin metadata).remoteDomains = s.remoteDomains ∧
      ∀ {source found : Addr},
        (s.addMapping parse origin metadata).learnedTargetToOrigin.lookup source = some found →
          s.learnedTargetToOrigin.lookup source = some found := by
  have hprepare : ∀ {source found : Addr} {key target},
      (s.prepare key target).learnedTargetToOrigin.lookup source = some found →
        s.learnedTargetToOrigin.lookup source = some found := by
    intro source found key target hlookup
    rwa [Mapping.prepare_learned] at hlookup
  unfold Mapping.addMapping
  dsimp only
  split
  · exact ⟨Mapping.prepare_remoteDomains .., hprepare⟩
  · next hvalid =>
    rw [not_or, Bool.not_eq_true, Bool.not_eq_false'] at hvalid
    unfold requested at h
    rw [if_pos hvalid.1] at h
    split
    · next htarget =>
      rw [htarget] at h
      cases h
    · exact ⟨Mapping.prepare_remoteDomains .., fun hlookup =>
        hprepare (Mapping.lookup_of_addExact hlookup)⟩
    · exact ⟨Mapping.prepare_remoteDomains .., hprepare⟩

theorem addMapping_requested {s : Mapping} {address : Addr}
    {domain : Str} (h : requested parse origin metadata = some (address, domain)) :
    address.isValid = true ∧ s.addMapping parse origin metadata =
      (s.prepare (udpPacketKey origin) (udpDestination parse metadata)).addRemote address domain
        metadata.dstPort := by
  obtain ⟨hvalid, h⟩ := of_then h nofun
  split at h
  · next name port htarget =>
    cases h
    refine ⟨hvalid, ?_⟩
    unfold Mapping.addMapping
    rw [htarget]
    exact if_neg (by simp [hvalid, Socksaddr.isValid])
  · cases h

theorem Coherent.addMapping {t' : Trace} (h : Coherent t)
    (hreleased : t.Released parse (.addMapping origin metadata))
    (hstep : t.step parse (.addMapping origin metadata) = .ok t') : Coherent t' := by
  cases hstep
  cases hrequest : requested parse origin metadata with
  | none =>
    obtain ⟨hdomains, hlearned⟩ := addMapping_other hrequest
    constructor
    · intro domain target hlookup
      exact h.valid (hdomains ▸ hlookup)
    · intro domain target hlookup
      exact h.owned (hdomains ▸ hlookup)
    · intro source found hlookup
      obtain ⟨domain, target, hfor, htarget, horigin⟩ := h.learned (hlearned hlookup)
      exact ⟨domain, target, hfor, hdomains ▸ htarget, horigin⟩
  | some request =>
    obtain ⟨address, domain⟩ := request
    obtain ⟨hvalid, hadd⟩ := addMapping_requested hrequest
    have hothers : ∀ {other target}, other ≠ domain →
        t.mapping.remoteDomains.lookup other = some target → target.origin ≠ address :=
      fun hne hlookup horigin => hne (hreleased address domain hrequest _ _ hlookup horigin)
    have hne : ∀ {other}, other ≠ domain →
        (t.mapping.addMapping parse origin metadata).remoteDomains.lookup other =
          t.mapping.remoteDomains.lookup other := by
      intro other hother
      rw [hadd, Mapping.lookup_addRemote_ne address _ hother, Mapping.prepare_remoteDomains]
    obtain ⟨own, hown, hownOrigin⟩ :
        ∃ own, (t.mapping.addMapping parse origin metadata).remoteDomains.lookup domain = some own ∧
          own.origin = address := by
      rw [hadd]
      exact Mapping.lookup_addRemote_self address domain _
    constructor
    · intro other target hlookup
      by_cases hother : other = domain
      · subst hother
        cases hown.symm.trans hlookup
        exact hownOrigin ▸ hvalid
      · exact h.valid ((hne hother).symm.trans hlookup)
    · intro other target hlookup
      by_cases hother : other = domain
      · subst hother
        cases hown.symm.trans hlookup
        rw [hownOrigin]
        exact Function.update_self ..
      · have hbefore := (hne hother).symm.trans hlookup
        exact (Function.update_of_ne (hothers hother hbefore) ..).trans (h.owned hbefore)
    · intro source found hlookup
      rw [hadd, Mapping.addRemote_learned] at hlookup
      obtain ⟨hbefore, hkept⟩ := Mapping.lookup_of_adopt hlookup
      rw [Mapping.prepare_learned] at hbefore
      rw [Mapping.prepare_remoteDomains] at hkept
      obtain ⟨other, target, hfor, htarget, rfl⟩ := h.learned hbefore
      by_cases hother : other = domain
      · subst hother
        have hsame := hkept target htarget (h.valid htarget) rfl
        exact ⟨other, own, hfor, hown, hownOrigin.trans hsame.symm⟩
      · exact ⟨other, target, hfor, (hne hother).trans htarget, rfl⟩

theorem Coherent.restoreReadFrom {t' : Trace} {first second : List Str} {source : Socksaddr}
    (h : Coherent t) (hstep : t.step parse (.restoreReadFrom first second source) = .ok t') :
    Coherent t' := by
  simp only [step] at hstep
  obtain ⟨_, hstep⟩ := of_then hstep nofun
  have hrestores := Mapping.restores (s := t.mapping) first second source
  generalize t.mapping.restoreReadFrom first second source = answer at hstep hrestores
  obtain ⟨address, cause, mapping⟩ := answer
  cases hstep
  cases hrestores with
  | unknown | exact | name | learned => exact h
  | @port addr port domain target hsource hlookup =>
    subst hsource
    refine ⟨h.valid, h.owned, fun {other found} hfound => ?_⟩
    by_cases hother : other = addr.unmap
    · subst hother
      cases (lookup_insert _).symm.trans hfound
      exact ⟨domain, target, Function.update_self .., hlookup, rfl⟩
    · obtain ⟨domain', target', hfor, htarget, horigin⟩ :=
        h.learned ((lookup_insert_ne hother).symm.trans hfound)
      exact ⟨domain', target', (Function.update_of_ne hother ..).trans hfor, htarget, horigin⟩

theorem Coherent.owned_restore (h : Coherent t) (call : Call) : t.Owned call := by
  cases call with
  | addMapping => trivial
  | restoreReadFrom first second source =>
    intro credit hcredit
    have hrestores := Mapping.restores (s := t.mapping) first second source
    generalize t.mapping.restoreReadFrom first second source = answer at hcredit hrestores ⊢
    obtain ⟨address, cause, mapping⟩ := answer
    cases hrestores with
    | unknown | exact => cases hcredit
    | name hlookup | port hsource hlookup =>
      cases hcredit
      exact ⟨rfl, h.owned hlookup⟩
    | learned hlookup =>
      obtain ⟨domain, target, hfor, htarget, rfl⟩ := h.learned hlookup
      cases hcredit
      rw [hfor]
      exact ⟨rfl, h.owned htarget⟩

/-- In every run in which an origin is only requested for a domain while no other remote domain has it,
no answer is owed to a domain that another one has superseded. -/
theorem owned_along (parse : Str → UInt16 → Socksaddr) (calls : List Call)
    (h : Along (step parse) (Released parse) new calls) : Along (step parse) Owned new calls := by
  have hkeeps : ∀ {t call t'}, Coherent t → Released parse t call → step parse t call = .ok t' →
      Coherent t' := by
    intro t call t' ht hok hstep
    cases call with
    | addMapping => exact ht.addMapping hok hstep
    | restoreReadFrom => exact ht.restoreReadFrom hstep
  exact along_of_along hkeeps (fun ht _ => ht.owned_restore _) coherent_new calls h

def fakeIP : Addr := .ip .v4 0xC6120001 []

def reply : Socksaddr := .ip (.ip .v4 0x08080808 []) 443

def request (host : String) : Call :=
  .addMapping ⟨[], fakeIP, 443⟩ ⟨ascii host, .zero, 443⟩

theorem owned_along_sample : Along (step .fqdn) Owned new
    [request "e", .restoreReadFrom [ascii "e"] [ascii "e"] reply] :=
  owned_along .fqdn _ ⟨nofun, fun _ _ => ⟨trivial, fun _ _ => trivial⟩⟩

/-- The fake IP of a domain is given to another one: the name of the first domain and the reply address
that was learned for it still lead to the fake IP. -/
theorem superseded_restored :
    ∃ t, exec (step .fqdn) new
        [request "e", .restoreReadFrom [ascii "e"] [ascii "e"] reply, request "d"] = .ok t ∧
      t.owner fakeIP = some (ascii "d") ∧
      t.learnedFor (.ip .v4 0x08080808 []) = some (ascii "e") ∧
      let visit := [ascii "d", ascii "e"]
      visit.Perm t.mapping.remoteDomains.keys ∧
      (t.mapping.restoreReadFrom visit visit (.fqdn (ascii "e") 443)).1 = fakeIP ∧
      (t.mapping.restoreReadFrom visit visit (.fqdn (ascii "e") 443)).2.1 = .name (ascii "e") ∧
      (t.mapping.restoreReadFrom visit visit reply).1 = fakeIP ∧
      (t.mapping.restoreReadFrom visit visit reply).2.1 = .learned (.ip .v4 0x08080808 []) := by
  refine ⟨_, rfl, ?_, ?_, ?_, ?_, ?_, ?_, ?_⟩ <;> decide +kernel

end Trace

end Mihomo.Tunnel.Udp
