import Mihomo.Hybrid.Flow

/-!
# Leases of a hybrid flow (component/hybrid/client.go, lease.go)

Raw is activated by a confirmation of the server, and a packet is sent on the raw path only within the
time of a lease. `readRaw` also sets `active`, after it has found it set: if the flow falls back in
between, raw is active without a lease.
-/

namespace Mihomo.Hybrid
open Lib List
def Section.held : Section → Bool
  | .rawRead | .rawDisabled | .rawLease | .rawActive | .rawSwap | .rawConfirmed _ | .rawLast _
  | .rawTouch _ | .streamTouch | .lock _ => false
  | _ => true

def Orderly (s : Flow) : Section → Prop
  | .rawSwap => s.active = true
  | _ => True

def Honest (s : Flow) : Section → Prop
  | .accept c => ∃ r ∈ s.requests, r.seq = c.seq
  | _ => True

instance (s : Flow) (sec : Section) : Decidable (Orderly s sec) := by
  unfold Orderly
  split <;> infer_instance

instance (s : Flow) (sec : Section) : Decidable (Honest s sec) := by
  unfold Honest
  split <;> infer_instance

namespace Flow

def Granted (s : Flow) (t : Nat) : Prop :=
  ∃ r ∈ s.requests, r.seq ∈ s.acks ∧ r.time ≤ t ∧ t < r.time + leaseDuration

instance (s : Flow) (t : Nat) : Decidable (s.Granted t) := by
  unfold Granted
  infer_instance

/-- Raw is active only with a lease. With a server that acknowledges only requests, a lease is one of an
acknowledged request, and packets were sent on the raw path only within such a time. -/
structure Sound (honest : Prop) (s : Flow) : Prop where
  lease : s.active = true → s.leaseUntil ≠ 0
  acked : honest → s.leaseUntil ≠ 0 →
    ∃ r ∈ s.requests, r.seq ∈ s.acks ∧ s.leaseUntil ≤ r.time + leaseDuration
  past : ∀ r ∈ s.requests, r.time ≤ s.clock
  current : ∀ r ∈ s.requests, r.seq ≤ s.leaseSeq ∧ (r.seq = s.leaseSeq → s.leaseSent ≤ r.time)
  sent : honest → ∀ t ∈ s.rawSent, s.Granted t

structure Undisturbed (s s' : Flow) : Prop where
  active : s'.active = s.active
  leaseUntil : s'.leaseUntil = s.leaseUntil
  leaseSeq : s'.leaseSeq = s.leaseSeq
  leaseSent : s'.leaseSent = s.leaseSent
  requests : s'.requests = s.requests
  acks : s'.acks = s.acks
  rawSent : s'.rawSent = s.rawSent
  clock : s.clock ≤ s'.clock

theorem Undisturbed.refl (s : Flow) : s.Undisturbed s :=
  ⟨rfl, rfl, rfl, rfl, rfl, rfl, rfl, Nat.le_refl _⟩

end Flow

def After.InTime (s : Flow) : After → Prop
  | .route now _ => now ≤ s.clock
  | _ => True

def After.Fits (s : Flow) : After → Prop
  | .route now _ => s.active = false ∧ now ≤ s.clock
  | _ => True

def Fits (honest : Prop) (s : Flow) : Section → Prop
  | .acceptLast c | .acceptConfirmed c | .acceptActive c =>
    c.kind = .confirmed ∧ c.seq = s.leaseSeq ∧ s.leaseUntil ≠ 0
  | .disable _ k | .disableActive _ k | .notify k => k.Fits s
  | .disableLease _ k => s.active = false ∧ k.Fits s
  | .fallback _ _ k => k.InTime s
  | .fallbackLease _ _ k | .fallbackLast _ _ k | .fallbackRetry _ _ k => s.active = false ∧ k.InTime s
  | .writeExpired now _ => now ≤ s.clock ∧ ∀ r ∈ s.requests, r.time ≤ now
  | .writeRoute now _ => now ≤ s.clock ∧ (s.active = true → honest → s.Granted now)
  | .writeLast now | .writeRaw now => honest → s.Granted now
  | .writeProbe now | .writeRequest now | .watchRenew now => now ≤ s.clock
  | _ => True

/-! ### Changes of the state -/

section
variable {honest : Prop} {s s' : Flow}

theorem Flow.Granted.mono {t : Nat} (h : s.Granted t) (hrequests : ∀ r ∈ s.requests, r ∈ s'.requests)
    (hacks : ∀ n ∈ s.acks, n ∈ s'.acks) : s'.Granted t := by
  obtain ⟨r, hr, hack, htime⟩ := h
  exact ⟨r, hrequests r hr, hacks _ hack, htime⟩

theorem Flow.Sound.undisturbed (h : s.Sound honest) (hu : s.Undisturbed s') : s'.Sound honest := by
  obtain ⟨hactive, huntil, hseq, hsent, hrequests, hacks, hraw, hclock⟩ := hu
  refine ⟨?_, ?_, ?_, ?_, ?_⟩
  · rw [hactive, huntil]
    exact h.lease
  · rw [huntil, hrequests, hacks]
    exact h.acked
  · rw [hrequests]
    exact fun r hr => Nat.le_trans (h.past r hr) hclock
  · rw [hrequests, hseq, hsent]
    exact h.current
  · rw [hraw]
    intro hh t ht
    exact (h.sent hh t ht).mono (by rw [hrequests]; exact fun _ h => h)
      (by rw [hacks]; exact fun _ h => h)

variable {k : After} {sec : Section}

theorem After.InTime.mono (h : k.InTime s) (hclock : s.clock ≤ s'.clock) : k.InTime s' := by
  cases k with
  | route now short => exact Nat.le_trans h hclock
  | _ => trivial

theorem After.Fits.mono (h : k.Fits s) (hactive : s.active = false → s'.active = false)
    (hclock : s.clock ≤ s'.clock) : k.Fits s' := by
  cases k with
  | route now short => exact ⟨hactive h.1, Nat.le_trans h.2 hclock⟩
  | _ => trivial

theorem After.Fits.undisturbed (h : k.Fits s) (hu : s.Undisturbed s') : k.Fits s' :=
  h.mono hu.active.trans hu.clock

theorem Fits.undisturbed (h : Fits honest s sec) (hu : s.Undisturbed s') : Fits honest s' sec := by
  have hgranted : ∀ {t}, s.Granted t → s'.Granted t := fun h =>
    h.mono (by rw [hu.requests]; exact fun _ h => h) (by rw [hu.acks]; exact fun _ h => h)
  cases sec with
  | acceptLast c | acceptConfirmed c | acceptActive c =>
    exact ⟨h.1, h.2.1.trans hu.leaseSeq.symm, by rw [hu.leaseUntil]; exact h.2.2⟩
  | disable n k | disableActive n k | notify k => exact .undisturbed h hu
  | disableLease n k => exact ⟨hu.active.trans h.1, h.2.undisturbed hu⟩
  | fallback now reason k => exact .mono h hu.clock
  | fallbackLease now reason k | fallbackLast now reason k | fallbackRetry now reason k =>
    exact ⟨hu.active.trans h.1, h.2.mono hu.clock⟩
  | writeExpired now short =>
    exact ⟨Nat.le_trans h.1 hu.clock, by rw [hu.requests]; exact h.2⟩
  | writeRoute now short =>
    exact ⟨Nat.le_trans h.1 hu.clock, fun ha hh => hgranted (h.2 (hu.active.symm.trans ha) hh)⟩
  | writeLast now | writeRaw now => exact fun hh => hgranted (h hh)
  | writeProbe now | writeRequest now | watchRenew now => exact Nat.le_trans h hu.clock
  | _ => trivial

theorem fits_of_not_held (h : sec.held = false) : Fits honest s sec := by
  cases sec <;> trivial

theorem Flow.Sound.deactivate (h : s.Sound honest) : ({ s with active := false } : Flow).Sound honest :=
  ⟨fun ha => Bool.noConfusion ha, h.acked, h.past, h.current, h.sent⟩

theorem Flow.Sound.clearLease (h : s.Sound honest) (hactive : s.active = false) {seq : Nat}
    (hseq : s.leaseSeq = seq ∨ s.leaseSeq < seq) :
    ({ s with leaseUntil := 0, leaseProbe := false, leaseSeq := seq } : Flow).Sound honest := by
  refine ⟨fun ha => ?_, fun _ hne => absurd rfl hne, h.past, fun r hr => ?_, h.sent⟩
  · rw [show s.active = true from ha] at hactive
    cases hactive
  · obtain ⟨hle, hsent⟩ := h.current r hr
    refine ⟨by dsimp only; omega, fun heq => ?_⟩
    dsimp only at heq
    exact hsent (by omega)

theorem Flow.Sound.activate (h : s.Sound honest) (hlease : s.leaseUntil ≠ 0) :
    ({ s with active := true } : Flow).Sound honest :=
  ⟨fun _ => hlease, h.acked, h.past, h.current, h.sent⟩

variable {now : Nat}

section
variable (h : s.Sound honest)
include h

theorem Flow.Sound.sendRequest (hnow : now ≤ s.clock) : (s.sendRequest now).Sound honest := by
  refine ⟨h.lease, fun hh hne => ?_, forall_mem_cons.mpr ⟨Nat.le_refl _, h.past⟩,
    forall_mem_cons.mpr ⟨⟨Nat.le_refl _, fun _ => hnow⟩, fun r hr => ?_⟩, fun hh t ht => ?_⟩
  · obtain ⟨r, hr, hack, hle⟩ := h.acked hh hne
    exact ⟨r, mem_cons_of_mem _ hr, hack, hle⟩
  · have hle := (h.current r hr).1
    change r.seq ≤ s.leaseSeq + 1 ∧ (r.seq = s.leaseSeq + 1 → _)
    exact ⟨by omega, fun heq => by omega⟩
  · exact (h.sent hh t ht).mono (fun r hr => mem_cons_of_mem _ hr) (fun _ h => h)

theorem Flow.Sound.ack (n : Nat) : ({ s with acks := n :: s.acks } : Flow).Sound honest := by
  refine ⟨h.lease, fun hh hne => ?_, h.past, h.current, fun hh t ht => ?_⟩
  · obtain ⟨r, hr, hack, hle⟩ := h.acked hh hne
    exact ⟨r, hr, mem_cons_of_mem _ hack, hle⟩
  · exact (h.sent hh t ht).mono (fun _ h => h) (fun _ h => mem_cons_of_mem _ h)

theorem Flow.Sound.extend (hack : s.leaseSeq ∈ s.acks)
    (hrequest : honest → ∃ r ∈ s.requests, r.seq = s.leaseSeq) (next : Nat) :
    ({ s with leaseUntil := s.leaseSent + leaseDuration, leaseNext := next } : Flow).Sound honest := by
  refine ⟨fun _ => ?_, fun hh _ => ?_, h.past, h.current, h.sent⟩
  · change s.leaseSent + leaseDuration ≠ 0
    unfold leaseDuration second
    omega
  · obtain ⟨r, hr, hseq⟩ := hrequest hh
    refine ⟨r, hr, by rw [hseq]; exact hack, ?_⟩
    exact Nat.add_le_add_right ((h.current r hr).2 hseq) _

theorem Flow.Sound.sendRaw (hgranted : honest → s.Granted now) :
    ({ s with rawSent := now :: s.rawSent, lastActivity := now } : Flow).Sound honest := by
  refine ⟨h.lease, h.acked, h.past, h.current, fun hh => ?_⟩
  exact forall_mem_cons.mpr ⟨hgranted hh, h.sent hh⟩

theorem Flow.Sound.granted (hnow : now < s.leaseUntil)
    (hpast : ∀ r ∈ s.requests, r.time ≤ now) (hh : honest) : s.Granted now := by
  obtain ⟨r, hr, hack, hle⟩ := h.acked hh (by omega)
  exact ⟨r, hr, hack, hpast r hr, by omega⟩

end

end

/-! ### What the sections do -/

def Behaves (honest : Prop) (s : Flow) (sec : Section) (e : Effect Flow Section) : Prop :=
  e.shared.Sound honest ∧ Turn Section.held Flow.locked (Fits honest) s sec e ∧
    ∀ g ∈ e.started, ∀ t ∈ g, t.held = false

def Allowed (honest : Prop) (s : Flow) (sec : Section) (effect : Option (Effect Flow Section)) : Prop :=
  ∀ e, effect = some e → Behaves honest s sec e

section
variable {honest : Prop} {s s' : Flow} {sec t : Section} {choice : Choice}

namespace Allowed

theorem none : Allowed honest s sec none := nofun

theorem free (hsound : s.Sound honest) (hu : s.Undisturbed s') {next : List Section}
    (hnext : ∀ t ∈ next, t.held = false) (hsec : sec.held = false := by rfl)
    (hlocked : s'.locked = s.locked := by rfl) : Allowed honest s sec (some { shared := s', next }) := by
  intro e h
  cases h
  exact ⟨hsound.undisturbed hu, .free hsec hnext hlocked fun _ h => h.undisturbed hu, nofun⟩

theorem keep (hsound : s'.Sound honest) (hfits : Fits honest s' t) {next : List Section}
    (hnext : ∀ t ∈ next, t.held = false) (hsec : sec.held = true := by rfl)
    (hlocked : s'.locked = s.locked := by rfl) (ht : t.held = true := by rfl) :
    Allowed honest s sec (some { shared := s', next := t :: next }) := by
  intro e h
  cases h
  exact ⟨hsound, .keep hsec hlocked rfl ht hnext hfits, nofun⟩

theorem goOn (hsound : s'.Sound honest) (hfits : Fits honest s' t) (hsec : sec.held = true := by rfl)
    (hlocked : s'.locked = s.locked := by rfl) (ht : t.held = true := by rfl) :
    Allowed honest s sec (goOn s' t) := .keep hsound hfits nofun hsec hlocked ht

theorem tryWrite {ok fail : Option (Effect Flow Section)} (hok : Allowed honest s sec ok)
    (hfail : Allowed honest s sec fail) : Allowed honest s sec (tryWrite choice ok fail) := by
  cases choice with
  | ok => exact hok
  | fail => exact hfail
  | _ => exact none

theorem readClock {k : Nat → Flow → Option (Effect Flow Section)}
    (h : ∀ now, s.Undisturbed { s with clock := now } → Allowed honest s sec (k now { s with clock := now })) :
    Allowed honest s sec (readClock s choice k) := by
  cases choice with
  | clock now =>
    unfold Hybrid.readClock
    dsimp only
    split
    · exact h now { Flow.Undisturbed.refl s with clock := ‹_› }
    · exact none
  | _ => exact none

end Allowed

variable {now : Nat} {k : After}

theorem After.held_first (k : After) : k.first.held = true := by cases k <;> rfl

theorem After.Fits.first (h : k.Fits s) : Hybrid.Fits honest s k.first := by
  cases k with
  | route now short =>
    refine ⟨h.2, fun ha => ?_⟩
    rw [h.1] at ha
    cases ha
  | _ => trivial

theorem After.InTime.fits (h : k.InTime s) (hactive : s.active = false) : k.Fits s := by
  cases k with
  | route now short => exact ⟨hactive, h⟩
  | _ => trivial

theorem free_singleton (ht : t.held = false) : ∀ t' ∈ [t], t'.held = false :=
  forall_mem_singleton.mpr ht

theorem allowed_readRaw (hs : s.Sound honest) (horderly : Orderly s sec) :
    Allowed honest s sec (readRaw s choice sec) := by
  have hself := Flow.Undisturbed.refl s
  unfold readRaw
  cases sec with
  | rawRead =>
    cases choice with
    | packet counts => exact .free hs hself (free_singleton (by split <;> rfl))
    | transient | fail => exact .free hs hself (free_singleton rfl)
    | closed => exact .free hs hself nofun
    | _ => exact .none
  | rawDisabled | rawActive => exact .free hs hself (free_singleton (by split <;> rfl))
  | rawLease =>
    refine .readClock fun now hu => ?_
    exact .free hs hu (free_singleton (by split <;> rfl))
  | rawSwap =>
    refine .readClock fun now hu => ?_
    refine .free hs ?_ (free_singleton rfl)
    exact { hu with active := (show s.active = true from horderly).symm }
  | rawConfirmed now | rawLast now | rawTouch now =>
    refine .free hs ?_ (free_singleton rfl)
    exact { hself with }
  | _ => exact .none

theorem allowed_acceptLease (hsec : sec.held = true) {c : Control} (hs : s'.Sound honest)
    (hlocked : s'.locked = s.locked) (hhonest : honest → ∃ r ∈ s'.requests, r.seq = c.seq) :
    Allowed honest s sec (acceptLease s' c now) := by
  fun_cases acceptLease s' c now
  case case1 => exact .goOn hs trivial hsec hlocked
  case case2 | case3 => exact .goOn (hs.ack c.seq) trivial hsec hlocked
  case case4 haccept _ _ _ =>
    have hseq : c.seq = s'.leaseSeq := by
      by_contra hne
      exact haccept (.inr hne)
    have hsound := (hs.ack c.seq).extend (by rw [hseq]; exact mem_cons_self)
      (fun hh => by rw [← hseq]; exact hhonest hh) (s'.leaseSent + leaseRenewal)
    split
    next hkind =>
      refine .goOn hsound ⟨hkind, hseq, ?_⟩ hsec hlocked
      change s'.leaseSent + leaseDuration ≠ 0
      unfold leaseDuration second
      omega
    · exact .goOn hsound trivial hsec hlocked

theorem allowed_retryLater (hsec : sec.held = true) {reason : Reason} (hs : s.Sound honest)
    (hactive : s.active = false) (hk : k.InTime s) :
    Allowed honest s sec (retryLater s now reason k) := by
  have hu : ∀ {retries retryAt}, s.Undisturbed { s with retries, retryAt } :=
    { Flow.Undisturbed.refl s with }
  have hfits := hk.fits hactive
  fun_cases retryLater s now reason k
  all_goals exact .goOn (hs.undisturbed hu) (hfits.undisturbed hu) hsec

theorem allowed_tryProbe (hsec : sec.held = true) (hs : s.Sound honest) (hnow : now ≤ s.clock) :
    Allowed honest s sec (tryProbe s now) := by
  have hu : ∀ {probeEnd nextProbe}, s.Undisturbed { s with probeEnd, nextProbe } :=
    { Flow.Undisturbed.refl s with }
  fun_cases tryProbe s now
  case case1 | case3 => exact .goOn (hs.undisturbed hu) trivial hsec
  case case2 => exact .goOn (hs.undisturbed hu) hnow hsec
  case case4 => exact .goOn hs trivial hsec

theorem allowed_effect (hs : s.Sound honest) (hfits : Fits honest s sec) (horderly : Orderly s sec)
    (hhonest : honest → Honest s sec) : Allowed honest s sec (effect s sec choice) := by
  have hself := Flow.Undisturbed.refl s
  unfold effect
  cases sec with
  | rawRead | rawDisabled | rawLease | rawActive | rawSwap | rawConfirmed | rawLast | rawTouch =>
    exact allowed_readRaw hs horderly
  | streamTouch =>
    refine .readClock fun now hu => ?_
    refine .free hs ?_ nofun
    exact { hu with }
  | lock op =>
    dsimp only
    split
    · exact .none
    next hunlocked =>
      intro e h
      cases h
      refine ⟨hs.undisturbed { hself with }, ?_, nofun⟩
      refine .acquire rfl (Bool.eq_false_iff.mpr hunlocked) rfl rfl ?_ nofun ?_
      · cases op <;> rfl
      · cases op <;> trivial
  | unlock =>
    intro e h
    cases h
    exact ⟨hs.undisturbed { hself with }, .release rfl nofun rfl, nofun⟩
  | confirm =>
    refine .readClock fun now hu => ?_
    split
    · exact .keep (t := .unlock) (hs.undisturbed hu) trivial (free_singleton rfl)
    · exact .goOn (hs.undisturbed hu) trivial
  | confirmWrite =>
    exact .tryWrite (.keep (t := .unlock) hs trivial (free_singleton rfl)) (.goOn hs trivial)
  | accept c =>
    refine .readClock fun now hu => ?_
    exact allowed_acceptLease rfl (hs.undisturbed hu) rfl hhonest
  | acceptLast c =>
    refine .readClock fun now hu => ?_
    exact .goOn (hs.undisturbed { hu with }) hfits
  | acceptConfirmed c => exact .goOn (hs.undisturbed { hself with }) hfits
  | acceptActive c => exact .goOn (hs.activate hfits.2.2) trivial
  | disable notify k =>
    have hu : s.Undisturbed { s with disabled := true } := { hself with }
    exact .goOn (hs.undisturbed hu) (.undisturbed hfits hu)
  | disableActive notify k =>
    exact .goOn hs.deactivate ⟨rfl, .mono hfits (fun _ => rfl) (Nat.le_refl _)⟩
  | disableLease notify k =>
    have hsound := hs.clearLease hfits.1 (.inl rfl)
    have hk : k.Fits { s with leaseUntil := 0, leaseProbe := false } := hfits.2.mono id (Nat.le_refl _)
    dsimp only
    split
    · exact .goOn hsound hk
    · exact .goOn hsound hk.first rfl rfl k.held_first
  | notify k =>
    exact .tryWrite (.goOn hs (After.Fits.first hfits) rfl rfl k.held_first) (.goOn hs trivial)
  | fallback now reason k =>
    exact .goOn hs.deactivate ⟨rfl, .mono hfits (Nat.le_refl _)⟩
  | fallbackLease now reason k =>
    exact .goOn (hs.clearLease hfits.1 (.inr (by omega)))
      ⟨hfits.1, hfits.2.mono (Nat.le_refl _)⟩
  | fallbackLast now reason k =>
    have hu : s.Undisturbed { s with lastRaw := 0, probeEnd := 0, nextProbe := 0 } := { hself with }
    exact .goOn (hs.undisturbed hu) ⟨hfits.1, hfits.2.mono hu.clock⟩
  | fallbackRetry now reason k => exact allowed_retryLater rfl hs hfits.1 hfits.2
  | writeNow short =>
    refine .readClock fun now hu => ?_
    exact .goOn (hs.undisturbed hu) ⟨Nat.le_refl _, fun r hr => Nat.le_trans (hs.past r hr) hu.clock⟩
  | writeExpired now short =>
    dsimp only
    split
    · exact .goOn hs hfits.1
    next hvalid =>
      refine .goOn hs ⟨hfits.1, fun hactive hh => hs.granted ?_ hfits.2 hh⟩
      by_contra hge
      exact hvalid ⟨hactive, Nat.not_lt.mp hge⟩
  | writeRoute now short =>
    dsimp only
    split_ifs with _ hactive
    · exact .goOn hs (hfits.2 hactive)
    · exact .goOn hs hfits.1
    · exact .goOn hs trivial
  | writeLast now =>
    dsimp only
    split
    · exact .goOn hs trivial
    · exact .goOn hs hfits
  | writeProbe now => exact allowed_tryProbe rfl hs hfits
  | writeRaw now => exact .tryWrite (.goOn (hs.sendRaw hfits) trivial) (.goOn hs trivial)
  | writeRequest now =>
    dsimp only
    split
    · exact .goOn hs trivial
    · have hsound : ({ s.sendRequest now with leaseProbe := true } : Flow).Sound honest :=
        (hs.sendRequest hfits).undisturbed { Flow.Undisturbed.refl _ with }
      exact .tryWrite (.goOn hsound trivial) (.goOn hsound trivial)
  | writeStream now probe =>
    refine .tryWrite ?_ (.goOn hs trivial)
    split <;> exact .goOn (hs.undisturbed { hself with }) trivial
  | probeRaw => exact .tryWrite (.goOn hs trivial) (.goOn hs trivial)
  | watchLease =>
    cases choice with
    | tick now handled =>
      dsimp only
      split
      next htime =>
        have hsound : ({ s with clock := handled } : Flow).Sound honest :=
          hs.undisturbed { hself with clock := htime.1 }
        split_ifs
        · exact .goOn hsound trivial
        · exact .goOn hsound htime.2
        · exact .goOn hsound trivial
      · exact .none
    | _ => exact .none
  | watchRenew now =>
    dsimp only
    split
    · have hsound : ({ s.sendRequest now with leaseNext := now + leaseRenewal } : Flow).Sound honest :=
        (hs.sendRequest hfits).undisturbed { Flow.Undisturbed.refl _ with }
      exact .tryWrite (.goOn hsound trivial) (.goOn hsound trivial)
    · exact .goOn hs trivial
  | watchActive now | watchSilent now =>
    dsimp only
    split_ifs
    all_goals exact .goOn hs trivial

end

/-! ### Runs -/

theorem guarded_newFlow (honest : Prop) (raw : Bool) :
    (newFlow raw).shared.Sound honest ∧
      Guarded Section.held Flow.locked (Fits honest) (newFlow raw) := by
  have hsound : ∀ disabled, ({ disabled } : Flow).Sound honest := by
    intro disabled
    refine ⟨nofun, fun _ h => absurd rfl h, nofun, nofun, fun _ => nofun⟩
  cases raw
  all_goals
    refine ⟨hsound _, forall_mem_singleton.mpr fun sec hsec => ?_, forall_mem_singleton.mpr ?_, rfl⟩
    · cases hsec
      trivial
    · intro sec hsec
      cases hsec

theorem always_sound (honest : Prop) (raw : Bool) (moves : List (Move Choice Call))
    (horderly : Along program.step (Program.Meets Orderly) (newFlow raw) moves)
    (hhonest : honest → Along program.step (Program.Meets Honest) (newFlow raw) moves) :
    Always program.step (fun p => p.shared.Sound honest ∧
      Guarded Section.held Flow.locked (Fits honest) p) (newFlow raw) moves := by
  have hmoves : Along program.step
      (Program.Meets fun s sec => Orderly s sec ∧ (honest → Honest s sec)) (newFlow raw) moves := by
    by_cases hh : honest
    · exact (horderly.and (hhonest hh)).mono fun h sec hsec => ⟨h.1 sec hsec, fun _ => h.2 sec hsec⟩
    · exact horderly.mono fun h sec hsec => ⟨h sec hsec, fun h => absurd h hh⟩
  obtain ⟨hsound, hguarded⟩ := guarded_newFlow honest raw
  have hfree : ∀ s (t : Section), t.held = false → Fits honest s t :=
    fun _ _ h => fits_of_not_held h
  refine always_guarded hfree ?_ ?_ hsound hguarded moves hmoves
  · intro s sec choice e hs hfits hcond he
    exact allowed_effect hs hfits hcond.1 hcond.2 e he
  · intro s c g hg t ht
    cases c
    all_goals
      cases hg
      cases mem_singleton.mp ht
      rfl

variable {e : Effect Flow Section} {choice : Choice} {sec : Section} {s : Flow}

theorem active_of_effect
    (h : effect s sec choice = some e) (hbefore : s.active = false) (hafter : e.shared.active = true) :
    sec = .rawSwap ∨ ∃ c, sec = .acceptActive c := by
  have hno : e.shared.active ≠ s.active := by
    rw [hbefore, hafter]
    exact Bool.noConfusion
  cases sec
  case rawSwap => exact .inl rfl
  case acceptActive c => exact .inr ⟨c, rfl⟩
  all_goals
    exfalso
    simp only [effect, readRaw, acceptLease, retryLater, tryProbe, readClock, tryWrite] at h
    (repeat' split at h) <;> cases h <;> first | exact hno rfl | cases hafter

def ConfirmedOnly (p : Pool Flow Section) (m : Move Choice Call) : Prop :=
  ∀ q, program.step p m = .ok q → p.shared.active = false → q.shared.active = true →
    ∃ c : Control, Program.current p m = some (.acceptActive c) ∧ c.kind = .confirmed ∧
      c.seq = p.shared.leaseSeq

/-- A packet asks for a lease at 100 s, the server grants it, and a raw packet has it confirmed. -/
def activation : List (Move Choice Call) :=
  [.call (.write true), .run 1 .ok, .run 1 (.clock (100 * second)), .run 1 .ok, .run 1 .ok, .run 1 .ok,
    .run 1 .ok, .run 1 .ok, .run 1 .ok, .run 1 .ok,
    .call (.control ⟨.bound, 1⟩), .run 2 .ok, .run 2 (.clock (101 * second)), .run 2 .ok,
    .run 0 (.packet true), .run 0 .ok, .run 0 (.clock (101 * second)), .run 0 .ok, .run 0 .ok,
    .run 0 (.clock (101 * second)), .run 0 .ok, .run 0 .ok,
    .call (.control ⟨.confirmed, 1⟩), .run 3 .ok, .run 3 (.clock (102 * second)),
    .run 3 (.clock (102 * second)), .run 3 .ok, .run 3 .ok, .run 3 .ok]

/-- A raw packet comes in, and the lease expires before `readRaw` sets `active`. -/
def expiry : List (Move Choice Call) :=
  [.run 0 (.packet true), .run 0 .ok, .run 0 (.clock (129 * second)), .run 0 .ok,
    .call .watch, .run 4 .ok, .run 4 (.tick (130 * second) (130 * second)), .run 4 .ok, .run 4 .ok,
    .run 4 .ok, .run 4 .ok, .run 4 .ok, .run 4 .ok, .run 4 .ok]

/-- In every order of the sections in which `readRaw` sets `active` only while it is set: raw becomes
active only by a confirmation for the current number, and while it is active there is a lease. -/
theorem raw_activation (raw : Bool) (moves : List (Move Choice Call))
    (h : Along program.step (Program.Meets Orderly) (newFlow raw) moves) :
    Along program.step ConfirmedOnly (newFlow raw) moves ∧
      Always program.step (fun p => p.shared.active = true → p.shared.leaseUntil ≠ 0) (newFlow raw)
        moves := by
  have hsound := always_sound False raw moves h fun h => h.elim
  refine ⟨hsound.along h fun {p m} hp hm q hq hbefore hafter => ?_, hsound.mono fun h => h.1.lease⟩
  rcases Program.step_cases hq with ⟨before, sec, rest, after, choice, e, hcurrent, hrunning, he, rfl⟩ |
    ⟨c, g, hg, rfl⟩
  · rcases active_of_effect he hbefore hafter with rfl | ⟨c, rfl⟩
    · have hactive : p.shared.active = true := hm _ hcurrent
      rw [hbefore] at hactive
      cases hactive
    · have hfits : Fits False p.shared (.acceptActive c) :=
        hp.2.fits _ (by rw [hrunning]; exact List.mem_append_right _ List.mem_cons_self) _ rfl
      exact ⟨c, hcurrent, hfits.1, hfits.2.1⟩
  · rw [hbefore] at hafter
    cases hafter

theorem raw_activation_confirmed :
    (Along program.step ConfirmedOnly (newFlow true) activation ∧
      Always program.step (fun p => p.shared.active = true → p.shared.leaseUntil ≠ 0) (newFlow true)
        activation) ∧
      ∃ p, exec program.step (newFlow true) activation = .ok p ∧ p.shared.active = true :=
  ⟨raw_activation true activation (by decide +kernel), _, rfl, rfl⟩

/-- `readRaw` sets `active` after the flow has fallen back: raw is active without a lease. -/
theorem fallback_reactivated :
    ∃ p q, exec program.step (newFlow true) (activation ++ expiry) = .ok p ∧
      p.shared.active = false ∧ p.shared.leaseUntil = 0 ∧
      program.step p (.run 0 (.clock (130 * second))) = .ok q ∧
      q.shared.active = true ∧ q.shared.leaseUntil = 0 ∧
      ¬ ConfirmedOnly p (.run 0 (.clock (130 * second))) := by
  refine ⟨_, _, rfl, rfl, rfl, rfl, rfl, rfl, fun h => ?_⟩
  obtain ⟨c, hcurrent, -⟩ := h _ rfl rfl rfl
  cases hcurrent

theorem accept_of_effect
    (h : effect s sec choice = some e) (hchanged : e.shared.leaseUntil ≠ s.leaseUntil)
    (hne : e.shared.leaseUntil ≠ 0) :
    ∃ c, sec = .accept c ∧ s.disabled = false ∧ c.seq = s.leaseSeq := by
  cases sec
  case accept c =>
    by_cases haccept : s.disabled ∨ c.seq ≠ s.leaseSeq
    · exfalso
      simp only [effect, readClock, acceptLease] at h
      (repeat' split at h) <;> cases h <;> exact hchanged rfl
    · rw [not_or, not_not] at haccept
      exact ⟨c, rfl, Bool.eq_false_iff.mpr haccept.1, haccept.2⟩
  all_goals
    exfalso
    simp only [effect, readRaw, retryLater, tryProbe, readClock, tryWrite] at h
    (repeat' split at h) <;> cases h <;> first | exact hchanged rfl | exact hne rfl

/-- A lease is extended only by an acknowledgement of the current number, which is that of a request
(a fallback takes a new number), while the flow is not disabled. -/
def CurrentOnly (p : Pool Flow Section) (m : Move Choice Call) : Prop :=
  ∀ q, program.step p m = .ok q → q.shared.leaseUntil ≠ p.shared.leaseUntil →
    q.shared.leaseUntil ≠ 0 → ∃ c : Control, Program.current p m = some (.accept c) ∧
      p.shared.disabled = false ∧ c.seq = p.shared.leaseSeq ∧ ∃ r ∈ p.shared.requests, r.seq = c.seq

/-- In every order of the sections in which `readRaw` sets `active` only while it is set, with a server
that acknowledges what has been requested: a packet is sent on the raw path only within the time of a
lease whose request has been acknowledged, and only current acknowledgements extend a lease. -/
theorem raw_within_lease (raw : Bool) (moves : List (Move Choice Call))
    (hserver : Along program.step (Program.Meets Honest) (newFlow raw) moves)
    (h : Along program.step (Program.Meets Orderly) (newFlow raw) moves) :
    Always program.step (fun p => ∀ t ∈ p.shared.rawSent, p.shared.Granted t) (newFlow raw) moves ∧
      Along program.step CurrentOnly (newFlow raw) moves := by
  have hsound := always_sound True raw moves h fun _ => hserver
  refine ⟨hsound.mono fun h => h.1.sent trivial, hserver.mono fun {p m} hm q hq hchanged hne => ?_⟩
  rcases Program.step_cases hq with ⟨before, sec, rest, after, choice, e, hcurrent, -, he, rfl⟩ |
    ⟨c, g, hg, rfl⟩
  · obtain ⟨c, rfl, hdisabled, hseq⟩ := accept_of_effect he hchanged hne
    exact ⟨c, hcurrent, hdisabled, hseq, hm _ hcurrent⟩
  · exact absurd rfl hchanged

theorem raw_within_lease_confirmed :
    let moves := activation ++ [.call (.write true), .run 4 .ok, .run 4 (.clock (103 * second)),
      .run 4 .ok, .run 4 .ok, .run 4 .ok, .run 4 .ok]
    (Always program.step (fun p => ∀ t ∈ p.shared.rawSent, p.shared.Granted t) (newFlow true) moves ∧
      Along program.step CurrentOnly (newFlow true) moves) ∧
      ∃ p, exec program.step (newFlow true) moves = .ok p ∧ p.shared.rawSent = [103 * second] :=
  ⟨raw_within_lease true _ (by decide +kernel) (by decide +kernel), _, rfl, rfl⟩

/-- A packet finds raw not active and does not look at the lease; then `readRaw` sets `active`, and the
packet goes to the raw path although the lease has expired. -/
theorem raw_after_lease :
    ∃ p, exec program.step (newFlow true) (activation ++ expiry ++
      [.call (.write true), .run 5 .ok, .run 5 (.clock (131 * second)), .run 5 .ok,
        .run 0 (.clock (131 * second)), .run 5 .ok, .run 5 .ok, .run 5 .ok]) = .ok p ∧
      p.shared.requests = [⟨1, 100 * second⟩] ∧ p.shared.rawSent = [131 * second] ∧
      ¬ p.shared.Granted (131 * second) :=
  ⟨_, rfl, rfl, rfl, by decide⟩

end Mihomo.Hybrid
