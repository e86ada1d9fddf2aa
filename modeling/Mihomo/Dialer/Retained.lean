import Mihomo.Lib.Handoff
import Mihomo.Lib.Run
import Mihomo.Net.Addr

/-!
# The race of retained winners

`tcpRetainedDialContext` dials the retained winners, and all current addresses as well once the
winners' budget is over or all of them failed. Each dial is a goroutine that offers its result on an
unbuffered channel or, when the context is done, closes the connection it opened.

`Vars` holds the local variables of the function and the dials it has started, `Point` is where it
stands; a connection is named by the number of its dial. A timer that is set may fire at any time.
-/

namespace Mihomo.Dialer
open Net Lib Lib.Handoff List Option Tasks

def family (ip : Addr) : Family := if ip.is6 then .v6 else .v4

namespace Retained

structure Race where
  winners : List Addr
  ips : List Addr
  prefer : Nat

def Race.preference (r : Race) : Bool := r.prefer == 4 || r.prefer == 6

def Race.preferred (r : Race) : Family := if r.prefer = 6 then .v6 else .v4

structure Vars where
  cancelled : Bool
  dials : Tasks Addr
  seen : List Addr
  pending : Nat
  pendingFamily : Family → Nat
  /-- `budgetC` is not nil. -/
  budget : Bool
  fullRace : Bool
  /-- `preferenceC` is not nil. -/
  preferenceTimer : Bool
  preferenceExpired : Bool
  held : Option Nat

inductive Point where
  /-- In a loop of calls of `start`, with these addresses to come. -/
  | starting (ips : List Addr)
  | head
  | select
  | budgetFired
  | preferenceFired
  | received (i : Nat) (ip : Addr) (ok : Bool)
  | returned (conn : Option Nat)
  deriving DecidableEq

structure State where
  vars : Vars
  point : Point

def init (r : Race) : State where
  vars :=
    { cancelled := false
      dials := .empty
      seen := []
      pending := 0
      pendingFamily := fun _ => 0
      budget := true
      fullRace := false
      preferenceTimer := false
      preferenceExpired := false
      held := none }
  point := .starting r.winners

namespace Vars

def start (v : Vars) (ip : Addr) : Vars :=
  let ip := ip.unmap
  if ip ∈ v.seen ∨ v.cancelled then v
  else
    { v with
      seen := ip :: v.seen
      pending := v.pending + 1
      pendingFamily := Function.update v.pendingFamily (family ip) (v.pendingFamily (family ip) + 1)
      dials := v.dials.launch ip }

def startRemaining (v : Vars) (r : Race) : State where
  vars := { v with fullRace := true, budget := false, preferenceTimer := r.preference }
  point := .starting r.ips

def closeConn (v : Vars) (i : Nat) : Vars := { v with dials := v.dials.close i }

def ret (v : Vars) (conn : Option Nat) : State :=
  match v.held with
  | none => ⟨v, .returned conn⟩
  | some i => ⟨{ v.closeConn i with held := none }, .returned conn⟩

def finishHeld (v : Vars) : State := ⟨{ v with held := none }, .returned v.held⟩

def loop (v : Vars) (r : Race) : State :=
  if v.cancelled then v.ret none
  else if v.fullRace && v.held.isSome && v.pendingFamily r.preferred == 0 then v.finishHeld
  else if v.pending = 0 then
    if !v.fullRace then v.startRemaining r
    else if v.held.isSome then v.finishHeld
    else v.ret none
  else ⟨v, .select⟩

def countOut (v : Vars) (ip : Addr) : Vars :=
  { v with
    pending := v.pending - 1
    pendingFamily := Function.update v.pendingFamily (family ip) (v.pendingFamily (family ip) - 1) }

def receive (v : Vars) (r : Race) (i : Nat) (ip : Addr) (ok : Bool) : State :=
  if v.cancelled then (if ok then v.closeConn i else v).ret none
  else
    let v := v.countOut ip
    if !ok then ⟨v, .head⟩
    else if !v.fullRace || !r.preference || v.preferenceExpired || family ip == r.preferred ||
        v.pendingFamily r.preferred == 0 then v.ret (some i)
    else
      match v.held with
      | none => ⟨{ v with held := some i }, .head⟩
      | some _ => ⟨v.closeConn i, .head⟩

def budgetCase (v : Vars) (r : Race) : State :=
  if v.cancelled then v.ret none else v.startRemaining r

def preferenceCase (v : Vars) : State :=
  if v.cancelled then v.ret none
  else
    let v := { v with preferenceTimer := false, preferenceExpired := true }
    if v.held.isSome then v.finishHeld else ⟨v, .head⟩

end Vars

def State.advance (r : Race) : State → Option State
  | ⟨v, .starting []⟩ => some ⟨v, .head⟩
  | ⟨v, .starting (ip :: ips)⟩ => some ⟨v.start ip, .starting ips⟩
  | ⟨v, .head⟩ => some (v.loop r)
  | ⟨v, .budgetFired⟩ => some (v.budgetCase r)
  | ⟨v, .preferenceFired⟩ => some v.preferenceCase
  | ⟨v, .received i ip ok⟩ => some (v.receive r i ip ok)
  | ⟨_, .select⟩ | ⟨_, .returned _⟩ => none

inductive Case where
  | done
  | budget
  | preference
  | result (i : Nat)

def Vars.select (v : Vars) : Case → Option State
  | .done => if v.cancelled then some (v.ret none) else none
  | .budget => if v.budget then some ⟨v, .budgetFired⟩ else none
  | .preference => if v.preferenceTimer then some ⟨v, .preferenceFired⟩ else none
  | .result i => (v.dials.take i).map fun (dials, ip, ok) =>
    ⟨{ v with dials := dials }, .received i ip ok⟩

def Point.isReturned : Point → Bool
  | returned _ => true
  | _ => false

def State.done (s : State) : Bool := s.vars.cancelled || s.point.isReturned

inductive Event where
  | cancel
  | dialed (i : Nat) (ok : Bool)
  | abandon (i : Nat)
  | advance
  | select (case : Case)

def State.setDials (s : State) (dials : Tasks Addr) : State :=
  ⟨{ s.vars with dials := dials }, s.point⟩

def next (r : Race) (s : State) : Event → Option State
  | .cancel => some ⟨{ s.vars with cancelled := true }, s.point⟩
  | .dialed i ok => (s.vars.dials.finish i ok).map s.setDials
  | .abandon i => if s.done then (s.vars.dials.drop i).map s.setDials else none
  | .advance => s.advance r
  | .select case => if s.point = .select then s.vars.select case else none

def step (r : Race) (s : State) (e : Event) : Except Unit State :=
  match next r s e with
  | some t => .ok t
  | none => .error ()

/-! ### The invariant -/

/-- Each dial was started once, and each opened connection has one owner: its dial, the function in
`held` or in `conns`, or nobody any more. -/
structure Base (v : Vars) (conns : List Nat) : Prop where
  seen : ∀ a, a ∈ v.seen ↔ a ∈ v.dials.labels
  nodup : v.dials.labels.Nodup
  balanced : v.dials.Balanced (conns ++ v.held.toList)
  held : ∀ {i}, v.held = some i → ∃ ip, v.dials.Took i ip true

/-- What holds until the function returns, with a result that it may have at hand and the addresses it
is about to start. -/
structure Live (r : Race) (v : Vars) (hand : Option (Nat × Addr × Bool)) (toStart : List Addr) :
    Prop where
  pending : v.pending = v.dials.outstanding hand fun _ => true
  pendingFamily : ∀ f, v.pendingFamily f = v.dials.outstanding hand fun a => family a == f
  took : ∀ {i ip ok}, hand = some (i, ip, ok) → v.dials.Took i ip ok
  kept : ∀ {i ip}, v.dials.Took i ip true → v.held.isSome ∨ ∃ a, hand = some (i, a, true)
  covered : ∀ a, a ∈ r.winners ∨ v.fullRace ∧ a ∈ r.ips → a.unmap ∈ v.seen ∨ a ∈ toStart ∨ v.cancelled

def PreferredHeard (r : Race) (v : Vars) : Prop :=
  ∀ a ∈ v.dials.labels, family a = r.preferred → ∃ i ok, v.dials.Took i a ok

def Failed (r : Race) (v : Vars) : Prop :=
  ∀ a, a ∈ r.winners ∨ a ∈ r.ips → ∃ i, v.dials.Took i a.unmap false

def Outcome (r : Race) (v : Vars) : Option Nat → Prop
  | none => v.cancelled ∨ Failed r v
  | some i => ∃ ip, v.dials.Took i ip true ∧
    (v.fullRace → r.preference → family ip ≠ r.preferred → v.preferenceExpired ∨ PreferredHeard r v)

def Inv (r : Race) : State → Prop
  | ⟨v, .starting ips⟩ => Base v [] ∧ Live r v none ips
  | ⟨v, .received i ip ok⟩ => Base v (if ok then [i] else []) ∧ Live r v (some (i, ip, ok)) []
  | ⟨v, .returned conn⟩ => Base v conn.toList ∧ v.held = none ∧ Outcome r v conn
  | ⟨v, .head⟩ | ⟨v, .select⟩ | ⟨v, .budgetFired⟩ | ⟨v, .preferenceFired⟩ =>
    Base v [] ∧ Live r v none []

theorem inv_init (r : Race) : Inv r (init r) := by
  refine ⟨⟨fun a => ?_, nodup_nil, balanced_empty, nofun⟩, rfl, fun f => rfl, nofun,
    fun h => ?_, fun a ha => ?_⟩
  · exact .rfl
  · simp [Tasks.Took, Tasks.empty] at h
  · rcases ha with ha | ⟨h, -⟩
    · exact .inr (.inl ha)
    · cases h

/-! ### Steps of the others -/

section Others

variable {r : Race} {v : Vars} {dials : Tasks Addr}

theorem Base.quiet {conns : List Nat} (h : Base v conns) (hq : Tasks.Quiet v.dials dials) :
    Base { v with dials := dials } conns where
  seen a := by
    rw [hq.labels]
    exact h.seen a
  nodup := by
    rw [hq.labels]
    exact h.nodup
  balanced := hq.balanced h.balanced
  held hi := (h.held hi).imp fun ip => (hq.took _ _ _).mpr

theorem Live.quiet {hand : Option (Nat × Addr × Bool)} {toStart : List Addr} (h : Live r v hand toStart)
    (hq : Tasks.Quiet v.dials dials) : Live r { v with dials := dials } hand toStart where
  pending := by
    rw [hq.outstanding]
    exact h.pending
  pendingFamily f := by
    rw [hq.outstanding]
    exact h.pendingFamily f
  took hi := (hq.took _ _ _).mpr (h.took hi)
  kept hi := h.kept ((hq.took _ _ _).mp hi)
  covered := h.covered

theorem Outcome.quiet {conn : Option Nat} (h : Outcome r v conn) (hq : Tasks.Quiet v.dials dials) :
    Outcome r { v with dials := dials } conn := by
  cases conn with
  | none =>
    apply h.imp_right
    intro hfailed a ha
    exact (hfailed a ha).imp fun i => (hq.took ..).mpr
  | some i =>
    obtain ⟨ip, hip, hpreferred⟩ := h
    refine ⟨ip, (hq.took ..).mpr hip, fun hfull hpref hne => ?_⟩
    apply (hpreferred hfull hpref hne).imp_right
    intro hheard a ha hfamily
    rw [hq.labels] at ha
    obtain ⟨j, ok, hj⟩ := hheard a ha hfamily
    exact ⟨j, ok, (hq.took ..).mpr hj⟩

theorem Inv.quiet {s : State} (h : Inv r s) (hq : Tasks.Quiet s.vars.dials dials) :
    Inv r (s.setDials dials) := by
  obtain ⟨v, point⟩ := s
  cases point with
  | returned conn => exact ⟨h.1.quiet hq, h.2.1, h.2.2.quiet hq⟩
  | _ => exact ⟨h.1.quiet hq, h.2.quiet hq⟩

theorem Inv.cancel {s : State} (h : Inv r s) : Inv r ⟨{ s.vars with cancelled := true }, s.point⟩ := by
  obtain ⟨v, point⟩ := s
  have hbase : ∀ {conns}, Base v conns → Base { v with cancelled := true } conns := fun h =>
    { h with }
  have hlive : ∀ {hand toStart}, Live r v hand toStart →
      Live r { v with cancelled := true } hand toStart := fun h =>
    ⟨h.pending, h.pendingFamily, h.took, h.kept, fun a _ => .inr (.inr rfl)⟩
  cases point with
  | returned conn =>
    refine ⟨hbase h.1, h.2.1, ?_⟩
    cases conn with
    | none => exact .inl rfl
    | some i => exact h.2.2
  | _ => exact ⟨hbase h.1, hlive h.2⟩

end Others

/-! ### Steps of the function -/

section Function

variable {r : Race} {v : Vars}

theorem Base.start {conns : List Nat} (h : Base v conns) (ip : Addr) : Base (v.start ip) conns := by
  unfold Vars.start
  simp only
  split
  · exact h
  next hnew =>
    push Not at hnew
    refine ⟨fun a => ?_, ?_, h.balanced.launch _, fun hi => ?_⟩
    · simp [h.seen a, or_comm]
    · rw [labels_launch, ← concat_eq_append]
      exact h.nodup.concat fun hmem => hnew.1 ((h.seen _).mpr hmem)
    · obtain ⟨ip', hip'⟩ := h.held hi
      exact ⟨ip', (took_launch ..).mpr hip'⟩

variable {ip : Addr}

theorem Live.start {ips : List Addr} (h : Live r v none (ip :: ips)) :
    Live r (v.start ip) none ips := by
  have hcovered : ∀ {w : Vars}, (∀ a ∈ v.seen, a ∈ w.seen) → w.cancelled = v.cancelled →
      (ip.unmap ∈ w.seen ∨ v.cancelled) → ∀ a, a ∈ r.winners ∨ v.fullRace ∧ a ∈ r.ips →
      a.unmap ∈ w.seen ∨ a ∈ ips ∨ w.cancelled := by
    intro w hmono hcancelled hip a ha
    rw [hcancelled]
    rcases h.covered a ha with hseen | htodo | hc
    · exact .inl (hmono _ hseen)
    · rcases mem_cons.mp htodo with rfl | htodo
      · exact hip.imp_right .inr
      · exact .inr (.inl htodo)
    · exact .inr (.inr hc)
  unfold Vars.start
  simp only
  split
  next hold =>
    exact ⟨h.pending, h.pendingFamily, h.took, h.kept, hcovered (fun a ha => ha) rfl hold⟩
  · refine ⟨?_, fun f => ?_, nofun, fun hi => ?_, ?_⟩
    · rw [outstanding_launch, ← h.pending]
      rfl
    · rw [outstanding_launch, ← h.pendingFamily f]
      simp only [Function.update_apply]
      by_cases hf : f = family ip.unmap
      · subst hf
        simp
      · rw [if_neg hf, beq_eq_false_iff_ne.mpr (.symm hf)]
        rfl
    · exact h.kept ((took_launch ..).mp hi)
    · exact hcovered (fun a ha => mem_cons_of_mem _ ha) rfl (.inl mem_cons_self)

theorem inv_startRemaining (hbase : Base v []) (h : Live r v none []) : Inv r (v.startRemaining r) := by
  refine ⟨{ hbase with }, h.pending, h.pendingFamily, nofun,
    h.kept, fun a ha => ?_⟩
  rcases ha with ha | ⟨-, ha⟩
  · rcases h.covered a (.inl ha) with hseen | hnil | hcancelled
    · exact .inl hseen
    · cases hnil
    · exact .inr (.inr hcancelled)
  · exact .inr (.inl ha)

theorem inv_ret {conn : Option Nat} (hbase : Base v conn.toList) (hout : Outcome r v conn) :
    Inv r (v.ret conn) := by
  unfold Vars.ret
  cases hheld : v.held with
  | none => exact ⟨hbase, hheld, hout⟩
  | some i =>
    refine ⟨⟨hbase.seen, hbase.nodup, ?_, nofun⟩, rfl, hout⟩
    have hb := hbase.balanced
    rw [hheld] at hb
    have hclosed := (hb.perm perm_append_comm).close
    simpa [Vars.closeConn] using hclosed

theorem Live.heard (h : Live r v none []) (hzero : v.pendingFamily r.preferred = 0) :
    PreferredHeard r v := by
  intro a ha hfamily
  rw [h.pendingFamily] at hzero
  exact exists_took hzero (beq_iff_eq.mpr hfamily) ha

theorem inv_finishHeld (hbase : Base v []) (hheld : v.held.isSome)
    (hpref : v.preferenceExpired ∨ PreferredHeard r v) : Inv r v.finishHeld := by
  obtain ⟨i, hi⟩ := isSome_iff_exists.mp hheld
  obtain ⟨ip, hip⟩ := hbase.held hi
  refine ⟨⟨hbase.seen, hbase.nodup, ?_, nofun⟩, rfl, ?_⟩
  · have hb := hbase.balanced
    simpa using hb
  · rw [hi]
    exact ⟨ip, hip, fun _ _ _ => hpref⟩

theorem Live.failed (h : Live r v none []) (hbase : Base v []) (hcancelled : v.cancelled = false)
    (hfull : v.fullRace) (hpending : v.pending = 0) (hheld : v.held = none) : Failed r v := by
  intro a ha
  have hseen : a.unmap ∈ v.dials.labels := by
    rcases h.covered a (ha.imp_right fun ha => ⟨hfull, ha⟩) with hseen | hnil | hc
    · exact (hbase.seen _).mp hseen
    · cases hnil
    · rw [hcancelled] at hc
      cases hc
  rw [h.pending] at hpending
  obtain ⟨i, ok, hi⟩ := exists_took hpending rfl hseen
  cases ok with
  | false => exact ⟨i, hi⟩
  | true =>
    rcases h.kept hi with hsome | ⟨_, hnone⟩
    · rw [hheld] at hsome
      cases hsome
    · cases hnone

theorem Live.pendingFamily_eq_zero (h : Live r v none []) (hpending : v.pending = 0) (f : Family) :
    v.pendingFamily f = 0 := by
  rw [h.pending] at hpending
  rw [h.pendingFamily]
  exact Nat.le_zero.mp (hpending ▸ v.dials.outstanding_mono none fun _ _ => rfl)

section

variable (hbase : Base v []) (h : Live r v none [])
include hbase h

theorem inv_loop : Inv r (v.loop r) := by
  fun_cases Vars.loop v r
  case case1 hcancelled => exact inv_ret hbase (.inl hcancelled)
  case case2 hheld =>
    simp only [Bool.and_eq_true, beq_iff_eq] at hheld
    exact inv_finishHeld hbase hheld.1.2 (.inr (h.heard hheld.2))
  case case3 => exact inv_startRemaining hbase h
  case case4 hpending _ hheld =>
    exact inv_finishHeld hbase hheld (.inr (h.heard (h.pendingFamily_eq_zero hpending _)))
  case case5 hcancelled _ hpending hfull hheld =>
    apply inv_ret hbase
    apply Or.inr
    exact h.failed hbase (by simpa using hcancelled) (by simpa using hfull) hpending
      (by simpa using hheld)
  case case6 => exact ⟨hbase, h⟩

theorem inv_budgetCase : Inv r (v.budgetCase r) := by
  unfold Vars.budgetCase
  split
  next hcancelled => exact inv_ret hbase (.inl hcancelled)
  · exact inv_startRemaining hbase h

theorem inv_preferenceCase : Inv r v.preferenceCase := by
  unfold Vars.preferenceCase
  split
  next hcancelled => exact inv_ret hbase (.inl hcancelled)
  · have hbase' : Base { v with preferenceTimer := false, preferenceExpired := true } [] :=
      { hbase with }
    simp only
    split
    next hheld => exact inv_finishHeld hbase' hheld (.inl rfl)
    · exact ⟨hbase', h.pending, h.pendingFamily, nofun, h.kept, h.covered⟩

end

variable {ok : Bool} {i : Nat} {t : State}

theorem Live.countOut (h : Live r v (some (i, ip, ok)) []) :
    (v.countOut ip).pending = v.dials.outstanding none (fun _ => true) ∧
      ∀ f, (v.countOut ip).pendingFamily f = v.dials.outstanding none fun a => family a == f := by
  refine ⟨?_, outstanding_countOut family h.pendingFamily⟩
  have := h.pending
  rw [outstanding_some, Bool.toNat_true] at this
  simp only [Vars.countOut]
  omega

theorem inv_receive (hbase : Base v (if ok then [i] else []))
    (h : Live r v (some (i, ip, ok)) []) : Inv r (v.receive r i ip ok) := by
  obtain ⟨hpending, hfamily⟩ := h.countOut
  have htook := h.took rfl
  unfold Vars.receive
  split
  next hcancelled =>
    cases ok with
    | false => exact inv_ret hbase (.inl hcancelled)
    | true =>
      have hout : Outcome r (v.closeConn i) none := .inl hcancelled
      apply inv_ret _ hout
      exact ⟨hbase.seen, hbase.nodup, hbase.balanced.close, hbase.held⟩
  next hcancelled =>
    cases ok with
    | false =>
      refine ⟨{ hbase with }, hpending, hfamily, nofun, ?_,
        h.covered⟩
      intro j a hj
      rcases h.kept hj with hsome | ⟨_, hhand⟩
      · exact .inl hsome
      · cases hhand
    | true =>
      have hbase' : Base (v.countOut ip) [i] := { hbase with }
      simp only [Bool.not_true, Bool.false_eq_true, if_false]
      split
      next hreturn =>
        apply inv_ret hbase'
        refine ⟨ip, htook, fun hfull hpref hne => ?_⟩
        simp only [Bool.or_eq_true, Bool.not_eq_true', beq_iff_eq] at hreturn
        rcases hreturn with (((hnot | hnot) | hexpired) | heq) | hzero
        · rw [hnot] at hfull
          cases hfull
        · rw [hnot] at hpref
          cases hpref
        · exact .inl hexpired
        · exact absurd heq hne
        · apply Or.inr
          intro a ha hfam
          rw [hfamily] at hzero
          exact exists_took hzero (beq_iff_eq.mpr hfam) ha
      · cases hheld : (v.countOut ip).held with
        | none =>
          refine ⟨⟨hbase.seen, hbase.nodup, ?_, ?_⟩, hpending, hfamily, nofun, fun _ => .inl rfl,
            h.covered⟩
          · have hb := hbase'.balanced
            rw [hheld] at hb
            exact hb
          · intro j hj
            cases hj
            exact ⟨ip, htook⟩
        | some k =>
          refine ⟨⟨hbase.seen, hbase.nodup, hbase'.balanced.close, hbase.held⟩, hpending, hfamily, nofun,
            fun _ => .inl ?_, h.covered⟩
          exact isSome_iff_exists.mpr ⟨k, hheld⟩

theorem inv_select {case : Case} (hbase : Base v []) (h : Live r v none [])
    (ht : v.select case = some t) : Inv r t := by
  cases case with
  | done =>
    simp only [Vars.select, ite_none_right_eq_some, Option.some.injEq] at ht
    obtain ⟨hcancelled, rfl⟩ := ht
    exact inv_ret hbase (.inl hcancelled)
  | budget | preference =>
    simp only [Vars.select, ite_none_right_eq_some, Option.some.injEq] at ht
    obtain ⟨-, rfl⟩ := ht
    exact ⟨hbase, h⟩
  | result i =>
    simp only [Vars.select, map_eq_some_iff] at ht
    obtain ⟨⟨dials, ip, ok⟩, htake, rfl⟩ := ht
    have hlabels := labels_take htake
    refine ⟨⟨fun a => ?_, ?_, ?_, fun hj => ?_⟩, ?_, fun f => ?_, ?_, fun {j b} hj => ?_, h.covered⟩
    · rw [hlabels]
      exact hbase.seen a
    · rw [hlabels]
      exact hbase.nodup
    · exact hbase.balanced.take htake
    · obtain ⟨b, hb⟩ := hbase.held hj
      exact ⟨b, hb.take htake⟩
    · rw [outstanding_take htake]
      exact h.pending
    · rw [outstanding_take htake]
      exact h.pendingFamily f
    · intro j b ok' hj
      cases hj
      exact (took_take htake ..).mpr (by simp)
    · rw [took_take htake] at hj
      split at hj
      next hji =>
        obtain ⟨-, rfl⟩ := hj
        subst hji
        exact .inr ⟨ip, rfl⟩
      · rcases h.kept hj with hsome | ⟨_, hnone⟩
        · exact .inl hsome
        · cases hnone

theorem inv_advance {s : State} (h : Inv r s) (ht : s.advance r = some t) : Inv r t := by
  revert ht h
  fun_cases State.advance r s
  all_goals
    rintro h ⟨⟩
  case case1 => exact h
  case case2 ip _ => exact ⟨h.1.start ip, h.2.start⟩
  case case3 => exact inv_loop h.1 h.2
  case case4 => exact inv_budgetCase h.1 h.2
  case case5 => exact inv_preferenceCase h.1 h.2
  case case6 => exact inv_receive h.1 h.2

end Function

variable {s t : State} {r : Race} {e : Event}

theorem next_of_step (h : step r s e = .ok t) : next r s e = some t := by
  unfold step at h
  split at h
  next t' ht =>
    cases h
    exact ht
  · cases h

theorem inv_step (h : Inv r s) (ht : step r s e = .ok t) : Inv r t := by
  have hnext := next_of_step ht
  cases e with
  | cancel =>
    cases hnext
    exact h.cancel
  | dialed i ok =>
    obtain ⟨dials, hdials, rfl⟩ := map_eq_some_iff.mp hnext
    exact h.quiet (finish_quiet hdials)
  | abandon i =>
    simp only [next, ite_none_right_eq_some] at hnext
    obtain ⟨dials, hdials, rfl⟩ := map_eq_some_iff.mp hnext.2
    exact h.quiet (drop_quiet hdials)
  | advance => exact inv_advance h hnext
  | select case =>
    simp only [next, ite_none_right_eq_some] at hnext
    obtain ⟨v, point⟩ := s
    obtain ⟨hpoint, hselect⟩ := hnext
    cases hpoint
    exact inv_select h.1 h.2 hselect

/-! ### Whole runs -/

def State.conns (s : State) : List Nat :=
  (match s.point with
    | .received i _ true => [i]
    | .returned conn => conn.toList
    | _ => []) ++ s.vars.held.toList

structure Sound (r : Race) (s : State) : Prop where
  once : s.vars.dials.labels.Nodup
  /-- An opened connection is with its dial, with the function or closed, and never in two places. -/
  owned : s.vars.dials.Balanced s.conns
  /-- A returned connection was opened and is not closed. -/
  open' : ∀ {i}, s.point = .returned (some i) →
    (∃ ip, s.vars.dials.Took i ip true) ∧ i ∉ s.vars.dials.closed
  /-- After the return a dial with a result cannot be stuck: it closes what it opened. -/
  unstuck : ∀ {conn i ip ok}, s.point = .returned conn →
    s.vars.dials.all[i]? = some ⟨ip, .offering ok⟩ → ∃ t, step r s (.abandon i) = .ok t
  /-- When the dials have ended too, all opened connections but the returned one are closed, once. -/
  closed : ∀ {conn i dial}, s.point = .returned conn → s.vars.dials.Ended →
    s.vars.dials.all[i]? = some dial → dial.phase.opened → conn ≠ some i →
    s.vars.dials.closed.count i = 1
  /-- An error means a cancelled call or a failed dial to every address. -/
  error : s.point = .returned none → s.vars.cancelled ∨ Failed r s.vars
  /-- The full race yields the other family only without a preferred dial or after the timer. -/
  preferred : ∀ {i ip}, s.point = .returned (some i) → s.vars.dials.Took i ip true → s.vars.fullRace →
    r.preference → family ip ≠ r.preferred → s.vars.preferenceExpired ∨ PreferredHeard r s.vars

theorem Inv.owned (h : Inv r s) : s.vars.dials.Balanced s.conns := by
  obtain ⟨v, point⟩ := s
  cases point with
  | received i ip ok => cases ok <;> exact h.1.balanced
  | _ => exact h.1.balanced

theorem Inv.nodup (h : Inv r s) : s.vars.dials.labels.Nodup := by
  obtain ⟨v, point⟩ := s
  cases point with
  | _ => exact h.1.nodup

theorem Inv.sound (h : Inv r s) : Sound r s := by
  have howned := h.owned
  refine ⟨h.nodup, howned, fun {i} hp => ?_, fun {conn i ip ok} hp hi => ?_,
    fun {conn i dial} hp hended hi hopened hne => ?_, fun hp => ?_, fun {i ip} hp htook => ?_⟩
  all_goals
    obtain ⟨v, point⟩ := s
    cases hp
    obtain ⟨hbase, hheld, hout⟩ := h
    have hb := hbase.balanced
    rw [hheld] at hb
  · obtain ⟨ip, hip, -⟩ := hout
    refine ⟨⟨ip, hip⟩, ?_⟩
    have hzero := (hb.holder (i := i) (by simp)).2
    exact count_eq_zero.mp hzero
  · obtain ⟨dials, hdials⟩ := exists_drop hi
    refine ⟨.setDials ⟨v, .returned conn⟩ dials, ?_⟩
    simp [step, next, State.done, Point.isReturned, hdials]
  · apply hb.settled hended hi hopened
    cases conn with
    | none => simp
    | some j => simpa [eq_comm] using hne
  · exact hout
  · obtain ⟨ip', hip', hpreferred⟩ := hout
    cases hip'.symm.trans htook
    exact hpreferred

theorem retained_race_sound (r : Race) (es : List Event) : Always (step r) (Sound r) (init r) es :=
  always_of_invariant (Inv r) inv_step Inv.sound (inv_init r) es

end Retained

end Mihomo.Dialer
