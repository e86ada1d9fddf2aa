import Mihomo.Dialer.Progressive

/-!
# Safety of the progressive race

`Core` is the accounting of the dials and their connections, `Fast` says what the fast path owes to the
candidates it holds back: while something is queued, a cached winner is still being dialed.
-/

namespace Mihomo.Dialer.Progressive
open Net Lib Lib.Handoff List Option Tasks

def Vars.handed (v : Vars) : List Nat := v.sent.filterMap id

/-- Each opened connection has one owner: its dial, the function in `heldFallback` or in `conns`, the
caller, or nobody any more. -/
structure Base (v : Vars) (conns : List Nat) : Prop where
  seen : ∀ a, a ∈ v.seen ↔ ∃ l ∈ v.dials.labels, l.ip = a
  balanced : v.dials.Balanced (conns ++ (v.heldFallback.toList ++ v.handed))
  exclusive : v.delivered → v.heldFallback = none

structure Core (v : Vars) (hand : Option (Nat × Attempt × Bool)) (conns : List Nat) : Prop
    extends Base v conns where
  pending : v.pending = v.dials.outstanding hand fun _ => true
  pendingFamily : ∀ f, v.pendingFamily f = v.dials.outstanding hand fun l => l.ipv6 == f
  kept : ∀ {i l}, v.dials.Took i l true → v.delivered ∨ v.heldFallback.isSome ∨ conns ≠ []
  sent : v.sent = [] ∨ v.delivered ∧ ∃ i, v.sent = [some i]

def Reached (v : Vars) : Prop :=
  v.fastSucceeded = false → ∀ a f, (a, f) ∈ v.answered → a.unmap.isValid →
    a.unmap ∈ v.seen ∨ (a, f) ∈ v.queued

structure Fast (v : Vars) (hand : Option (Nat × Attempt × Bool)) : Prop where
  busy : v.fastPriority → v.fastInFlight ≠ []
  inFlight : v.fastPriority → ∀ a ∈ v.fastInFlight,
    0 < v.dials.outstanding hand fun l => l.fast && l.ip == a
  queued : v.queued ≠ [] → v.fastPriority
  succeeded : v.fastSucceeded → v.delivered
  reached : Reached v

structure Lost (v : Vars) : Prop where
  failed : ∀ i < v.dials.labels.length, ∃ l, v.dials.Took i l false
  dialed : ∀ a f, (a, f) ∈ v.answered → a.unmap.isValid → ∃ l ∈ v.dials.labels, l.ip = a.unmap
  unqueued : v.queued = []

def Failure (v : Vars) : Prop := v.cancelled ∨ Lost v

def Inv : State → Prop
  | ⟨v, .head⟩ | ⟨v, .select⟩ | ⟨v, .fastFired⟩ => Core v none [] ∧ Fast v none
  | ⟨v, .received i l ok⟩ =>
    Core v (some (i, l, ok)) (if ok then [i] else []) ∧ Fast v (some (i, l, ok))
  | ⟨v, .sending conn false⟩ =>
    Core v none conn.toList ∧ Fast v none ∧ v.delivered ∧ v.sent = [] ∧ conn.isSome
  | ⟨v, .sending conn true⟩ =>
    Base v conn.toList ∧ v.heldFallback = none ∧ v.sent = [] ∧ (conn = none → Failure v)
  | ⟨v, .returned⟩ =>
    Base v [] ∧ v.heldFallback = none ∧
      (v.sent = [] ∨ ∃ conn, v.sent = [conn] ∧ (conn = none → Failure v))

/-! ### Starting dials -/

structure Started (v w : Vars) : Prop where
  frame : w = { v with
    seen := w.seen, pending := w.pending, pendingFamily := w.pendingFamily, dials := w.dials }
  seen : ∀ a ∈ v.seen, a ∈ w.seen
  outstanding : ∀ P, v.dials.outstanding none P ≤ w.dials.outstanding none P
  core : ∀ {conns}, Core v none conns → Core w none conns

variable {v w : Vars} {conns : List Nat} {a : Addr} {i : Nat} {ok : Bool} {l : Attempt}
  {s t : State} {c : Setup}

theorem Started.exists_eq (h : Started v w) :
    ∃ seen pending pendingFamily dials, w = { v with seen, pending, pendingFamily, dials } :=
  ⟨_, _, _, _, h.frame⟩

theorem Started.refl (v : Vars) : Started v v :=
  ⟨rfl, fun _ h => h, fun _ => Nat.le_refl _, fun h => h⟩

theorem Started.trans {u : Vars} (h : Started u v) (h' : Started v w) : Started u w where
  frame := by
    rw [h'.frame, h.frame]
  seen a ha := h'.seen a (h.seen a ha)
  outstanding P := Nat.le_trans (h.outstanding P) (h'.outstanding P)
  core hc := h'.core (h.core hc)

theorem Core.launch (h : Core v none conns) (l : Attempt) : Core (v.launch l) none conns where
  seen a := by
    simp only [Vars.launch, labels_launch, mem_cons, mem_append, h.seen a,
      mem_nil_iff, or_false, or_and_right, exists_or, exists_eq_left]
    rw [or_comm, eq_comm]
  balanced := h.balanced.launch l
  exclusive := h.exclusive
  pending := by
    rw [Vars.launch, outstanding_launch, ← h.pending]
    rfl
  pendingFamily f := by
    rw [Vars.launch, outstanding_launch, ← h.pendingFamily f]
    simp only [Function.update_apply]
    by_cases hf : f = l.ipv6
    · subst hf
      simp
    · rw [if_neg hf, beq_eq_false_iff_ne.mpr (Ne.symm hf)]
      rfl
  kept hi := h.kept ((took_launch ..).mp hi)
  sent := h.sent

theorem started_launch (v : Vars) (l : Attempt) : Started v (v.launch l) where
  frame := rfl
  seen _ ha := mem_cons_of_mem _ ha
  outstanding P := by
    rw [Vars.launch, outstanding_launch]
    exact Nat.le_add_right ..
  core h := h.launch l

theorem started_start (v : Vars) (candidate : Addr × Bool) : Started v (v.start candidate) := by
  unfold Vars.start
  simp only
  split
  · exact .refl v
  · split
    · exact .refl v
    · exact started_launch ..

theorem started_startAll (v : Vars) (candidates : List (Addr × Bool)) :
    Started v (v.startAll candidates) := by
  induction candidates generalizing v with
  | nil => exact .refl v
  | cons candidate candidates ih => exact (started_start v candidate).trans (ih _)

theorem mem_seen_start (v : Vars) (a : Addr) (f : Bool) (hvalid : a.unmap.isValid) :
    a.unmap ∈ (v.start (a, f)).seen := by
  unfold Vars.start
  simp only [hvalid, Bool.not_true, Bool.false_eq_true, if_false]
  split
  next hseen => exact hseen
  · exact mem_cons_self

theorem mem_seen_startAll {candidates : List (Addr × Bool)} {f : Bool}
    (h : (a, f) ∈ candidates) (hvalid : a.unmap.isValid) : a.unmap ∈ (v.startAll candidates).seen := by
  induction candidates generalizing v with
  | nil => cases h
  | cons candidate candidates ih =>
    rcases mem_cons.mp h with rfl | h
    · exact (started_startAll _ candidates).seen _ (mem_seen_start v a f hvalid)
    · exact ih h

theorem Reached.started (h : Reached v) (hs : Started v w) : Reached w := by
  obtain ⟨_, _, _, _, rfl⟩ := hs.exists_eq
  exact fun hnot a f ha hvalid => (h hnot a f ha hvalid).imp_left (hs.seen _)

theorem Fast.startAll (h : Fast v none) (batch : List (Addr × Bool)) :
    Fast ({ v with answered := v.answered ++ batch }.startAll batch) none := by
  have hs := started_startAll { v with answered := v.answered ++ batch } batch
  have hbatch : ∀ a f, (a, f) ∈ batch → a.unmap.isValid →
      a.unmap ∈ ({ v with answered := v.answered ++ batch }.startAll batch).seen :=
    fun _ _ ha hvalid => mem_seen_startAll ha hvalid
  generalize Vars.startAll _ batch = w at hs hbatch
  obtain ⟨_, _, _, _, rfl⟩ := hs.exists_eq
  refine ⟨h.busy, fun hp a ha => ?_, h.queued, h.succeeded, fun hnot a f ha hvalid => ?_⟩
  · exact Nat.lt_of_lt_of_le (h.inFlight hp a ha) (hs.outstanding _)
  · rcases mem_append.mp ha with ha | ha
    · exact (h.reached hnot a f ha hvalid).imp_left (hs.seen _)
    · exact .inl (hbatch a f ha hvalid)

theorem Core.abandonFastPath (h : Core v none conns) : Core v.abandonFastPath none conns := by
  have hcore : Core { v with
      cachePending := false, fastPriority := false, fastInFlight := [], fastTimer := false } none conns :=
    { h with }
  exact { (started_startAll _ v.queued).core hcore with }

theorem fast_abandonFastPath (h : Reached v) (hsucceeded : v.fastSucceeded → v.delivered) :
    Fast v.abandonFastPath none := by
  have hs := started_startAll { v with
    cachePending := false, fastPriority := false, fastInFlight := [], fastTimer := false } v.queued
  have hqueued : ∀ a f, (a, f) ∈ v.queued → a.unmap.isValid → a.unmap ∈ v.abandonFastPath.seen :=
    fun _ _ ha hvalid => mem_seen_startAll ha hvalid
  unfold Vars.abandonFastPath Vars.startQueued at *
  generalize Vars.startAll _ v.queued = w at hs hqueued
  obtain ⟨_, _, _, _, rfl⟩ := hs.exists_eq
  refine ⟨nofun, nofun, absurd rfl, hsucceeded, fun hnot a f ha hvalid => ?_⟩
  rcases h hnot a f ha hvalid with hseen | hmem
  · exact .inl (hs.seen _ hseen)
  · exact .inl (hqueued a f hmem hvalid)

theorem started_winners (v : Vars) (winners : List Addr) (ipv6 : Bool) :
    Started v (winners.foldl (fun v ip => v.launch ⟨ip, ipv6, true⟩) v) := by
  induction winners generalizing v with
  | nil => exact .refl v
  | cons ip winners ih => exact (started_launch ..).trans (ih _)

variable {winners : List Addr} {conn : Option Nat} {e : Event}

theorem outstanding_winners {ipv6 : Bool} (ha : a ∈ winners) :
    0 < (winners.foldl (fun v ip => v.launch ⟨ip, ipv6, true⟩) v).dials.outstanding none
      fun l => l.fast && l.ip == a := by
  induction winners generalizing v with
  | nil => cases ha
  | cons ip winners ih =>
    rcases mem_cons.mp ha with rfl | ha
    · apply Nat.lt_of_lt_of_le _ ((started_winners _ winners ipv6).outstanding _)
      simp [Vars.launch, outstanding_launch]
    · exact ih ha

theorem Core.startFastGroup (h : Core v none conns) (winners : List Addr)
    (ipv6 : Bool) : Core (v.startFastGroup winners ipv6) none conns :=
  { (started_winners v winners ipv6).core h with }

theorem fast_startFastGroup (h : Reached v) (hsucceeded : v.fastSucceeded → v.delivered)
    (hne : winners ≠ []) (ipv6 : Bool) :
    Fast (v.startFastGroup winners ipv6) none := by
  have hs := started_winners v winners ipv6
  have hreached := h.started hs
  refine ⟨fun _ => hne, fun _ a ha => outstanding_winners ha, fun _ => rfl, fun hp => ?_, hreached⟩
  unfold Vars.startFastGroup at *
  rw [hs.frame] at hp ⊢
  exact hsucceeded hp

/-! ### Candidates -/

theorem Reached.queue (h : Reached v) (batch : List (Addr × Bool)) :
    Reached { v with answered := v.answered ++ batch, queued := v.queued ++ batch } := by
  intro hnot a f ha hvalid
  rcases mem_append.mp ha with ha | ha
  · exact (h hnot a f ha hvalid).imp_right (mem_append_left _)
  · exact .inr (mem_append_right _ ha)

theorem inv_candidates (hc : Core v none []) (hf : Fast v none) (c : Setup) (ipv6 : Bool)
    (ips : List Addr) : Inv (v.event c (.batch ipv6 ips)) := by
  have hstart : ∀ batch, Inv ⟨{ v with answered := v.answered ++ batch }.startAll batch, .head⟩ :=
    fun batch => ⟨(started_startAll _ batch).core { hc with }, hf.startAll batch⟩
  have hqueue := hf.reached.queue (ips.map fun ip => (ip, ipv6))
  unfold Vars.event Vars.candidates
  simp only
  split
  next hsucceeded =>
    refine ⟨{ hc with }, hf.busy, hf.inFlight, hf.queued, hf.succeeded, fun hnot => ?_⟩
    cases hnot.symm.trans hsucceeded
  · split
    next hwait =>
      split
      · exact hstart _
      · split
        · split
          · exact ⟨.abandonFastPath { hc with }, fast_abandonFastPath hqueue hf.succeeded⟩
          next hne =>
            constructor
            · apply Core.startFastGroup
              exact { hc with }
            · apply fast_startFastGroup
              · exact hqueue
              · exact hf.succeeded
              · simpa using hne
        next hother hcached =>
          -- The queue is extended without the fast path being decided here, so it is under way.
          have hpriority : v.fastPriority = true := by
            cases hpending : v.cachePending with
            | false => simpa [hpending] using hwait
            | true => simp_all
          exact ⟨{ hc with }, hf.busy, hf.inFlight, fun _ => hpriority, hf.succeeded, hqueue⟩
    · exact hstart _

theorem Core.familyDone (h : Core v none []) (c : Setup) (ipv6 : Bool) :
    Core (v.familyDone c ipv6) none [] := by
  unfold Vars.familyDone
  split
  · exact { h.abandonFastPath with }
  · exact { h with }

theorem Fast.familyDone (h : Fast v none) (c : Setup) (ipv6 : Bool) :
    Fast (v.familyDone c ipv6) none := by
  unfold Vars.familyDone
  split
  · exact { fast_abandonFastPath h.reached h.succeeded with }
  · exact { h with }

/-! ### Connections -/

theorem Core.closeConn (h : Core v none [i])
    (hother : v.delivered ∨ v.heldFallback.isSome) : Core (v.closeConn i) none [] :=
  { h with
    balanced := h.balanced.close
    kept := fun _ => or_assoc.mp (.inl hother) }

theorem Base.closeHeld (h : Base v conns) : Base v.closeHeld conns := by
  unfold Vars.closeHeld
  cases hheld : v.heldFallback with
  | none => exact h
  | some i =>
    refine ⟨h.seen, ?_, fun _ => rfl⟩
    have hb := h.balanced
    rw [hheld] at hb
    apply Tasks.Balanced.close
    apply hb.perm
    exact perm_middle

theorem closeHeld_eq (v : Vars) : ∃ dials, v.closeHeld = { v with heldFallback := none, dials } := by
  unfold Vars.closeHeld
  cases hheld : v.heldFallback with
  | none =>
    obtain ⟨⟩ := v
    cases hheld
    exact ⟨_, rfl⟩
  | some i => exact ⟨_, rfl⟩

theorem closeHeld_heldFallback (v : Vars) : v.closeHeld.heldFallback = none := by
  obtain ⟨dials, h⟩ := closeHeld_eq v
  rw [h]

theorem Core.closeHeld (h : Core v none [i]) : Core v.closeHeld none [i] := by
  have hbase := h.toBase.closeHeld
  unfold Vars.closeHeld at hbase ⊢
  cases hheld : v.heldFallback with
  | none => exact h
  | some j =>
    rw [hheld] at hbase
    exact
      { hbase with
        pending := h.pending
        pendingFamily := h.pendingFamily
        kept := fun _ => .inr (.inr (cons_ne_nil _ _))
        sent := h.sent }

theorem Fast.closeHeld {hand : Option (Nat × Attempt × Bool)} (h : Fast v hand) :
    Fast v.closeHeld hand := by
  unfold Vars.closeHeld
  cases v.heldFallback with
  | none => exact h
  | some i => exact { h with }

theorem fast_of_succeeded (hpriority : v.fastPriority = false) (hqueued : v.queued = [])
    (hsucceeded : v.fastSucceeded = true) : Fast { v.closeHeld with delivered := true } none := by
  obtain ⟨dials, h⟩ := closeHeld_eq v
  rw [h]
  refine ⟨fun hp => ?_, fun hp => ?_, absurd hqueued, fun _ => rfl, fun hnot => ?_⟩
  · cases hpriority.symm.trans hp
  · cases hpriority.symm.trans hp
  · cases hsucceeded.symm.trans hnot

theorem inv_deliver (hc : Core v none [i])
    (hf : Fast { v with delivered := true } none) (hheld : v.heldFallback = none) : Inv (v.deliver i) := by
  unfold Vars.deliver
  split
  next hdelivered =>
    exact ⟨hc.closeConn (.inl hdelivered), { hf with succeeded := fun _ => hdelivered }⟩
  next hnot =>
    have hsent : v.sent = [] := hc.sent.resolve_right fun h => hnot h.1
    exact ⟨{ hc with
      exclusive := fun _ => hheld
      kept := fun _ => .inl rfl
      sent := .inl hsent }, hf, rfl, hsent, rfl⟩

theorem inv_deliverHeld (hc : Core v none []) (hf : Fast v none) (ready : Bool) :
    Inv (v.deliverHeld ready) := by
  unfold Vars.deliverHeld
  cases hheld : v.heldFallback with
  | none => exact ⟨hc, hf⟩
  | some i =>
    simp only
    split
    · apply inv_deliver _ _ rfl
      · have hb := hc.balanced
        rw [hheld] at hb
        exact { hc with
          balanced := hb
          exclusive := fun _ => rfl
          kept := fun _ => .inr (.inr (cons_ne_nil _ _)) }
      · exact { hf with succeeded := fun _ => rfl }
    · exact ⟨hc, hf⟩

theorem Core.hold (h : Core v none [i]) (hnot : v.delivered = false) : Core (v.hold i) none [] := by
  unfold Vars.hold
  cases hheld : v.heldFallback with
  | none =>
    have hb := h.balanced
    rw [hheld] at hb
    refine { h with balanced := hb, exclusive := fun hd => ?_, kept := fun _ => .inr (.inl rfl) }
    cases hnot.symm.trans hd
  | some j =>
    apply h.closeConn
    exact .inr (isSome_iff_exists.mpr ⟨j, hheld⟩)

theorem Fast.hold (h : Fast v none) : Fast (v.hold i) none := by
  unfold Vars.hold
  cases v.heldFallback with
  | none | some => exact { h with }

theorem inv_connected (hc : Core v none [i]) (hf : Fast v none) (c : Setup)
    (ipv6 : Bool) : Inv (v.connected c i ipv6) := by
  unfold Vars.connected
  split
  next hdelivered => exact ⟨hc.closeConn (.inl hdelivered), { hf with }⟩
  next hnot =>
    split
    · apply inv_deliver hc.closeHeld _ (closeHeld_heldFallback v)
      exact { hf.closeHeld with succeeded := fun _ => rfl }
    · exact inv_deliverHeld (hc.hold (by simpa using hnot)) hf.hold _

/-! ### Results of dials -/

theorem Core.countOut (h : Core v (some (i, l, ok)) conns) : Core (v.countOut l.ipv6) none conns :=
  { h with
    pending := by
      have := h.pending
      rw [outstanding_some, Bool.toNat_true] at this
      simp only [Vars.countOut]
      omega
    pendingFamily := outstanding_countOut Attempt.ipv6 h.pendingFamily }

theorem Fast.inFlight_none (h : Fast v (some (i, l, ok)))
    (hp : v.fastPriority) (ha : a ∈ v.fastInFlight) (hne : l.fast = true → a ≠ l.ip) :
    0 < v.dials.outstanding none fun l => l.fast && l.ip == a := by
  have hpos := h.inFlight hp a ha
  have hl : (l.fast && l.ip == a) = false := by
    cases hfast : l.fast with
    | false => rfl
    | true => exact beq_eq_false_iff_ne.mpr (.symm (hne hfast))
  rw [outstanding_some, hl] at hpos
  exact hpos

theorem Fast.countOut (h : Fast v (some (i, l, ok)))
    (hslow : l.fast = false) : Fast (v.countOut l.ipv6) none :=
  { h with
    inFlight := fun hp a ha => h.inFlight_none hp ha fun hfast => by rw [hslow] at hfast; cases hfast }

theorem inv_fastResult (hc : Core v (some (i, l, ok)) (if ok then [i] else []))
    (hf : Fast v (some (i, l, ok))) : Inv ((v.countOut l.ipv6).fastResult i l.ip ok) := by
  have hcount := hc.countOut
  -- The winners that are left are other ones than the dialed one.
  have hleft : v.fastPriority → ∀ a ∈ v.fastInFlight.filter (fun a => a != l.ip),
      0 < v.dials.outstanding none fun l => l.fast && l.ip == a := by
    intro hp a ha
    obtain ⟨hmem, hne⟩ := mem_filter.mp ha
    exact hf.inFlight_none hp hmem fun _ => bne_iff_ne.mp hne
  unfold Vars.fastResult
  cases ok with
  | false =>
    simp only [Bool.not_false, if_true]
    split
    · refine ⟨.abandonFastPath { hcount with }, fast_abandonFastPath ?_ hf.succeeded⟩
      exact hf.reached
    next hleave =>
      refine ⟨{ hcount with }, fun hp => ?_, hleft, hf.queued, hf.succeeded, hf.reached⟩
      intro hnil
      apply hleave
      rw [Bool.and_eq_true]
      exact ⟨hp, isEmpty_iff.mpr hnil⟩
  | true =>
    apply inv_deliver _ _ (closeHeld_heldFallback _)
    · exact .closeHeld { hcount with }
    · exact fast_of_succeeded rfl rfl rfl

theorem inv_giveUp (hbase : Base v [])
    (hsent : v.sent = [] ∨ v.delivered ∧ ∃ i, v.sent = [some i]) (hcancelled : v.cancelled) :
    Inv v.giveUp := by
  have hclosed := hbase.closeHeld
  obtain ⟨dials, heq⟩ := closeHeld_eq v
  unfold Vars.giveUp
  rw [heq] at hclosed ⊢
  split
  · refine ⟨hclosed, rfl, hsent.imp_right ?_⟩
    rintro ⟨-, i, hi⟩
    exact ⟨some i, hi, nofun⟩
  next hnot => exact ⟨hclosed, rfl, hsent.resolve_right fun h => hnot h.1, fun _ => .inl hcancelled⟩

theorem inv_receive (hc : Core v (some (i, l, ok)) (if ok then [i] else []))
    (hf : Fast v (some (i, l, ok))) (c : Setup) : Inv (v.receive c i l ok) := by
  unfold Vars.receive
  split
  next hcancelled =>
    cases ok with
    | false => exact inv_giveUp hc.toBase hc.sent hcancelled
    | true =>
      have hbase : Base (v.closeConn i) [] := ⟨hc.seen, hc.balanced.close, hc.exclusive⟩
      exact inv_giveUp hbase hc.sent hcancelled
  · split
    · exact inv_fastResult hc hf
    next hslow =>
      have hslow' : l.fast = false := by simpa using hslow
      cases ok with
      | false => exact inv_deliverHeld hc.countOut (hf.countOut hslow') _
      | true => exact inv_connected hc.countOut (hf.countOut hslow') c _

/-! ### The loop -/

section

variable (hc : Core v none []) (hf : Fast v none)
include hc hf

theorem lost_of_loop (hpending : v.pending = 0)
    (hnot : v.delivered = false) (hheld : v.heldFallback = none) : Lost v := by
  rw [hc.pending] at hpending
  have hunqueued : v.queued = [] := by
    by_contra hne
    have hp := hf.queued hne
    obtain ⟨a, ha⟩ := exists_mem_of_ne_nil _ (hf.busy hp)
    have hpos := hf.inFlight hp a ha
    have hle := v.dials.outstanding_mono none (P := fun l => l.fast && l.ip == a) fun _ _ => rfl
    omega
  refine ⟨fun i hi => ?_, fun a f ha hvalid => ?_, hunqueued⟩
  · rw [Tasks.labels, length_map] at hi
    obtain ⟨ok, htook⟩ := took_of_outstanding hpending rfl (getElem?_eq_getElem hi)
    cases ok with
    | false => exact ⟨_, htook⟩
    | true =>
      rcases hc.kept htook with hd | hsome | hne
      · cases hnot.symm.trans hd
      · rw [hheld] at hsome
        cases hsome
      · exact absurd rfl hne
  · have hfast : v.fastSucceeded = false := by
      cases hs : v.fastSucceeded with
      | false => rfl
      | true => cases hnot.symm.trans (hf.succeeded hs)
    rcases hf.reached hfast a f ha hvalid with hseen | hq
    · exact (hc.seen _).mp hseen
    · rw [hunqueued] at hq
      cases hq

theorem inv_loop (c : Setup) : Inv (v.loop c) := by
  unfold Vars.loop
  split
  next hend =>
    split
    next hdelivered =>
      refine ⟨hc.toBase, hc.exclusive hdelivered, ?_⟩
      rcases hc.sent with hnil | ⟨-, i, hi⟩
      · exact .inl hnil
      · exact .inr ⟨some i, hi, nofun⟩
    next hnot =>
      have hsent : v.sent = [] := hc.sent.resolve_right fun h => hnot h.1
      cases hheld : v.heldFallback with
      | some i =>
        have hb := hc.balanced
        rw [hheld] at hb
        exact ⟨⟨hc.seen, hb, fun _ => rfl⟩, rfl, hsent, nofun⟩
      | none =>
        refine ⟨hc.toBase, hheld, hsent, fun _ => .inr ?_⟩
        exact lost_of_loop hc hf hend.2 (by simpa using hnot) hheld
  · exact ⟨hc, hf⟩

theorem inv_fastTimeout : Inv ⟨v.fastTimeout, .head⟩ := by
  unfold Vars.fastTimeout
  split
  · exact ⟨hc, hf⟩
  · split
    next hnot =>
      have hpriority : v.fastPriority = false := by simpa using hnot
      refine ⟨{ hc with }, fun hp => ?_, fun hp => ?_, hf.queued, hf.succeeded, hf.reached⟩
      · cases hpriority.symm.trans hp
      · cases hpriority.symm.trans hp
    · exact ⟨hc.abandonFastPath, fast_abandonFastPath hf.reached hf.succeeded⟩

end

theorem inv_advance (h : Inv s) (ht : s.advance c = some t) : Inv t := by
  obtain ⟨v, point⟩ := s
  cases point with
  | head =>
    cases ht
    exact inv_loop h.1 h.2 c
  | received i l ok =>
    cases ht
    exact inv_receive h.1 h.2 c
  | fastFired =>
    cases ht
    exact inv_fastTimeout h.1 h.2
  | select | sending | returned => cases ht

theorem inv_take {dials : Tasks Attempt}
    (hc : Core v none []) (hf : Fast v none) (ht : v.dials.take i = some (dials, l, ok)) :
    Inv ⟨{ v with dials := dials }, .received i l ok⟩ := by
  have hlabels := labels_take ht
  refine ⟨⟨⟨?_, hc.balanced.take ht, hc.exclusive⟩, ?_, fun f => ?_, fun hj => ?_, hc.sent⟩, hf.busy,
    fun hp a ha => ?_, hf.queued, hf.succeeded, hf.reached⟩
  · rw [hlabels]
    exact hc.seen
  · rw [outstanding_take ht]
    exact hc.pending
  · rw [outstanding_take ht]
    exact hc.pendingFamily f
  · rw [took_take ht] at hj
    split at hj
    · obtain ⟨-, rfl⟩ := hj
      exact .inr (.inr (cons_ne_nil _ _))
    · rcases hc.kept hj with hd | hh | hne
      · exact .inl hd
      · exact .inr (.inl hh)
      · exact absurd rfl hne
  · rw [outstanding_take ht]
    exact hf.inFlight hp a ha

theorem inv_select {case : Case} (hc : Core v none [])
    (hf : Fast v none) (ht : v.select c case = some t) : Inv t := by
  cases case with
  | done =>
    simp only [Vars.select, ite_none_right_eq_some, Option.some.injEq] at ht
    obtain ⟨hcancelled, rfl⟩ := ht
    exact inv_giveUp hc.toBase hc.sent hcancelled
  | event =>
    simp only [Vars.select] at ht
    split at ht
    · cases ht
    next e events _ =>
      cases ht
      have hc' : Core { v with events := events } none [] := { hc with }
      have hf' : Fast { v with events := events } none := { hf with }
      cases e with
      | done ipv6 => exact inv_deliverHeld (hc'.familyDone c ipv6) (hf'.familyDone c ipv6) _
      | failed ipv6 => exact ⟨hc', hf'⟩
      | batch ipv6 ips => exact inv_candidates hc' hf' c ipv6 ips
  | result i =>
    simp only [Vars.select, map_eq_some_iff] at ht
    obtain ⟨⟨dials, l, ok⟩, htake, rfl⟩ := ht
    exact inv_take hc hf htake
  | preference =>
    simp only [Vars.select, ite_none_right_eq_some, Option.some.injEq] at ht
    obtain ⟨-, rfl⟩ := ht
    apply inv_deliverHeld
    · exact { hc with }
    · exact { hf with }
  | fast =>
    simp only [Vars.select, ite_none_right_eq_some, Option.some.injEq] at ht
    obtain ⟨-, rfl⟩ := ht
    exact ⟨{ hc with }, { hf with }⟩

theorem Base.send (h : Base v conn.toList) : Base { v with sent := v.sent ++ [conn] } [] := by
  refine ⟨h.seen, ?_, h.exclusive⟩
  apply h.balanced.perm
  simp only [Vars.handed, filterMap_append]
  cases conn with
  | none => simp
  | some i =>
    rw [← append_assoc v.heldFallback.toList]
    exact perm_append_comm

theorem Base.unsent (h : Base v conn.toList) : Base (conn.elim v v.closeConn) [] := by
  cases conn with
  | none => exact h
  | some i => exact ⟨h.seen, h.balanced.close, h.exclusive⟩

theorem inv_send {got : Bool} (h : Inv s) (ht : s.send got = some t) : Inv t := by
  obtain ⟨v, point⟩ := s
  cases point with
  | sending conn last =>
    cases last with
    | false =>
      obtain ⟨hc, hf, hdelivered, hsent, hsome⟩ := h
      obtain ⟨i, rfl⟩ := isSome_iff_exists.mp hsome
      simp only [State.send] at ht
      split at ht
      · cases ht
        have hsent' : v.sent ++ [some i] = [some i] := by rw [hsent]; rfl
        refine ⟨⟨hc.toBase.send, hc.pending, hc.pendingFamily, fun _ => .inl hdelivered, ?_⟩, { hf with }⟩
        exact .inr ⟨hdelivered, i, hsent'⟩
      · split at ht
        · cases ht
          exact ⟨hc.closeConn (.inl hdelivered), { hf with }⟩
        · cases ht
    | true =>
      obtain ⟨hbase, hheld, hsent, hfailure⟩ := h
      simp only [State.send] at ht
      split at ht
      · cases ht
        have hsent' : v.sent ++ [conn] = [conn] := by rw [hsent]; rfl
        refine ⟨hbase.send, hheld, .inr ⟨conn, hsent', fun hnone => ?_⟩⟩
        exact (hfailure hnone).imp_right fun hlost => { hlost with }
      · split at ht
        · cases ht
          refine ⟨hbase.unsent, ?_, .inl ?_⟩
          · cases conn <;> exact hheld
          · cases conn <;> exact hsent
        · cases ht
  | head | select | received | fastFired | returned => cases ht

/-! ### Steps of the others -/

section Others

variable {v : Vars} {dials : Tasks Attempt}

theorem Base.quiet {conns : List Nat} (h : Base v conns) (hq : Tasks.Quiet v.dials dials) :
    Base { v with dials := dials } conns where
  seen a := by
    rw [hq.labels]
    exact h.seen a
  balanced := hq.balanced h.balanced
  exclusive := h.exclusive

variable {hand : Option (Nat × Attempt × Bool)} {s : State}

theorem Core.quiet {conns : List Nat} (h : Core v hand conns)
    (hq : Tasks.Quiet v.dials dials) : Core { v with dials := dials } hand conns where
  toBase := h.toBase.quiet hq
  pending := by
    rw [hq.outstanding]
    exact h.pending
  pendingFamily f := by
    rw [hq.outstanding]
    exact h.pendingFamily f
  kept hi := h.kept ((hq.took _ _ _).mp hi)
  sent := h.sent

theorem Fast.quiet (h : Fast v hand)
    (hq : Tasks.Quiet v.dials dials) : Fast { v with dials := dials } hand :=
  { h with
    inFlight := by
      intro hp a ha
      rw [hq.outstanding]
      exact h.inFlight hp a ha }

theorem Failure.quiet (h : Failure v) (hq : Tasks.Quiet v.dials dials) :
    Failure { v with dials := dials } := by
  apply h.imp_right
  intro hlost
  refine ⟨fun i hi => ?_, fun a f ha hvalid => ?_, hlost.unqueued⟩
  · rw [hq.labels] at hi
    exact (hlost.failed i hi).imp fun l => (hq.took ..).mpr
  · rw [hq.labels]
    exact hlost.dialed a f ha hvalid

theorem Inv.imp {w : Vars} {point : Point} (h : Inv ⟨v, point⟩)
    (hbase : ∀ {conns}, Base v conns → Base w conns)
    (hcore : ∀ {hand conns}, Core v hand conns → Core w hand conns)
    (hfast : ∀ {hand}, Fast v hand → Fast w hand) (hfailure : Failure v → Failure w)
    (hheld : w.heldFallback = v.heldFallback) (hdelivered : w.delivered = v.delivered)
    (hsent : w.sent = v.sent) : Inv ⟨w, point⟩ := by
  cases point with
  | sending conn last =>
    cases last with
    | false =>
      obtain ⟨hc, hf, hd, hs, hsome⟩ := h
      exact ⟨hcore hc, hfast hf, hdelivered.trans hd, hsent.trans hs, hsome⟩
    | true =>
      obtain ⟨hb, hh, hs, hf⟩ := h
      exact ⟨hbase hb, hheld.trans hh, hsent.trans hs, fun hnone => hfailure (hf hnone)⟩
  | returned =>
    refine ⟨hbase h.1, hheld.trans h.2.1, h.2.2.imp hsent.trans ?_⟩
    rintro ⟨conn, hconn, hf⟩
    exact ⟨conn, hsent.trans hconn, fun hnone => hfailure (hf hnone)⟩
  | _ => exact ⟨hcore h.1, hfast h.2⟩

theorem Inv.quiet (h : Inv s) (hq : Tasks.Quiet s.vars.dials dials) : Inv (s.setDials dials) :=
  .imp h (fun h => h.quiet hq) (fun h => h.quiet hq) (fun h => h.quiet hq) (fun h => h.quiet hq)
    rfl rfl rfl

theorem Inv.around (h : Inv s) {cancelled : Bool} (hcancelled : s.vars.cancelled → cancelled)
    (feeding : Bool → Bool) (events : List Candidates) :
    Inv ⟨{ s.vars with cancelled := cancelled, feeding := feeding, events := events }, s.point⟩ :=
  .imp h (fun h => { h with }) (fun h => { h with }) (fun h => { h with })
    (fun h => h.imp hcancelled fun hlost => { hlost with }) rfl rfl rfl

end Others

/-! ### Every step -/

theorem inv_init (c : Setup) : Inv (init c) := by
  have hbase : Base (init c).vars [] := ⟨by simp [init, Tasks.empty, Tasks.labels],
    balanced_empty, fun h => by cases h⟩
  unfold init at hbase ⊢
  split
  · refine ⟨hbase, rfl, rfl, fun _ => .inr ⟨?_, ?_, rfl⟩⟩ <;> simp [Tasks.empty, Tasks.labels]
  · refine ⟨⟨hbase, rfl, fun f => rfl, fun h => ?_, .inl rfl⟩, ?_, ?_, absurd rfl, ?_, ?_⟩
    · simp [Tasks.Took, Tasks.empty] at h
    all_goals simp [Reached]

theorem next_of_step (h : step c s e = .ok t) : next c s e = some t := by
  unfold step at h
  split at h
  next t' ht =>
    cases h
    exact ht
  · cases h

theorem inv_step (h : Inv s) (ht : step c s e = .ok t) : Inv t := by
  have hnext := next_of_step ht
  cases e with
  | cancel =>
    cases hnext
    exact h.around (fun _ => rfl) ..
  | answer | exhausted | stopped =>
    simp only [next, ite_none_right_eq_some, Option.some.injEq] at hnext
    obtain ⟨-, rfl⟩ := hnext
    exact h.around (fun hc => hc) ..
  | dialed i ok =>
    obtain ⟨dials, hdials, rfl⟩ := map_eq_some_iff.mp hnext
    exact h.quiet (finish_quiet hdials)
  | abandon i =>
    simp only [next, ite_none_right_eq_some] at hnext
    obtain ⟨dials, hdials, rfl⟩ := map_eq_some_iff.mp hnext.2
    exact h.quiet (drop_quiet hdials)
  | advance => exact inv_advance h hnext
  | select case =>
    simp only [next, ite_none_right_eq_some] at hnext
    obtain ⟨v, point⟩ := s
    obtain ⟨hpoint, hselect⟩ := hnext
    cases hpoint
    exact inv_select h.1 h.2 hselect
  | send got => exact inv_send h hnext

end Mihomo.Dialer.Progressive
