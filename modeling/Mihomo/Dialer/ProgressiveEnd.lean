import Mihomo.Dialer.ProgressiveRace

/-!
# The progressive race comes to an end

`Vars.work` bounds what is left to do. Each step of the function uses some of it up and only a feed
adds to it. Between the steps the function waits for a feed, a dial or its caller and for nothing else.
-/

namespace Mihomo.Dialer.Progressive
open Net Lib Lib.Handoff List Function Option Nat Bool Tasks

/-! ### What is left to do -/

def Candidates.work : Candidates → Nat
  | batch _ ips => 2 + 7 * ips.length
  | failed _ => 2
  | done _ => 3

def Vars.work (v : Vars) (c : Setup) : Nat :=
  (v.events.map Candidates.work).sum + 7 * v.dials.untaken (fun _ => true) + 7 * v.queued.length +
    3 * v.preferenceTimer.toNat + 3 * v.fastTimer.toNat +
    bif v.cachePending then 7 * c.cachedWinners.length + 3 else 0

def Point.work : Point → Nat
  | returned => 0
  | sending _ true => 1
  | select => 2
  | head => 3
  | fastFired => 4
  | sending _ false => 4
  | received .. => 8

def State.work (s : State) (c : Setup) : Nat := s.vars.work c + s.point.work

structure Same (v w : Vars) : Prop where
  cancelled : w.cancelled = v.cancelled
  feeding : w.feeding = v.feeding
  events : w.events = v.events
  doneFamilies : w.doneFamilies = v.doneFamilies
  doneFamily : w.doneFamily = v.doneFamily
  undropped : v.dials.Undropped → w.dials.Undropped

theorem Same.refl (v : Vars) : Same v v := ⟨rfl, rfl, rfl, rfl, rfl, fun h => h⟩

structure Adds (c : Setup) (n : Nat) (v w : Vars) : Prop extends Same v w where
  work : w.work c ≤ v.work c + n

structure Leads (c : Setup) (n : Nat) (v : Vars) (s : State) : Prop extends Same v s.vars where
  notSelect : s.point ≠ .select
  work : s.work c ≤ v.work c + n

section Work

variable {c : Setup} {m n : Nat} {u v w : Vars} {s : State}

theorem Same.adds (h : Same v w) (hwork : w.work c = v.work c) : Adds c 0 v w :=
  ⟨h, le_of_eq hwork⟩

theorem Adds.refl (v : Vars) : Adds c 0 v v := (Same.refl v).adds rfl

theorem Adds.le (h : Adds c m v w) (hle : m ≤ n) : Adds c n v w :=
  ⟨h.toSame, h.work.trans (Nat.add_le_add_left hle _)⟩

theorem Same.trans (h : Same u v) (h' : Same v w) : Same u w :=
  ⟨h'.cancelled.trans h.cancelled, h'.feeding.trans h.feeding, h'.events.trans h.events,
    h'.doneFamilies.trans h.doneFamilies, h'.doneFamily.trans h.doneFamily,
    fun hu => h'.undropped (h.undropped hu)⟩

theorem Adds.trans (h : Adds c m u v) (h' : Adds c n v w) : Adds c (m + n) u w := by
  refine ⟨h.toSame.trans h'.toSame, ?_⟩
  have := h.work
  have := h'.work
  omega

theorem Adds.leads (h : Adds c m v w) {point : Point} (hp : point ≠ .select)
    (hle : m + point.work ≤ n) : Leads c n v ⟨w, point⟩ := by
  refine ⟨h.toSame, hp, ?_⟩
  have := h.work
  simp only [State.work]
  omega

theorem Leads.of_adds {k : Nat} (h : Leads c m w s) (h' : Adds c k v w) (hle : m + k ≤ n) :
    Leads c n v s := by
  refine ⟨h'.toSame.trans h.toSame, h.notSelect, ?_⟩
  have := h.work
  have := h'.work
  omega

variable (c v)

theorem adds_launch (l : Attempt) : Adds c 7 v (v.launch l) := by
  refine ⟨⟨rfl, rfl, rfl, rfl, rfl, fun h => h.launch l⟩, ?_⟩
  simp only [Vars.work, Vars.launch, untaken_launch, toNat_true]
  omega

theorem adds_start (candidate : Addr × Bool) : Adds c 7 v (v.start candidate) := by
  unfold Vars.start
  simp only
  split
  · exact (Adds.refl v).le (by decide)
  · split
    · exact (Adds.refl v).le (by decide)
    · exact adds_launch ..

theorem adds_startAll (candidates : List (Addr × Bool)) :
    Adds c (7 * candidates.length) v (v.startAll candidates) := by
  induction candidates generalizing v with
  | nil => exact .refl v
  | cons candidate candidates ih =>
    apply ((adds_start c v candidate).trans (ih _)).le
    rw [length_cons]
    omega

theorem adds_abandonFastPath : Adds c 0 v v.abandonFastPath := by
  have hall := adds_startAll c { v with
    cachePending := false, fastPriority := false, fastInFlight := [], fastTimer := false } v.queued
  have hqueued := congrArg Vars.queued (started_startAll { v with
    cachePending := false, fastPriority := false, fastInFlight := [], fastTimer := false } v.queued).frame
  refine ⟨{ hall.toSame with }, ?_⟩
  have hwork := hall.work
  simp only [Vars.work, Vars.abandonFastPath, Vars.startQueued, hqueued, length_nil,
    toNat_false, cond_false] at hwork ⊢
  omega

theorem adds_startFastGroup (winners : List Addr) (ipv6 : Bool) :
    Adds c (7 * winners.length + 3) v (v.startFastGroup winners ipv6) := by
  have hwinners : Adds c (7 * winners.length) v
      (winners.foldl (fun v ip => v.launch ⟨ip, ipv6, true⟩) v) := by
    induction winners generalizing v with
    | nil => exact .refl v
    | cons ip winners ih =>
      apply ((adds_launch c v ⟨ip, ipv6, true⟩).trans (ih _)).le
      rw [length_cons]
      omega
  refine ⟨{ hwinners.toSame with }, ?_⟩
  have hwork := hwinners.work
  simp only [Vars.work, Vars.startFastGroup, toNat_true] at hwork ⊢
  omega

theorem adds_candidates (ipv6 : Bool) (ips : List Addr) :
    Adds c (7 * ips.length) v (v.candidates c ipv6 ips) := by
  have hstart := adds_startAll c v (ips.map fun ip => (ip, ipv6))
  rw [length_map] at hstart
  fun_cases Vars.candidates v c ipv6 ips
  case case1 => exact (Adds.refl v).le (zero_le _)
  case case2 | case6 => exact hstart
  case case3 =>
    have habandon := adds_abandonFastPath c { v with
      queued := v.queued ++ ips.map fun ip => (ip, ipv6)
      cachePending := false }
    refine ⟨{ habandon.toSame with }, habandon.work.trans ?_⟩
    simp only [Vars.work, length_append, length_map, cond_false]
    omega
  case case4 hcached _ _ _ =>
    have hpending : v.cachePending = true := (and_eq_true _ _ ▸ hcached).1
    have hgroup := adds_startFastGroup c { v with
      queued := v.queued ++ ips.map fun ip => (ip, ipv6)
      cachePending := false } (c.cachedWinners.filter (Vars.containsCandidate ips)) ipv6
    refine ⟨{ hgroup.toSame with }, hgroup.work.trans ?_⟩
    have hle := length_filter_le (Vars.containsCandidate ips) c.cachedWinners
    simp only [Vars.work, length_append, length_map, hpending, cond_false, cond_true]
    omega
  case case5 =>
    refine ⟨{ Same.refl v with }, ?_⟩
    simp +zetaDelta only [Vars.work, length_append, length_map]
    omega

theorem work_familyDone (ipv6 : Bool) : (v.familyDone c ipv6).work c ≤ v.work c := by
  unfold Vars.familyDone
  split
  · exact (adds_abandonFastPath c v).work
  · exact le_refl _

theorem adds_closeHeld : Adds c 0 v v.closeHeld := by
  unfold Vars.closeHeld
  split
  · exact .refl v
  · exact Same.adds { Same.refl v with } rfl

theorem adds_closeConn (i : Nat) : Adds c 0 v (v.closeConn i) := Same.adds { Same.refl v with } rfl

theorem leads_deliver (i : Nat) : Leads c 4 v (v.deliver i) := by
  have hdelivered : Adds c 0 v { v with delivered := true } := Same.adds { Same.refl v with } rfl
  unfold Vars.deliver
  split
  · exact (adds_closeConn c v i).leads nofun (by decide)
  · exact hdelivered.leads nofun (le_refl 4)

theorem leads_deliverHeld (ready : Bool) : Leads c 4 v (v.deliverHeld ready) := by
  have hheld : Adds c 0 v { v with heldFallback := none } := Same.adds { Same.refl v with } rfl
  unfold Vars.deliverHeld
  split
  · exact (Adds.refl v).leads nofun (by decide)
  next i _ =>
    split
    · exact (leads_deliver c _ i).of_adds hheld (by decide)
    · exact (Adds.refl v).leads nofun (by decide)

theorem adds_hold (i : Nat) : Adds c 3 v (v.hold i) := by
  unfold Vars.hold
  split
  · refine ⟨{ Same.refl v with }, ?_⟩
    simp only [Vars.work, toNat_true]
    omega
  · exact (adds_closeConn c v i).le (by decide)

theorem leads_connected (i : Nat) (ipv6 : Bool) : Leads c 7 v (v.connected c i ipv6) := by
  unfold Vars.connected
  split
  · exact (adds_closeConn c v i).leads nofun (by decide)
  · split
    · exact (leads_deliver c v.closeHeld i).of_adds (adds_closeHeld c v) (by decide)
    · exact (leads_deliverHeld c (v.hold i) _).of_adds (adds_hold c v i) (le_refl 7)

theorem leads_fastResult (i : Nat) (ip : Addr) (ok : Bool) : Leads c 7 v (v.fastResult i ip ok) := by
  have hleft : Adds c 0 v { v with fastInFlight := v.fastInFlight.filter fun a => a != ip } :=
    Same.adds { Same.refl v with } rfl
  unfold Vars.fastResult
  simp only
  split
  · split
    · exact (hleft.trans (adds_abandonFastPath c _)).leads nofun (by decide)
    · exact hleft.leads nofun (by decide)
  · have hwon : Adds c 0 v { v with
        fastInFlight := v.fastInFlight.filter fun a => a != ip
        fastSucceeded := true
        queued := []
        fastPriority := false } := by
      refine ⟨{ Same.refl v with }, ?_⟩
      simp only [Vars.work, length_nil]
      omega
    exact (leads_deliver c _ i).of_adds (hwon.trans (adds_closeHeld c _)) (by decide)

theorem leads_giveUp : Leads c 1 v v.giveUp := by
  unfold Vars.giveUp
  split <;> exact (adds_closeHeld c v).leads nofun (by decide)

theorem leads_receive (i : Nat) (l : Attempt) (ok : Bool) : Leads c 7 v (v.receive c i l ok) := by
  have hcount : Adds c 0 v (v.countOut l.ipv6) := Same.adds { Same.refl v with } rfl
  fun_cases Vars.receive v c i l ok
  case case1 =>
    have hclosed : Adds c 0 v (if ok then v.closeConn i else v) := by
      cases ok with
      | false => exact .refl v
      | true => exact adds_closeConn c v i
    exact (leads_giveUp c _).of_adds hclosed (by decide)
  case case2 => exact (leads_fastResult c _ i l.ip ok).of_adds hcount (by decide)
  case case3 => exact (leads_deliverHeld c ..).of_adds hcount (by decide)
  case case4 => exact (leads_connected c _ i l.ipv6).of_adds hcount (by decide)

theorem adds_fastTimeout : Adds c 0 v v.fastTimeout := by
  unfold Vars.fastTimeout
  split
  · exact .refl v
  · split
    · refine ⟨{ Same.refl v with }, ?_⟩
      simp only [Vars.work, toNat_false]
      omega
    · exact adds_abandonFastPath c v

theorem work_loop : (v.loop c).work c ≤ v.work c + 2 := by
  unfold Vars.loop
  split
  · split
    · exact le_add_right _ 2
    · split <;> exact le_succ _
  · exact le_refl _

theorem work_event (e : Candidates) : (v.event c e).work c ≤ v.work c + e.work + 1 := by
  cases e with
  | done ipv6 =>
    have hdeliver := (leads_deliverHeld c (v.familyDone c ipv6) ((v.familyDone c ipv6).preferredDone c)).work
    have hdone := work_familyDone c v ipv6
    simp only [Vars.event, Candidates.work]
    omega
  | failed ipv6 => exact le_refl _
  | batch ipv6 ips =>
    have hbatch := (adds_candidates c
      { v with answered := v.answered ++ ips.map fun ip => (ip, ipv6) } ipv6 ips).work
    have hsame : { v with answered := v.answered ++ ips.map fun ip => (ip, ipv6) }.work c = v.work c := rfl
    simp only [Vars.event, State.work, Candidates.work, Point.work]
    omega

end Work

def Event.cost : Event → Nat
  | advance | select _ | send _ => 1
  | _ => 0

def Event.credit : Event → Nat
  | answer ipv6 ips => (answerOf ipv6 ips).work
  | exhausted ipv6 => (Candidates.done ipv6).work
  | _ => 0

variable {s t : State} {c : Setup} {v w : Vars} {events : List Candidates}
  {m n : Nat} {case : Case} {got ipv6 : Bool} {e : Event}

/-! ### What the function waits for -/

/-- The end of a started feed has been read or is in the channel, unless the feed still runs or the
context is done. -/
structure Fed (c : Setup) (v : Vars) : Prop where
  doneFamilies : v.doneFamilies = (v.doneFamily false).toNat + (v.doneFamily true).toNat
  atMost : ∀ f, (v.feeding f).toNat + v.events.count (.done f) + (v.doneFamily f).toNat ≤
    (c.startedFamily f).toNat
  exactly : v.cancelled = false → ∀ f,
    (v.feeding f).toNat + v.events.count (.done f) + (v.doneFamily f).toNat = (c.startedFamily f).toNat
  undropped : v.cancelled = false → v.dials.Undropped

theorem Fed.change (h : Fed c v) (hcancelled : w.cancelled = v.cancelled)
    (hfamilies : w.doneFamilies = (w.doneFamily false).toNat + (w.doneFamily true).toNat)
    (hsum : ∀ f, (w.feeding f).toNat + w.events.count (.done f) + (w.doneFamily f).toNat =
      (v.feeding f).toNat + v.events.count (.done f) + (v.doneFamily f).toNat)
    (hundropped : v.dials.Undropped → w.dials.Undropped) : Fed c w where
  doneFamilies := hfamilies
  atMost f := (hsum f).trans_le (h.atMost f)
  exactly hc f := (hsum f).trans (h.exactly (hcancelled.symm.trans hc) f)
  undropped hc := hundropped (h.undropped (hcancelled.symm.trans hc))

theorem Fed.same (h : Fed c v) (hs : Same v w) : Fed c w := by
  refine h.change hs.cancelled ?_ (fun f => ?_) hs.undropped
  · rw [hs.doneFamilies, hs.doneFamily]
    exact h.doneFamilies
  · rw [hs.feeding, hs.events, hs.doneFamily]

def Waits (c : Setup) : State → Prop
  | ⟨_, .returned⟩ => True
  | ⟨v, .select⟩ => Fed c v ∧ ¬ (v.doneFamilies = c.families ∧ v.pending = 0)
  | ⟨v, _⟩ => Fed c v

theorem waits_of_leads (h : Fed c v) (hs : Leads c n v s) : Waits c s := by
  obtain ⟨w, point⟩ := s
  have hfed := h.same hs.toSame
  cases point with
  | returned => trivial
  | select => exact absurd rfl hs.notSelect
  | _ => exact hfed

theorem fed_of_waits (h : Waits c s) (hne : s.point ≠ .returned) : Fed c s.vars := by
  obtain ⟨v, point⟩ := s
  cases point with
  | returned => exact absurd rfl hne
  | select => exact h.1
  | _ => exact h

theorem waits_loop (h : Fed c v) : Waits c (v.loop c) := by
  unfold Vars.loop
  split
  · split
    · trivial
    · split
      · exact h.same { Same.refl v with }
      · exact h
  next hnot => exact ⟨h, hnot⟩

theorem count_done_cons (f : Bool) (e : Candidates) (events : List Candidates) :
    (e :: events).count (.done f) = events.count (.done f) + if e = .done f then 1 else 0 := by
  by_cases h : e = .done f <;> simp [h]

theorem Fed.pop {e : Candidates} (h : Fed c v)
    (hevents : v.events = e :: events) (hne : ∀ f, e ≠ .done f) : Fed c { v with events := events } := by
  refine h.change rfl h.doneFamilies (fun f => ?_) fun hu => hu
  rw [hevents, count_done_cons, if_neg (hne f)]
  rfl

theorem Fed.done (h : Fed c v)
    (hevents : v.events = .done ipv6 :: events) (hsame : Same { v with events := events } w) :
    Fed c { w with
      doneFamilies := w.doneFamilies + 1
      doneFamily := update w.doneFamily ipv6 true } := by
  have hcount : ∀ f, v.events.count (.done f) = events.count (.done f) + if ipv6 = f then 1 else 0 := by
    intro f
    rw [hevents, count_done_cons]
    simp
  have hnot : v.doneFamily ipv6 = false := by
    have hle := h.atMost ipv6
    rw [hcount, if_pos rfl] at hle
    have hone := (c.startedFamily ipv6).toNat_le
    cases hd : v.doneFamily ipv6 with
    | false => rfl
    | true =>
      rw [hd, toNat_true] at hle
      omega
  refine h.change hsame.cancelled ?_ (fun f => ?_) hsame.undropped
  · rw [hsame.doneFamilies, hsame.doneFamily]
    simp only [h.doneFamilies]
    cases ipv6 with
    | false =>
      rw [hnot]
      simp [add_comm]
    | true =>
      rw [hnot]
      simp
  · simp only [hsame.feeding, hsame.events, hsame.doneFamily, hcount]
    by_cases hf : ipv6 = f
    · subst hf
      simp [hnot]
      omega
    · rw [if_neg hf, update_of_ne (.symm hf)]
      rfl

theorem Fed.familyDone (h : Fed c v) (hevents : v.events = .done ipv6 :: events) :
    Fed c ({ v with events := events }.familyDone c ipv6) := by
  apply h.done hevents
  split
  · exact (adds_abandonFastPath c _).toSame
  · exact .refl _

theorem waits_event {e : Candidates} (h : Fed c v)
    (hevents : v.events = e :: events) : Waits c ({ v with events := events }.event c e) := by
  cases e with
  | done ipv6 => exact waits_of_leads (h.familyDone hevents) (leads_deliverHeld c ..)
  | failed ipv6 => exact h.pop hevents nofun
  | batch ipv6 ips =>
    apply (h.pop hevents nofun).same
    apply Same.trans _ (adds_candidates c _ ipv6 ips).toSame
    exact { Same.refl _ with }

/-! ### What a step does -/

/-- A step that costs `m` keeps what the function waits for and adds at most `n` to what is left. -/
structure Runs (c : Setup) (m n : Nat) (s t : State) : Prop where
  waits : Waits c s → Waits c t
  work : m + t.work c ≤ s.work c + n

theorem Leads.runs {point : Point} (h : Leads c n v t) (hle : n + 1 ≤ point.work) :
    Runs c 1 0 ⟨v, point⟩ t := by
  have hne : point ≠ .returned := by
    rintro rfl
    cases hle
  refine ⟨fun hw => waits_of_leads (fed_of_waits hw hne) h, ?_⟩
  have hwork := h.work
  simp only [State.work] at hwork ⊢
  omega

theorem runs_of_fed (hfed : s.point ≠ .returned → Fed c s.vars → Fed c w)
    (hdone : w.doneFamilies = s.vars.doneFamilies) (hpending : w.pending = s.vars.pending)
    (hwork : w.work c ≤ s.vars.work c + n) : Runs c 0 n s ⟨w, s.point⟩ := by
  refine ⟨fun h => ?_, ?_⟩
  · obtain ⟨v, point⟩ := s
    cases point with
    | returned => trivial
    | select =>
      refine ⟨hfed nofun h.1, ?_⟩
      rw [hdone, hpending]
      exact h.2
    | _ => exact hfed nofun h
  · simp only [State.work]
    omega

theorem runs_advance (ht : s.advance c = some t) : Runs c 1 0 s t := by
  obtain ⟨v, point⟩ := s
  cases point with
  | head =>
    cases ht
    refine ⟨waits_loop, ?_⟩
    have hwork := work_loop c v
    simp only [State.work, Point.work] at hwork ⊢
    omega
  | received i l ok =>
    cases ht
    exact (leads_receive c v i l ok).runs (le_refl 8)
  | fastFired =>
    cases ht
    have hleads : Leads c 3 v ⟨v.fastTimeout, .head⟩ := (adds_fastTimeout c v).leads nofun (le_refl 3)
    exact hleads.runs (le_refl 4)
  | select | sending | returned => cases ht

theorem runs_select (ht : v.select c case = some t) : Runs c 1 0 ⟨v, .select⟩ t := by
  cases case with
  | done =>
    simp only [Vars.select, ite_none_right_eq_some, some.injEq] at ht
    obtain ⟨-, rfl⟩ := ht
    exact (leads_giveUp c v).runs (le_refl 2)
  | event =>
    simp only [Vars.select] at ht
    split at ht
    · cases ht
    next e events hevents =>
      cases ht
      refine ⟨fun h => waits_event h.1 hevents, ?_⟩
      have hevent := work_event c { v with events := events } e
      simp only [State.work, Point.work, Vars.work, hevents, map_cons, sum_cons] at hevent ⊢
      omega
  | result i =>
    simp only [Vars.select, map_eq_some_iff] at ht
    obtain ⟨⟨dials, l, ok⟩, htake, rfl⟩ := ht
    apply Leads.runs _ (le_refl 2)
    refine ⟨⟨rfl, rfl, rfl, rfl, rfl, fun hu => hu.take htake⟩, by simp, ?_⟩
    have huntaken := untaken_take htake fun _ => true
    simp only [State.work, Point.work, Vars.work, toNat_true] at huntaken ⊢
    omega
  | preference =>
    simp only [Vars.select, ite_none_right_eq_some, some.injEq] at ht
    obtain ⟨htimer, rfl⟩ := ht
    have hleads := leads_deliverHeld c { v with preferenceTimer := false } true
    apply Leads.runs _ (le_refl 2)
    refine ⟨{ hleads.toSame with }, hleads.notSelect, ?_⟩
    have hwork := hleads.work
    simp only [Vars.work, htimer, toNat_true, toNat_false] at hwork ⊢
    omega
  | fast =>
    simp only [Vars.select, ite_none_right_eq_some, some.injEq] at ht
    obtain ⟨htimer, rfl⟩ := ht
    apply Leads.runs _ (le_refl 2)
    refine ⟨{ Same.refl v with }, by simp, ?_⟩
    simp only [State.work, Point.work, Vars.work, htimer, toNat_true, toNat_false]
    omega

theorem runs_send (ht : s.send got = some t) : Runs c 1 0 s t := by
  obtain ⟨v, point⟩ := s
  cases point with
  | sending conn last =>
    have hgoes : ∀ {w}, Adds c 0 v w → Runs c 1 0 ⟨v, .sending conn last⟩ ⟨w, .afterSend last⟩ := by
      intro w h
      have hleads : Leads c (Point.afterSend last).work v ⟨w, .afterSend last⟩ :=
        h.leads (by cases last <;> nofun) (le_of_eq (zero_add _))
      exact hleads.runs (by cases last <;> exact le_refl _)
    simp only [State.send] at ht
    split at ht
    · cases ht
      exact hgoes (Same.adds { Same.refl v with } rfl)
    · split at ht
      · cases ht
        apply hgoes
        cases conn with
        | none => exact .refl v
        | some i => exact adds_closeConn c v i
      · cases ht
  | head | select | received | fastFired | returned => cases ht

theorem runs_step (ht : step c s e = .ok t) : Runs c e.cost e.credit s t := by
  have hnext := next_of_step ht
  have hcancelled : s.done = true → s.point ≠ .returned → s.vars.cancelled = true := by
    intro hdone hne
    simpa [State.done, hne] using hdone
  cases e with
  | cancel =>
    cases hnext
    exact runs_of_fed (fun _ hfed => ⟨hfed.doneFamilies, hfed.atMost, nofun, nofun⟩) rfl rfl (le_refl _)
  | answer ipv6 ips =>
    simp only [next, ite_none_right_eq_some, some.injEq] at hnext
    obtain ⟨-, rfl⟩ := hnext
    refine runs_of_fed (fun _ hfed => ?_) rfl rfl ?_
    · refine hfed.change rfl hfed.doneFamilies (fun f => ?_) fun hu => hu
      cases ips <;> simp [answerOf]
    · simp only [Vars.work, Event.credit, map_append, List.sum_append, map_cons, map_nil, sum_cons, sum_nil]
      omega
  | exhausted ipv6 =>
    simp only [next, ite_none_right_eq_some, some.injEq] at hnext
    obtain ⟨hfeed, rfl⟩ := hnext
    refine runs_of_fed (fun _ hfed => ?_) rfl rfl ?_
    · have hfeeding : s.vars.feeding ipv6 = true := (and_eq_true _ _ ▸ hfeed).1
      refine hfed.change rfl hfed.doneFamilies (fun f => ?_) fun hu => hu
      -- The end of the feed takes the place of the running feed.
      simp only [count_append, count_done_cons]
      by_cases hf : ipv6 = f
      · subst hf
        simp [hfeeding]
        omega
      · rw [update_of_ne (.symm hf), if_neg (by simpa using hf)]
        rfl
    · simp only [Vars.work, Event.credit, map_append, List.sum_append, map_cons, map_nil, sum_cons, sum_nil]
      omega
  | stopped ipv6 =>
    simp only [next, ite_none_right_eq_some, some.injEq] at hnext
    obtain ⟨hdone, rfl⟩ := hnext
    refine runs_of_fed (fun hne hfed => ?_) rfl rfl (le_refl _)
    have hc := hcancelled hdone hne
    refine ⟨hfed.doneFamilies, fun f => ?_, fun hnot => ?_, fun hnot => ?_⟩
    · have hle : (update s.vars.feeding ipv6 false f).toNat ≤ (s.vars.feeding f).toNat := by
        by_cases hf : f = ipv6
        · subst hf
          simp
        · rw [update_of_ne hf]
      exact Nat.le_trans (Nat.add_le_add_right (Nat.add_le_add_right hle _) _) (hfed.atMost f)
    · cases hc.symm.trans hnot
    · cases hc.symm.trans hnot
  | dialed i ok =>
    obtain ⟨dials, hdials, rfl⟩ := map_eq_some_iff.mp hnext
    refine runs_of_fed (fun _ hfed => ?_) rfl rfl ?_
    · exact hfed.same ⟨rfl, rfl, rfl, rfl, rfl, fun hu => hu.finish hdials⟩
    · simp only [Vars.work, (finish_quiet hdials).untaken fun _ => true]
      exact le_refl _
  | abandon i =>
    simp only [next, ite_none_right_eq_some] at hnext
    obtain ⟨hdone, hnext⟩ := hnext
    obtain ⟨dials, hdials, rfl⟩ := map_eq_some_iff.mp hnext
    refine runs_of_fed (fun hne hfed => ?_) rfl rfl ?_
    · refine ⟨hfed.doneFamilies, hfed.atMost, hfed.exactly, fun hnot => ?_⟩
      cases (hcancelled hdone hne).symm.trans hnot
    · simp only [Vars.work, (drop_quiet hdials).untaken fun _ => true]
      exact le_refl _
  | advance => exact runs_advance hnext
  | select case =>
    simp only [next, ite_none_right_eq_some] at hnext
    obtain ⟨v, point⟩ := s
    obtain ⟨hpoint, hselect⟩ := hnext
    cases hpoint
    exact runs_select hselect
  | send got => exact runs_send hnext

theorem waits_init (c : Setup) : Waits c (init c) := by
  have hfed : Fed c (init c).vars := by
    refine ⟨rfl, fun f => ?_, fun _ f => ?_, fun _ t ht => ?_⟩
    · exact le_refl _
    · rfl
    · cases ht
  have hne : (init c).point ≠ .select := by
    simp only [init]
    split <;> simp
  exact waits_of_leads hfed ⟨.refl _, hne, le_refl _⟩

theorem Waits.progress (h : Waits c s) (hinv : Inv s) (hne : s.point ≠ .returned)
    (hfeeds : ∀ f, s.vars.feeding f = false) (hdials : ∀ t ∈ s.vars.dials.all, t.phase ≠ .running) :
    ∃ e t, Event.cost e = 1 ∧ step c s e = .ok t := by
  obtain ⟨v, point⟩ := s
  cases point with
  | head | received | fastFired => exact ⟨.advance, _, rfl, rfl⟩
  | sending conn last => exact ⟨.send true, _, rfl, rfl⟩
  | returned => exact absurd rfl hne
  | select =>
    obtain ⟨hfed, hloop⟩ := h
    cases hc : v.cancelled with
    | true => exact ⟨.select .done, v.giveUp, rfl, by simp [step, next, Vars.select, hc]⟩
    | false =>
      cases hevents : v.events with
      | cons e events =>
        exact ⟨.select .event, { v with events := events }.event c e, rfl,
          by simp [step, next, Vars.select, hevents]⟩
      | nil =>
        -- All families are done, so that a dial is pending; its result is on offer.
        have hall := hfed.exactly hc
        have hended : ∀ f, v.feeding f = false := hfeeds
        have hfamilies : v.doneFamilies = c.families := by
          have hfalse := hall false
          have htrue := hall true
          simp only [hended, hevents, count_nil, toNat_false] at hfalse htrue
          rw [hfed.doneFamilies, Setup.families]
          omega
        have hpending : v.pending ≠ 0 := fun h0 => hloop ⟨hfamilies, h0⟩
        rw [hinv.1.pending] at hpending
        obtain ⟨dial, hdial, huntaken⟩ := countP_pos_iff.mp (Nat.pos_of_ne_zero hpending)
        obtain ⟨i, hi⟩ := getElem?_of_mem hdial
        have hrunning := hdials dial hdial
        have hdropped := hfed.undropped hc dial hdial
        obtain ⟨l, phase⟩ := dial
        cases phase with
        | running => exact absurd rfl hrunning
        | taken ok => cases huntaken
        | dropped ok => cases hdropped
        | offering ok =>
          obtain ⟨dials, htake⟩ := exists_take hi
          exact ⟨.select (.result i), ⟨{ v with dials := dials }, .received i l ok⟩, rfl,
            by simp [step, next, Vars.select, htake]⟩

/-! ### Whole runs -/

def State.conns (s : State) : List Nat :=
  (match s.point with
    | .received i _ true => [i]
    | .sending conn _ => conn.toList
    | _ => []) ++ (s.vars.heldFallback.toList ++ s.vars.handed)

structure Sound (c : Setup) (s : State) : Prop where
  single : s.vars.sent.length ≤ 1
  /-- A failure is reported only after cancellation, or when nothing is queued, every candidate that can
  be dialed was dialed and no dial succeeded. -/
  failure : none ∈ s.vars.sent ∨ (∃ last, s.point = .sending none last) → Failure s.vars
  /-- An opened connection is with its dial, the function, the caller or closed, never in two places. -/
  owned : s.vars.dials.Balanced s.conns
  /-- Nobody closes the connection of the caller. -/
  handed : ∀ {i}, some i ∈ s.vars.sent → i ∉ s.vars.dials.closed
  /-- After the return a dial with a result cannot be stuck: it closes what it opened. -/
  unstuck : ∀ {i l ok}, s.point = .returned → s.vars.dials.all[i]? = some ⟨l, .offering ok⟩ →
    ∃ t, step c s (.abandon i) = .ok t
  /-- When the dials have ended too, every opened connection that the caller did not get is closed, once. -/
  closed : ∀ {i dial}, s.point = .returned → s.vars.dials.Ended → s.vars.dials.all[i]? = some dial →
    dial.phase.opened → some i ∉ s.vars.sent → s.vars.dials.closed.count i = 1
  /-- Once the feeds have ended and the dials have returned, the function can go on until it returns;
  a send to its caller goes on when the caller takes the result. -/
  progress : s.point ≠ .returned → (∀ f, s.vars.feeding f = false) →
    (∀ t ∈ s.vars.dials.all, t.phase ≠ .running) → ∃ e t, Event.cost e = 1 ∧ step c s e = .ok t

theorem Inv.owned (h : Inv s) : s.vars.dials.Balanced s.conns := by
  obtain ⟨v, point⟩ := s
  cases point with
  | received i l ok => cases ok <;> exact h.1.balanced
  | sending conn last => cases last <;> exact h.1.balanced
  | _ => exact h.1.balanced

theorem Inv.sent (h : Inv s) :
    s.vars.sent = [] ∨ ∃ conn, s.vars.sent = [conn] ∧ (conn = none → Failure s.vars) := by
  have hcore : ∀ {v hand conns}, Core v hand conns →
      v.sent = [] ∨ ∃ conn, v.sent = [conn] ∧ (conn = none → Failure v) := by
    intro v hand conns hc
    rcases hc.sent with hnil | ⟨-, i, hi⟩
    · exact .inl hnil
    · exact .inr ⟨some i, hi, nofun⟩
  obtain ⟨v, point⟩ := s
  cases point with
  | sending conn last =>
    cases last with
    | false => exact .inl h.2.2.2.1
    | true => exact .inl h.2.2.1
  | returned => exact h.2.2
  | _ => exact hcore h.1

theorem Inv.failure (h : Inv s)
    (hfail : none ∈ s.vars.sent ∨ ∃ last, s.point = .sending none last) : Failure s.vars := by
  rcases hfail with hmem | ⟨last, hpoint⟩
  · rcases h.sent with hnil | ⟨conn, hconn, hf⟩
    · rw [hnil] at hmem
      cases hmem
    · rw [hconn, mem_singleton] at hmem
      exact hf hmem.symm
  · obtain ⟨v, point⟩ := s
    cases hpoint
    cases last with
    | false => cases h.2.2.2.2
    | true => exact h.2.2.2 rfl

theorem mem_handed {i : Nat} : i ∈ v.handed ↔ some i ∈ v.sent := by
  simp [Vars.handed]

theorem sound_of_inv (h : Inv s ∧ Waits c s) : Sound c s := by
  obtain ⟨hinv, hwaits⟩ := h
  refine ⟨?_, hinv.failure, hinv.owned, fun {i} hi => ?_, fun {i l ok} hp hi => ?_,
    fun {i dial} hp hended hi hopened hnot => ?_, hwaits.progress hinv⟩
  · rcases hinv.sent with hnil | ⟨conn, hconn, -⟩
    · rw [hnil]
      exact zero_le _
    · rw [hconn]
      exact le_refl _
  · have hmem : i ∈ s.conns :=
      mem_append_right _ (mem_append_right _ (mem_handed.mpr hi))
    exact count_eq_zero.mp (hinv.owned.holder hmem).2
  · obtain ⟨dials, hdials⟩ := exists_drop hi
    refine ⟨s.setDials dials, ?_⟩
    simp [step, next, State.done, hp, hdials]
  · obtain ⟨v, point⟩ := s
    cases hp
    obtain ⟨hbase, hheld, -⟩ := hinv
    have hb := hbase.balanced
    rw [hheld] at hb
    apply hb.settled hended hi hopened
    intro hmem
    exact hnot (mem_handed.mp hmem)

def bound (c : Setup) (es : List Event) : Nat := (init c).work c + (es.map Event.credit).sum

theorem progressive_race (c : Setup) (es : List Event) :
    Always (step c) (Sound c) (init c) es ∧
      ∀ t, exec (step c) (init c) es = .ok t → (es.map Event.cost).sum ≤ bound c es := by
  constructor
  · apply always_of_invariant (fun s => Inv s ∧ Waits c s) _ sound_of_inv ⟨inv_init c, waits_init c⟩
    intro s e t h ht
    exact ⟨inv_step h.1 ht, (runs_step ht).waits h.2⟩
  · intro t ht
    have hrun := exec_potential (fun h => Runs.work (runs_step h)) ht
    exact Nat.le_trans (Nat.le_add_right _ _) hrun

def sampleSetup : Setup where
  network := .tcp4
  disableIPv6 := false
  winners := [.at .v4 1]
  winnerDisabled := fun _ => false
  prefer := 0

def sampleRun : List Event :=
  [.advance, .answer false (some [.at .v4 1, .at .v4 2]), .select .event, .advance, .dialed 0 false] ++
    [.select (.result 0), .advance, .exhausted false, .advance, .select .event, .advance, .dialed 1 true] ++
    [.select (.result 1), .advance, .send true, .advance]

theorem progressive_race_sample : ∃ t, exec (step sampleSetup) (init sampleSetup) sampleRun = .ok t ∧
    t.point = .returned ∧ t.vars.sent = [some 1] ∧
    (sampleRun.map Event.cost).sum ≤ bound sampleSetup sampleRun :=
  ⟨_, rfl, rfl, rfl, (progressive_race sampleSetup sampleRun).2 _ rfl⟩

/-- A cancelled race reports its failure with a candidate still queued; and a queued candidate that is
no valid address is never dialed. -/
theorem failure_with_candidate_left :
    (∃ es t, exec (step sampleSetup) (init sampleSetup) es = .ok t ∧ t.vars.sent = [none] ∧
      (.at .v4 2, false) ∈ t.vars.queued ∧ ∀ l ∈ t.vars.dials.labels, l.ip ≠ .at .v4 2) ∧
    ∃ es s t, exec (step sampleSetup) (init sampleSetup) es = .ok s ∧ (.zero, false) ∈ s.vars.queued ∧
      (∃ es', exec (step sampleSetup) s es' = .ok t) ∧ t.vars.sent = [none] ∧ t.vars.cancelled = false ∧
      ∀ l ∈ t.vars.dials.labels, l.ip ≠ .zero := by
  constructor
  · refine ⟨[.advance, .answer false (some [.at .v4 1, .at .v4 2]), .select .event, .advance,
      .dialed 0 false, .select (.result 0), .cancel, .advance, .send true], _, rfl, rfl, ?_, ?_⟩
    · decide
    · decide
  · refine ⟨[.advance, .answer false (some [.at .v4 1, .zero]), .select .event], _, _, rfl, ?_,
      ⟨[.advance, .dialed 0 false, .select (.result 0), .advance, .exhausted false, .advance,
        .select .event, .advance, .send true], rfl⟩, rfl, rfl, ?_⟩
    · decide
    · decide

end Mihomo.Dialer.Progressive
