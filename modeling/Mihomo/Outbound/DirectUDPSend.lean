import Mihomo.Lib.Run
import Mihomo.Outbound.DirectUDP

/-!
# What `WriteTo` reports

`WriteTo` joins the errors of the sockets that it sends to. With no destination left there is no error
to join, so the call reports that it wrote nothing and that nothing went wrong.
-/

namespace Mihomo.Outbound
open Go Net Lib List Function

/-! ### Sockets of the destinations -/

structure Target.Wired (conns : Family → Bool) (t : Target) : Prop where
  candidates : ∀ a ∈ t.candidates, conns a.family = true
  live : ∀ {a : AddrPort}, t.live a = true → a ∈ t.candidates
  winner : ∀ a ∈ t.winner, conns a.family = true
  responder : ∀ a ∈ t.responder, conns a.family = true
  serverCIDs : ∀ {cid : Str} {a : AddrPort}, t.serverCIDs.lookup cid = some (some a) →
    conns a.family = true

namespace Target
variable {conns : Family → Bool} {t : Target}

section

variable (h : Wired conns t)
include h

theorem Wired.firstLive : ∀ a ∈ t.firstLiveDirectUDPCandidate, conns a.family = true :=
  fun a ha => h.candidates a (mem_of_find?_eq_some ha)

theorem Wired.settle : ∀ a ∈ t.settleDirectUDPCandidate, conns a.family = true := by
  fun_cases settleDirectUDPCandidate t
  case case1 hresponder _ =>
    intro a ha
    cases ha
    exact h.responder _ hresponder
  case case2 | case3 => exact h.firstLive

theorem Wired.noteHeader (payload : Str) : Wired conns (t.noteHeader payload) := by
  fun_cases t.noteHeader payload
  case case1 hlookup =>
    refine { h with winner := fun a ha => ?_ }
    cases ha
    exact h.serverCIDs hlookup
  case case2 | case3 => exact { h with }
  case case4 => exact h

theorem Wired.settleForWrite (now : Int) (payload : Str) :
    Wired conns (t.settleForWrite now payload) := by
  fun_cases t.settleForWrite now payload
  case case1 => exact { h with winner := h.settle }
  case case3 => exact { h with winner := h.firstLive }
  case case2 | case4 | case5 => exact h

theorem Wired.route (now : Int) (payload : Str) :
    Wired conns (t.route now payload).1 ∧ ∀ a ∈ (t.route now payload).2, conns a.family = true := by
  unfold Target.route
  split
  · next winner hwinner =>
    refine ⟨{ h with }, fun a ha => ?_⟩
    rw [mem_singleton.mp ha]
    exact h.winner winner hwinner
  · exact ⟨{ h with }, fun a ha => h.candidates a (mem_filter.mp ha).1⟩

theorem Wired.beginWrite (now : Int) (payload : Str) : Wired conns (t.beginWrite now payload).1 ∧
      ∀ a ∈ (t.beginWrite now payload).2, conns a.family = true :=
  ((h.noteHeader payload).settleForWrite now payload).route now payload

theorem Wired.endWrite (failed : List AddrPort) : Wired conns (t.endWrite failed) := by
  have hdropped : Wired conns (t.dropLive failed) :=
    { h with live := fun ha => h.live (Bool.and_eq_true_iff.mp ha).1 }
  unfold Target.endWrite
  dsimp only
  split
  · exact { hdropped with winner := hdropped.firstLive }
  · exact hdropped

theorem Wired.insertCID (server : Str) {value : Option AddrPort}
    (hvalue : ∀ a ∈ value, conns a.family = true) :
    Wired conns { t with serverCIDs := t.serverCIDs.insert server value } := by
  refine { h with serverCIDs := fun {cid a} ha => ?_ }
  by_cases hcid : cid = server
  · subst hcid
    cases (AList.lookup_insert _).symm.trans ha
    exact hvalue a rfl
  · exact h.serverCIDs ((AList.lookup_insert_ne hcid).symm.trans ha)

end

variable {source : AddrPort}

section

variable (h : Wired conns t)
include h

theorem Wired.noteServerCID (hsource : conns source.family = true) (data : Str) :
    Wired conns (t.noteServerCID source data) := by
  fun_cases t.noteServerCID source data
  case case1 => exact h.insertCID _ nofun
  case case3 =>
    refine h.insertCID _ fun a ha => ?_
    cases ha
    exact hsource
  all_goals exact h

theorem Wired.noteResponder (hsource : conns source.family = true) :
    Wired conns (t.noteResponder source) := by
  unfold Target.noteResponder
  split
  · refine { h with responder := fun a ha => ?_ }
    cases ha
    exact hsource
  · exact h

theorem Wired.settleForRead (now : Int) : Wired conns (t.settleForRead now) := by
  fun_cases t.settleForRead now
  case case1 => exact { h with winner := h.settle }
  case case3 => exact { h with winner := h.firstLive }
  case case2 | case4 | case5 => exact h

theorem Wired.claim (hsource : conns source.family = true) : Wired conns (t.claim source).1 := by
  fun_cases t.claim source
  case case3 =>
    refine { h with winner := fun a ha => ?_ }
    cases ha
    exact hsource
  all_goals exact h

theorem Wired.observe (hsource : conns source.family = true) (now : Int)
    (data : Str) : Wired conns (t.observe now source data).1 := by
  unfold Target.observe
  split
  · exact h
  · exact (((h.noteServerCID hsource data).noteResponder hsource).settleForRead now).claim hsource

theorem Wired.addCandidates (candidates : List AddrPort) :
    Wired conns (t.addCandidates conns candidates).1 ∧
      ∀ a ∈ (t.addCandidates conns candidates).2, conns a.family = true := by
  induction candidates generalizing t with
  | nil => exact ⟨h, nofun⟩
  | cons candidate rest ih =>
    unfold Target.addCandidates
    split
    · exact ih h
    · next hnew =>
      rw [not_or, Bool.not_eq_false] at hnew
      have hadded : Wired conns
          { t with
            candidates := t.candidates ++ [candidate]
            live := update t.live candidate true } := by
        refine { h with
          candidates := forall_mem_append.mpr ⟨h.candidates, forall_mem_singleton.mpr hnew.1⟩
          live := fun {a} ha => ?_ }
        · by_cases hcandidate : a = candidate
          · subst hcandidate
            exact mem_append_right _ mem_cons_self
          · have hlive : update t.live candidate true a = true := ha
            rw [update_of_ne hcandidate] at hlive
            exact mem_append_left _ (h.live hlive)
      obtain ⟨hwired, hrest⟩ := ih hadded
      exact ⟨hwired, forall_mem_cons.mpr ⟨hnew.1, hrest⟩⟩

theorem Wired.takeReplay (added : Nat) (replay : List Str) :
    Wired conns (t.takeReplay added replay).1 := by
  induction replay generalizing t with
  | nil => exact h
  | cons payload rest ih =>
    unfold Target.takeReplay
    split
    · exact h
    · exact ih { h with }

end

theorem Wired.mono {conns' : Family → Bool} (h : Wired conns t)
    (hconns : ∀ f, conns f = true → conns' f = true) : Wired conns' t where
  candidates a ha := hconns _ (h.candidates a ha)
  live := h.live
  winner a ha := hconns _ (h.winner a ha)
  responder a ha := hconns _ (h.responder a ha)
  serverCIDs ha := hconns _ (h.serverCIDs ha)

/-! ### Destinations -/

/-- A datagram has somewhere to go: the winner, a live candidate, or the candidate that its connection
ID names. -/
def HasPath (t : Target) (payload : Str) : Prop :=
  t.winner.isSome = true ∨ (∃ a ∈ t.candidates, t.live a = true) ∨
    ∃ destination source a, quicLongHeaderConnectionIDs payload = some (destination, source) ∧
      t.serverCIDs.lookup destination = some (some a)

theorem noteHeader_frame (t : Target) (payload : Str) :
    (t.noteHeader payload).candidates = t.candidates ∧ (t.noteHeader payload).live = t.live := by
  fun_cases t.noteHeader payload <;> exact ⟨rfl, rfl⟩

theorem noteHeader_winner_iff (t : Target) (payload : Str) :
    (t.noteHeader payload).winner.isSome = true ↔ t.winner.isSome = true ∨
      ∃ destination source a, quicLongHeaderConnectionIDs payload = some (destination, source) ∧
        t.serverCIDs.lookup destination = some (some a) := by
  fun_cases t.noteHeader payload
  case case1 hids a hlookup => exact iff_of_true rfl (.inr ⟨_, _, a, hids, hlookup⟩)
  case case2 hids hother =>
    refine ⟨.inl, fun h => h.resolve_right ?_⟩
    rintro ⟨_, _, a, hids', hlookup⟩
    cases hids.symm.trans hids'
    exact hother a hlookup
  case case3 hnone _ | case4 hnone _ =>
    refine ⟨.inl, fun h => h.resolve_right ?_⟩
    rintro ⟨_, _, _, hids, -⟩
    cases hnone.symm.trans hids

theorem settleForWrite_winner {t : Target} {now : Int} {payload : Str}
    (h : t.winner.isSome = true) : (t.settleForWrite now payload).winner = t.winner := by
  obtain ⟨winner, hwinner⟩ := Option.isSome_iff_exists.mp h
  unfold Target.settleForWrite
  rw [hwinner]
  exact hwinner

theorem find_live {t : Target} (h : t.firstLiveDirectUDPCandidate.isSome = true) :
    ∃ a ∈ t.candidates, t.live a = true := by
  obtain ⟨a, ha⟩ := Option.isSome_iff_exists.mp h
  exact ⟨a, mem_of_find?_eq_some ha, find?_some ha⟩

theorem Wired.settle_live (h : Wired conns t) (hsome : t.settleDirectUDPCandidate.isSome = true) :
    ∃ a ∈ t.candidates, t.live a = true := by
  revert hsome
  fun_cases settleDirectUDPCandidate t
  case case1 responder _ hlive => exact fun _ => ⟨responder, h.live hlive, hlive⟩
  case case2 | case3 => exact find_live

theorem Wired.settleForWrite_live (h : Wired conns t) {now : Int} {payload : Str}
    (hnone : t.winner = none) (hsome : (t.settleForWrite now payload).winner.isSome = true) :
    ∃ a ∈ t.candidates, t.live a = true := by
  have hold : t.winner.isSome = true → ∃ a ∈ t.candidates, t.live a = true := by
    intro hwinner
    rw [hnone] at hwinner
    cases hwinner
  revert hsome
  fun_cases t.settleForWrite now payload
  case case1 => exact h.settle_live
  case case3 => exact find_live
  case case2 | case4 | case5 => exact hold

theorem route_ne_nil_iff (t : Target) (now : Int) (payload : Str) :
    (t.route now payload).2 ≠ [] ↔ t.winner.isSome = true ∨ ∃ a ∈ t.candidates, t.live a = true := by
  unfold Target.route
  cases hwinner : t.winner with
  | some winner => exact iff_of_true (cons_ne_nil _ _) (.inl rfl)
  | none =>
    simp

theorem Wired.beginWrite_ne_nil_iff (h : Wired conns t) (now : Int) (payload : Str) :
    (t.beginWrite now payload).2 ≠ [] ↔ t.HasPath payload := by
  have hnoted := h.noteHeader payload
  obtain ⟨hcandidates, hlive⟩ := noteHeader_frame t payload
  obtain ⟨hcandidates', hlive'⟩ := settleForWrite_frame (t.noteHeader payload) now payload
  unfold Target.beginWrite
  rw [route_ne_nil_iff, hcandidates', hlive', hcandidates, hlive]
  constructor
  · rintro (hwinner | hpath)
    · cases hnone : (t.noteHeader payload).winner with
      | none =>
        have hpath := hnoted.settleForWrite_live hnone hwinner
        rw [hcandidates, hlive] at hpath
        exact .inr (.inl hpath)
      | some winner =>
        have hnamed := (noteHeader_winner_iff t payload).mp (hnone ▸ rfl)
        exact hnamed.imp_right .inr
    · exact .inr (.inl hpath)
  · intro hpath
    have hnamed : t.winner.isSome = true ∨ (∃ destination source a,
        quicLongHeaderConnectionIDs payload = some (destination, source) ∧
          t.serverCIDs.lookup destination = some (some a)) →
        ((t.noteHeader payload).settleForWrite now payload).winner.isSome = true := by
      intro hwinner
      have hsome := (noteHeader_winner_iff t payload).mpr hwinner
      rw [settleForWrite_winner hsome]
      exact hsome
    rcases hpath with hwinner | hcandidate | hcid
    · exact .inl (hnamed (.inl hwinner))
    · exact .inr hcandidate
    · exact .inl (hnamed (.inr hcid))

end Target

/-! ### The result -/

theorem writeCandidateSet_eq_nil_iff {conns : Family → Bool} {dest : List AddrPort}
    (hconns : ∀ a ∈ dest, conns a.family = true) (outcome : Nat → Bool) :
    ((writeCandidateSet conns outcome dest).accepted = [] ∧
      (writeCandidateSet conns outcome dest).errs = []) ↔ dest = [] := by
  cases dest with
  | nil => exact iff_of_true ⟨rfl, rfl⟩ rfl
  | cons a rest =>
    refine iff_of_false ?_ (cons_ne_nil _ _)
    unfold writeCandidateSet
    rw [hconns a mem_cons_self, if_neg nofun]
    split
    · exact fun h => cons_ne_nil _ _ h.1
    · exact fun h => cons_ne_nil _ _ h.2

def Sent.Honest (sent : Sent) (payload : Str) : Prop :=
  (sent.accepted ≠ [] → sent.result payload = (payload.length, none)) ∧
    (sent.accepted = [] → (sent.result payload).2 ≠ none)

theorem Sent.honest_iff (sent : Sent) (payload : Str) :
    sent.Honest payload ↔ ¬ (sent.accepted = [] ∧ sent.errs = []) := by
  unfold Honest result
  by_cases haccepted : sent.accepted = []
  · by_cases herrs : sent.errs = [] <;> simp [haccepted]
  · simp [haccepted]

namespace Race
variable (c : Race)

/-- `WriteTo` for a registered target: what its sends came to. -/
def writeTo (now : Int) (logical : AddrPort) (payload : Str) (outcome : Nat → Bool) :
    Race × Option Sent :=
  match c.targets logical with
  | none => (c, none)
  | some t =>
    let (t, dest) := t.beginWrite now payload
    let sent := writeCandidateSet c.conns outcome dest
    let t := if t.winner = none ∧ sent.failed ≠ [] then t.endWrite sent.failed else t
    (c.setTarget logical t, some sent)

/-- The loop of `register` that sends the opening datagrams to the added candidates. -/
def sendReplay (logical : AddrPort) (added : List AddrPort) (outcome : Nat → Nat → Bool) :
    List Str → Race → Race
  | [], c => c
  | _ :: rest, c =>
    let sent := writeCandidateSet c.conns (outcome rest.length) added
    let c :=
      match c.targets logical with
      | some t => c.setTarget logical (t.dropLive sent.failed)
      | none => c
    sendReplay logical added outcome rest c

inductive Call where
  | connect (family : Family)
  | register (now : Int) (logical : AddrPort) (candidates : List AddrPort) (host adapter : Str)
      (outcome : Nat → Nat → Bool)
  | collect (now : Int) (logical : AddrPort) (host adapter : Str)
  | collected (logical : AddrPort)
  | writeTo (now : Int) (logical : AddrPort) (payload : Str) (outcome : Nat → Bool)
  | read (now : Int) (source : AddrPort) (data : Str)
  | close

def call : Call → Race
  | .connect family => if c.closed then c else { c with conns := Function.update c.conns family true }
  | .register now logical candidates host adapter outcome =>
    match c.register now logical candidates host adapter with
    | (c, some (added, replay)) => c.sendReplay logical added outcome replay
    | (c, none) => c
  | .collect now logical host adapter =>
    match c.targets logical with
    | some t =>
      if t.collectingCandidates ∨ t.acceptsCandidates now host adapter = false then c
      else c.setTarget logical { t with collectingCandidates := true }
    | none => c
  | .collected logical =>
    match c.targets logical with
    | some t => c.setTarget logical { t with collectingCandidates := false, replay := [], replayBytes := 0 }
    | none => c
  | .writeTo now logical payload outcome => (c.writeTo now logical payload outcome).1
  | .read now source data => (c.read now source data).1
  | .close => { c with closed := true }

def step (c : Race) (op : Call) : Except Empty Race := .ok (c.call op)

def Reported (c : Race) : Call → Prop
  | .writeTo now logical payload outcome =>
    ∀ sent ∈ (c.writeTo now logical payload outcome).2, sent.Honest payload
  | _ => True

def Routed (c : Race) : Call → Prop
  | .writeTo _ logical payload _ => ∀ t ∈ c.targets logical, t.HasPath payload
  | _ => True

structure Wired (c : Race) : Prop where
  targets : ∀ {logical t}, c.targets logical = some t → t.Wired c.conns
  sources : ∀ {source logical}, logical ∈ c.sources source → c.conns source.family = true

variable {c}

theorem Wired.setTarget (h : Wired c) (logical : AddrPort) {t : Target} (ht : t.Wired c.conns) :
    Wired (c.setTarget logical t) := by
  refine ⟨fun {other t'} hlookup => ?_, h.sources⟩
  have hupdate : update c.targets logical (some t) other = some t' := hlookup
  by_cases hother : other = logical
  · subst hother
    rw [update_self] at hupdate
    cases hupdate
    exact ht
  · rw [update_of_ne hother] at hupdate
    exact h.targets hupdate

theorem Wired.connect (h : Wired c) (family : Family) :
    Wired { c with conns := update c.conns family true } := by
  have hmono : ∀ f, c.conns f = true → update c.conns family true f = true := by
    intro f hf
    by_cases hfamily : f = family
    · subst hfamily
      exact update_self ..
    · rwa [update_of_ne hfamily]
  exact ⟨fun hlookup => (h.targets hlookup).mono hmono, fun hsource => hmono _ (h.sources hsource)⟩

theorem Wired.register (h : Wired c) (now : Int) (logical : AddrPort) (candidates : List AddrPort)
    (host adapter : Str) : Wired (c.register now logical candidates host adapter).1 := by
  unfold Race.register
  split
  · exact h
  · dsimp only
    split
    · exact h
    · have hbefore : ((c.targets logical).getD { host, adapter }).Wired c.conns := by
        cases htarget : c.targets logical with
        | none => exact ⟨nofun, nofun, nofun, nofun, nofun⟩
        | some t => exact h.targets htarget
      obtain ⟨hadded, hconns⟩ := hbefore.addCandidates candidates
      split
      · exact h
      · refine ⟨(h.setTarget logical (hadded.takeReplay ..)).targets, fun {source other} hsource => ?_⟩
        dsimp only at hsource
        split at hsource
        · next hmem => exact hconns source hmem
        · exact h.sources hsource

theorem Wired.sendReplay (h : Wired c) (logical : AddrPort) (added : List AddrPort)
    (outcome : Nat → Nat → Bool) (replay : List Str) :
    Wired (c.sendReplay logical added outcome replay) := by
  induction replay generalizing c with
  | nil => exact h
  | cons payload rest ih =>
    apply ih
    split
    · next t htarget =>
      have ht := h.targets htarget
      refine h.setTarget logical { ht with live := fun ha => ?_ }
      exact ht.live (Bool.and_eq_true_iff.mp ha).1
    · exact h

theorem Wired.offer (h : Wired c) (now : Int) {source : AddrPort}
    (hsource : c.conns source.family = true) (data : Str) (logicals : List AddrPort) :
    Wired (c.offer now source data logicals).1 := by
  induction logicals generalizing c with
  | nil => exact h
  | cons logical rest ih =>
    unfold Race.offer
    split
    · exact ih h hsource
    · next t htarget =>
      have hset := h.setTarget logical ((h.targets htarget).observe hsource now data)
      dsimp only
      split
      · exact hset
      · exact ih hset hsource

theorem Wired.read (h : Wired c) (now : Int) (source : AddrPort) (data : Str) :
    Wired (c.read now source data).1 := by
  unfold Race.read
  cases hsources : c.sources source with
  | nil => exact h
  | cons logical rest =>
    have hsource := h.sources (hsources ▸ mem_cons_self : logical ∈ c.sources source)
    exact h.offer now hsource data (logical :: rest)

theorem Wired.writeTo (h : Wired c) (now : Int) (logical : AddrPort) (payload : Str)
    (outcome : Nat → Bool) : Wired (c.writeTo now logical payload outcome).1 := by
  unfold Race.writeTo
  split
  · exact h
  · next t htarget =>
    have hbegin := ((h.targets htarget).beginWrite now payload).1
    dsimp only
    split
    · exact h.setTarget logical (hbegin.endWrite _)
    · exact h.setTarget logical hbegin

theorem Wired.step {t : Race} {op : Call} (h : Wired c) (hstep : c.step op = .ok t) : Wired t := by
  cases hstep
  fun_cases c.call op
  case case2 => exact h.connect _
  case case3 now logical candidates host adapter _ _ _ _ heq =>
    have hregister := h.register now logical candidates host adapter
    rw [heq] at hregister
    exact hregister.sendReplay ..
  case case4 now logical candidates host adapter _ _ heq =>
    have hregister := h.register now logical candidates host adapter
    rwa [heq] at hregister
  case case6 htarget _ | case8 htarget => exact h.setTarget _ { h.targets htarget with }
  case case10 => exact h.writeTo ..
  case case11 => exact h.read ..
  case case12 => exact { h with }
  all_goals exact h

theorem Wired.reported_iff (h : Wired c) (op : Call) : c.Reported op ↔ c.Routed op := by
  cases op with
  | writeTo now logical payload outcome =>
    cases htarget : c.targets logical with
    | none => simp [Reported, Routed, Race.writeTo, htarget]
    | some t =>
      have ht := h.targets htarget
      simp only [Reported, Routed, Race.writeTo, htarget, Option.mem_def, Option.some.injEq,
        forall_eq']
      rw [Sent.honest_iff, writeCandidateSet_eq_nil_iff (ht.beginWrite now payload).2]
      exact ht.beginWrite_ne_nil_iff now payload
  | _ => exact iff_of_true trivial trivial

theorem wired_new : Wired {} := by
  constructor
  · intro logical t h
    cases h
  · intro source logical h
    cases h

/-- In every run, the calls of `WriteTo` report what their sends came to if and only if each of their
datagrams has somewhere to go. -/
theorem reported_along_iff (calls : List Call) :
    Along step Reported {} calls ↔ Along step Routed {} calls :=
  along_congr Wired Wired.step (fun h => h.reported_iff _) wired_new calls

def peer : AddrPort := ⟨.ip .v4 0x08080808 [], 53, rfl⟩

/-- The only candidate is given up after a failed send; the next datagram is sent nowhere, and nothing
is reported. -/
theorem lost_without_error :
    let c := [Call.connect .v4, .register 0 peer [peer] [] [] fun _ _ => true,
      .writeTo 0 peer [1] fun _ => false].foldl call {}
    ∃ sent, (c.writeTo 1 peer [2] fun _ => true).2 = some sent ∧ sent.accepted = [] ∧
      sent.result [2] = (0, none) := by
  exact ⟨_, rfl, rfl, rfl⟩

end Race

end Mihomo.Outbound
