import Mihomo.Lib.Run
import Mihomo.Outbound.DirectUDP

/-!
# One winner for a target

The calls of `register`, `WriteTo` and `WaitReadFrom` release the mutex around their sends, so that
what one of them does with the mutex held may come between two parts of another. `World` adds to the
connection the calls that are sending and which datagrams have been handed up.
-/

namespace Mihomo.Outbound
open Go Net Lib Option

/-- Why a call sends without the mutex: for a race, to the winner, or for the replay of `register`. -/
inductive Purpose where
  | race
  | winner
  | replay
  deriving DecidableEq

structure Sending where
  logical : AddrPort
  dest : List AddrPort
  purpose : Purpose
  deriving DecidableEq

structure World where
  race : Race := {}
  sending : List Sending := []
  /-- Where the calls of `WriteTo` have sent to, and the logical address and the source of the datagrams
  that `WaitReadFrom` has attributed. -/
  writes : List (AddrPort × List AddrPort) := []
  reads : List (AddrPort × AddrPort) := []

inductive Section where
  | connect (family : Family)
  | register (now : Int) (logical : AddrPort) (candidates : List AddrPort) (host adapter : Str)
  | collect (now : Int) (logical : AddrPort) (host adapter : Str)
  | collected (logical : AddrPort)
  | beginWrite (now : Int) (logical : AddrPort) (payload : Str)
  | endSend (call : Sending) (failed : List AddrPort)
  | read (now : Int) (source : AddrPort) (data : Str)
  | close

namespace World
variable (w : World)

def setRace (race : Race) : World := { w with race }

def endSend (call : Sending) (failed : List AddrPort) : World :=
  let w := { w with sending := w.sending.erase call }
  match w.race.targets call.logical with
  | none => w
  | some t =>
    if failed = [] then w
    else
      match call.purpose with
      | .race => w.setRace (w.race.setTarget call.logical (t.endWrite failed))
      | .replay => w.setRace (w.race.setTarget call.logical (t.dropLive failed))
      | .winner => w

def step : Section → Except Unit World
  | .connect family =>
    if w.race.closed then .error ()
    else .ok (w.setRace { w.race with conns := Function.update w.race.conns family true })
  | .register now logical candidates host adapter =>
    match w.race.register now logical candidates host adapter with
    | (race, some (added, replay)) =>
      .ok { w with race, sending := w.sending ++ replay.map fun _ => ⟨logical, added, .replay⟩ }
    | (race, none) => .ok (w.setRace race)
  | .collect now logical host adapter =>
    match w.race.targets logical with
    | some t =>
      if t.collectingCandidates ∨ t.acceptsCandidates now host adapter = false then .ok w
      else .ok (w.setRace (w.race.setTarget logical { t with collectingCandidates := true }))
    | none => .error ()
  | .collected logical =>
    match w.race.targets logical with
    | some t =>
      .ok (w.setRace (w.race.setTarget logical
        { t with collectingCandidates := false, replay := [], replayBytes := 0 }))
    | none => .error ()
  | .beginWrite now logical payload =>
    match w.race.targets logical with
    | none => .ok w
    | some t =>
      let (t, dest) := t.beginWrite now payload
      .ok { w with
        race := w.race.setTarget logical t
        sending := w.sending ++ [⟨logical, dest, if t.winner.isSome then .winner else .race⟩]
        writes := w.writes ++ [(logical, dest)] }
  | .endSend call failed =>
    if call ∈ w.sending ∧ failed ⊆ call.dest then .ok (w.endSend call failed) else .error ()
  | .read now source data =>
    let (race, logical) := w.race.read now source data
    .ok { w with race, reads := w.reads ++ (logical.map fun logical => (logical, source)).toList }
  | .close => .ok (w.setRace { w.race with closed := true })

def winner (logical : AddrPort) : Option AddrPort := (w.race.targets logical).bind Target.winner

end World

def Section.WritesLongHeader (logical : AddrPort) : Section → Prop
  | beginWrite _ logical' payload =>
    logical' = logical ∧ (quicLongHeaderConnectionIDs payload).isSome = true
  | _ => False

/-! ### One target -/

namespace Target
variable {t t' t'' : Target}

structure Keeps (t t' : Target) : Prop where
  quic : t.quic = false → t'.quic = false
  winner : t.quic = false → ∀ a, t.winner = some a → t'.winner = some a

theorem Keeps.rfl : Keeps t t := ⟨id, fun _ _ => id⟩

theorem Keeps.trans (h : Keeps t t') (h' : Keeps t' t'') : Keeps t t'' where
  quic hquic := h'.quic (h.quic hquic)
  winner hquic a ha := h'.winner (h.quic hquic) a (h.winner hquic a ha)

theorem keeps_of_none (hquic : t'.quic = t.quic) (hnone : t.winner = none) : Keeps t t' where
  quic h := hquic.trans h
  winner _ a ha := by
    rw [hnone] at ha
    cases ha

theorem keeps_of_eq (hquic : t'.quic = t.quic) (hwinner : t'.winner = t.winner) : Keeps t t' where
  quic h := hquic.trans h
  winner _ _ ha := hwinner.trans ha

variable {payload : Str} {source : AddrPort}

theorem noteHeader_keeps (h : quicLongHeaderConnectionIDs payload = none) :
    Keeps t (t.noteHeader payload) := by
  unfold noteHeader
  rw [h]
  dsimp only
  split
  · exact keeps_of_eq rfl rfl
  · exact .rfl

theorem settleForWrite_keeps (now : Int) (payload : Str) : Keeps t (t.settleForWrite now payload) := by
  fun_cases t.settleForWrite now payload
  case case1 hnone _ _ | case3 hnone _ _ => exact keeps_of_none rfl hnone
  all_goals exact .rfl

theorem route_keeps (now : Int) (payload : Str) : Keeps t (t.route now payload).1 := by
  unfold route
  split <;> exact keeps_of_eq rfl rfl

theorem beginWrite_keeps (h : quicLongHeaderConnectionIDs payload = none) (now : Int) :
    Keeps t (t.beginWrite now payload).1 :=
  ((noteHeader_keeps h).trans (settleForWrite_keeps now payload)).trans (route_keeps now payload)

theorem beginWrite_dest (h : quicLongHeaderConnectionIDs payload = none) (now : Int)
    (hquic : t.quic = false) {a : AddrPort} (ha : t.winner = some a) :
    (t.beginWrite now payload).2 = [a] := by
  have hkeeps := (noteHeader_keeps (t := t) h).trans (settleForWrite_keeps now payload)
  have hwinner := hkeeps.winner hquic a ha
  unfold beginWrite route
  rw [hwinner]

theorem dropLive_keeps (failed : List AddrPort) : Keeps t (t.dropLive failed) :=
  keeps_of_eq rfl rfl

theorem endWrite_keeps (failed : List AddrPort) : Keeps t (t.endWrite failed) := by
  refine (dropLive_keeps failed).trans ?_
  unfold endWrite
  dsimp only
  split
  · next h => exact keeps_of_none rfl h.2.1
  · exact .rfl

theorem noteServerCID_keeps (source : AddrPort) (data : Str) :
    Keeps t (t.noteServerCID source data) := by
  fun_cases t.noteServerCID source data <;> exact keeps_of_eq rfl rfl

theorem noteResponder_keeps (source : AddrPort) : Keeps t (t.noteResponder source) := by
  fun_cases t.noteResponder source <;> exact keeps_of_eq rfl rfl

theorem settleForRead_keeps (now : Int) : Keeps t (t.settleForRead now) := by
  fun_cases t.settleForRead now
  case case1 hnone _ _ | case3 hnone _ _ => exact keeps_of_none rfl hnone
  all_goals exact .rfl

theorem claim_keeps (source : AddrPort) : Keeps t (t.claim source).1 := by
  fun_cases t.claim source
  case case3 hnone _ _ => exact keeps_of_none rfl hnone
  all_goals exact .rfl

theorem claim_winner (hquic : t.quic = false) (h : (t.claim source).2 = true) :
    (t.claim source).1.winner = some source := by
  revert h
  fun_cases t.claim source
  case case1 winner hwinner => exact fun h => of_decide_eq_true h ▸ hwinner
  case case2 hset => cases hquic.symm.trans hset
  case case3 => exact fun _ => rfl
  case case4 => nofun

theorem observe_keeps (now : Int) (source : AddrPort) (data : Str) :
    Keeps t (t.observe now source data).1 := by
  unfold observe
  split
  · exact .rfl
  · exact (((noteServerCID_keeps source data).trans (noteResponder_keeps source)).trans
      (settleForRead_keeps now)).trans (claim_keeps source)

theorem observe_winner {now : Int} {data : Str} (hquic : t.quic = false)
    (h : (t.observe now source data).2 = true) :
    (t.observe now source data).1.winner = some source := by
  unfold observe at h ⊢
  split at h
  · cases h
  · next hstarted =>
    rw [if_neg hstarted]
    have hkeeps := ((noteServerCID_keeps (t := t) source data).trans
      (noteResponder_keeps source)).trans (settleForRead_keeps now)
    exact claim_winner (hkeeps.quic hquic) h

theorem addCandidates_keeps (conns : Family → Bool) (candidates : List AddrPort) :
    Keeps t (t.addCandidates conns candidates).1 := by
  induction candidates generalizing t with
  | nil => exact .rfl
  | cons candidate rest ih =>
    unfold addCandidates
    split
    · exact ih
    · have hfirst : Keeps t { t with
          candidates := t.candidates ++ [candidate]
          live := Function.update t.live candidate true } := keeps_of_eq rfl rfl
      exact hfirst.trans ih

theorem takeReplay_keeps (added : Nat) (replay : List Str) : Keeps t (t.takeReplay added replay).1 := by
  induction replay generalizing t with
  | nil => exact .rfl
  | cons payload rest ih =>
    unfold takeReplay
    split
    · exact .rfl
    · have hfirst : Keeps t { t with bytes := t.bytes + payload.length * added } := keeps_of_eq rfl rfl
      exact hfirst.trans ih

end Target

/-! ### The connection -/

namespace Race
variable {c c' c'' : Race} {logical : AddrPort}

structure Keeps (logical : AddrPort) (c c' : Race) : Prop where
  new : c.targets logical = none → ∀ t, c'.targets logical = some t → t.quic = false
  kept : ∀ t, c.targets logical = some t → ∃ t', c'.targets logical = some t' ∧ t.Keeps t'

theorem Keeps.rfl : Keeps logical c c where
  new hnone t ht := by
    rw [hnone] at ht
    cases ht
  kept t ht := ⟨t, ht, .rfl⟩

theorem keeps_of_targets (h : c'.targets = c.targets) : Keeps logical c c' where
  new hnone t ht := by
    rw [h, hnone] at ht
    cases ht
  kept t ht := ⟨t, h ▸ ht, .rfl⟩

theorem Keeps.trans (h : Keeps logical c c') (h' : Keeps logical c' c'') : Keeps logical c c'' where
  new hnone t ht := by
    cases hmiddle : c'.targets logical with
    | none => exact h'.new hmiddle t ht
    | some s =>
      obtain ⟨t', ht', hkeeps⟩ := h'.kept s hmiddle
      cases ht.symm.trans ht'
      exact hkeeps.quic (h.new hnone s hmiddle)
  kept t ht := by
    obtain ⟨t', ht', hkeeps⟩ := h.kept t ht
    obtain ⟨t'', ht'', hkeeps'⟩ := h'.kept t' ht'
    exact ⟨t'', ht'', hkeeps.trans hkeeps'⟩

theorem Keeps.quiet (h : Keeps logical c c') (hquic : ∀ t, c.targets logical = some t → t.quic = false) :
    ∀ t, c'.targets logical = some t → t.quic = false := by
  intro t' ht'
  cases hbefore : c.targets logical with
  | none => exact h.new hbefore t' ht'
  | some t =>
    obtain ⟨t'', ht'', hkeeps⟩ := h.kept t hbefore
    cases ht'.symm.trans ht''
    exact hkeeps.quic (hquic t hbefore)

variable {t t' : Target} {other : AddrPort}

theorem setTarget_other (hother : logical ≠ other) : Keeps logical c (c.setTarget other t') := by
  have hsame : (c.setTarget other t').targets logical = c.targets logical :=
    Function.update_of_ne hother ..
  refine ⟨fun hnone s hs => ?_, fun s hs => ⟨s, hsame.trans hs, .rfl⟩⟩
  cases hnone.symm.trans (hsame.symm.trans hs)

theorem setTarget_keeps (ht : c.targets other = some t)
    (hkeeps : other = logical → t.Keeps t') : Keeps logical c (c.setTarget other t') := by
  by_cases hother : logical = other
  · subst hother
    refine ⟨fun hnone => ?_, fun s hs => ?_⟩
    · cases hnone.symm.trans ht
    · cases hs.symm.trans ht
      exact ⟨t', Function.update_self .., hkeeps rfl⟩
  · exact setTarget_other hother

theorem setNew_keeps (hquic : t.quic = false)
    (hkeeps : ((c.targets other).getD t).Keeps t') : Keeps logical c (c.setTarget other t') := by
  cases htarget : c.targets other with
  | some s =>
    rw [htarget] at hkeeps
    exact setTarget_keeps htarget fun _ => hkeeps
  | none =>
    rw [htarget] at hkeeps
    by_cases hother : logical = other
    · subst hother
      refine ⟨fun _ s hs => ?_, fun s hs => ?_⟩
      · cases (Function.update_self ..).symm.trans hs
        exact hkeeps.quic hquic
      · cases htarget.symm.trans hs
    · exact setTarget_other hother

theorem register_keeps (now : Int) (other : AddrPort) (candidates : List AddrPort)
    (host adapter : Str) : Keeps logical c (c.register now other candidates host adapter).1 := by
  unfold register
  split
  · exact .rfl
  · dsimp only
    split
    · exact .rfl
    · split
      · exact .rfl
      · -- the sources do not matter to the target
        have hbuilt := (Target.addCandidates_keeps (t := (c.targets other).getD { host, adapter })
          c.conns candidates).trans (Target.takeReplay_keeps
            (Target.addCandidates c.conns candidates
              ((c.targets other).getD { host, adapter })).2.length
            (Target.addCandidates c.conns candidates
              ((c.targets other).getD { host, adapter })).1.replay)
        have hset : Keeps logical c (c.setTarget other _) := setNew_keeps rfl hbuilt
        exact { hset with }

theorem offer_keeps (now : Int) (source : AddrPort) (data : Str) (logicals : List AddrPort) :
    Keeps logical c (c.offer now source data logicals).1 := by
  induction logicals generalizing c with
  | nil => exact .rfl
  | cons other rest ih =>
    unfold offer
    split
    · exact ih
    · next t htarget =>
      have hset : Keeps logical c (c.setTarget other (t.observe now source data).1) :=
        setTarget_keeps htarget fun _ => t.observe_keeps now source data
      dsimp only
      split
      · exact hset
      · exact hset.trans ih

theorem offer_winner {now : Int} {source : AddrPort} {data : Str} {logicals : List AddrPort}
    (hquic : ∀ t, c.targets logical = some t → t.quic = false)
    (h : (c.offer now source data logicals).2 = some logical) :
    ∃ t, (c.offer now source data logicals).1.targets logical = some t ∧ t.winner = some source := by
  induction logicals generalizing c with
  | nil => cases h
  | cons other rest ih =>
    unfold offer at h ⊢
    split at h
    · exact ih hquic h
    · next t htarget =>
      have hset : Keeps logical c (c.setTarget other (t.observe now source data).1) :=
        setTarget_keeps htarget fun _ => t.observe_keeps now source data
      dsimp only at h ⊢
      split at h
      · next hfound =>
        cases h
        rw [if_pos hfound]
        exact ⟨_, Function.update_self .., Target.observe_winner (hquic t htarget) hfound⟩
      · next hfound =>
        rw [if_neg hfound]
        exact ih (hset.quiet hquic) h

end Race

/-! ### Every interleaving -/

namespace World
variable {w w' : World} {logical : AddrPort} {part : Section}

theorem endSend_keeps (call : Sending) (failed : List AddrPort) :
    w.race.Keeps logical (w.endSend call failed).race := by
  fun_cases w.endSend call failed
  case case3 t htarget _ _ => exact Race.setTarget_keeps htarget fun _ => t.endWrite_keeps failed
  case case4 t htarget _ _ => exact Race.setTarget_keeps htarget fun _ => t.dropLive_keeps failed
  all_goals exact .rfl

theorem beginWrite_cases {now : Int} {other : AddrPort} {payload : Str}
    (h : w.step (.beginWrite now other payload) = .ok w') :
    (w.race.targets other = none ∧ w' = w) ∨ ∃ t, w.race.targets other = some t ∧
      w'.race = w.race.setTarget other (t.beginWrite now payload).1 ∧
      w'.writes = w.writes ++ [(other, (t.beginWrite now payload).2)] ∧ w'.reads = w.reads := by
  simp only [step] at h
  split at h
  · next htarget =>
    cases h
    exact .inl ⟨htarget, rfl⟩
  · next t htarget =>
    cases h
    exact .inr ⟨t, htarget, rfl, rfl, rfl⟩

theorem step_keeps (hheader : ¬ part.WritesLongHeader logical) (h : w.step part = .ok w') :
    w.race.Keeps logical w'.race := by
  revert h
  fun_cases w.step part
  all_goals
    intro h
    cases h
  case case2 | case15 => exact Race.keeps_of_targets rfl
  case case3 heq | case4 heq =>
    cases congrArg Prod.fst heq
    exact Race.register_keeps ..
  case case5 | case10 => exact .rfl
  case case6 htarget _ | case8 htarget =>
    exact Race.setTarget_keeps htarget fun _ => Target.keeps_of_eq rfl rfl
  case case11 htarget _ _ heq =>
    cases congrArg Prod.fst heq
    refine Race.setTarget_keeps htarget fun hother => Target.beginWrite_keeps ?_ _
    exact not_isSome_iff_eq_none.mp fun hsome => hheader ⟨hother, hsome⟩
  case case12 => exact endSend_keeps ..
  case case14 heq =>
    cases congrArg Prod.fst heq
    exact Race.offer_keeps ..

theorem winner_of_keeps {a : AddrPort} (hkeeps : w.race.Keeps logical w'.race)
    (hquic : ∀ t, w.race.targets logical = some t → t.quic = false) (h : w.winner logical = some a) :
    w'.winner logical = some a := by
  obtain ⟨t, ht, hwinner⟩ := bind_eq_some_iff.mp h
  obtain ⟨t', ht', htkeeps⟩ := hkeeps.kept t ht
  exact bind_eq_some_iff.mpr ⟨t', ht', htkeeps.winner (hquic t ht) a hwinner⟩

def FromWinner (logical : AddrPort) (w : World) : Prop :=
  ∀ source, (logical, source) ∈ w.reads → w.winner logical = some source

def Settled (logical : AddrPort) (w : World) (part : Section) : Prop :=
  ∀ w', w.step part = .ok w' → ∀ a, w.winner logical = some a →
    w'.winner logical = some a ∧
      ∀ now payload, part = .beginWrite now logical payload → w'.writes = w.writes ++ [(logical, [a])]

structure Quiet (logical : AddrPort) (w : World) : Prop where
  quic : ∀ t, w.race.targets logical = some t → t.quic = false
  reads : FromWinner logical w

theorem reads_of_step (h : w.step part = .ok w') :
    w'.reads = w.reads ∨ ∃ now source data, part = .read now source data := by
  revert h
  fun_cases w.step part
  all_goals
    intro h
    cases h
  case case12 call failed _ =>
    fun_cases w.endSend call failed <;> exact .inl rfl
  case case14 now source data _ _ _ => exact .inr ⟨now, source, data, rfl⟩
  all_goals exact .inl rfl

theorem Quiet.step (h : Quiet logical w) (hheader : ¬ part.WritesLongHeader logical)
    (hstep : w.step part = .ok w') : Quiet logical w' := by
  have hkeeps := step_keeps hheader hstep
  refine ⟨hkeeps.quiet h.quic, fun source hsource => ?_⟩
  have hold : (logical, source) ∈ w.reads → w'.winner logical = some source :=
    fun hmem => winner_of_keeps hkeeps h.quic (h.reads source hmem)
  rcases reads_of_step hstep with hreads | ⟨now, other, data, rfl⟩
  · exact hold (hreads ▸ hsource)
  · cases hstep
    rcases List.mem_append.mp hsource with hmem | hnew
    · exact hold hmem
    · obtain ⟨found, hfound, heq⟩ := map_eq_some_iff.mp (mem_toList.mp hnew)
      cases heq
      obtain ⟨t, ht, hwinner⟩ := Race.offer_winner h.quic hfound
      exact bind_eq_some_iff.mpr ⟨t, ht, hwinner⟩

theorem Quiet.settled (h : Quiet logical w) (hheader : ¬ part.WritesLongHeader logical) :
    Settled logical w part := by
  intro w' hstep a ha
  refine ⟨winner_of_keeps (step_keeps hheader hstep) h.quic ha, ?_⟩
  rintro now payload rfl
  obtain ⟨t, ht, hwinner⟩ := bind_eq_some_iff.mp ha
  rcases beginWrite_cases hstep with ⟨hnone, -⟩ | ⟨s, hs, -, hwrites, -⟩
  · cases hnone.symm.trans ht
  · cases ht.symm.trans hs
    have hnone : quicLongHeaderConnectionIDs payload = none :=
      not_isSome_iff_eq_none.mp fun hsome => hheader ⟨rfl, hsome⟩
    rw [hwrites, Target.beginWrite_dest hnone now (h.quic t ht) hwinner]

/-- For every interleaving, a target to which no QUIC long header is written has one winner for good once
it has one: what is written to it afterwards goes there, and all datagrams that it gets came from it. -/
theorem one_winner (logical : AddrPort) (parts : List Section)
    (hheaders : ∀ part ∈ parts, ¬ part.WritesLongHeader logical) :
    Along step (Settled logical) {} parts ∧ Always step (FromWinner logical) {} parts := by
  have hnew : Quiet logical {} := ⟨nofun, nofun⟩
  have halong : Along step (fun _ part => ¬ part.WritesLongHeader logical) ({} : World) parts :=
    along_of_mem (fun part hpart _ => hheaders part hpart) _
  constructor
  · exact along_of_along Quiet.step Quiet.settled hnew parts halong
  · exact always_of_along Quiet.step Quiet.reads hnew parts halong

def first : AddrPort := ⟨.ip .v4 0x01010101 [], 53, rfl⟩
theorem second_valid : (Addr.ip .v4 0x08080808 []).isValid = true := rfl

def second : AddrPort := ⟨.ip .v4 0x08080808 [], 53, second_valid⟩

def answered : List Section :=
  [.connect .v4, .register 0 first [first, second] [] [], .beginWrite 0 first [1],
    .read 1 second [2], .beginWrite 2 first [3]]

theorem one_winner_sample :
    Along step (Settled first) {} answered ∧ Always step (FromWinner first) {} answered :=
  one_winner first answered (by simp [answered, Section.WritesLongHeader, quicLongHeaderConnectionIDs])

example : (exec step {} answered).map (fun w => (w.winner first, w.reads, w.writes)) =
    .ok (some second, [(first, second)], [(first, [first, second]), (first, [second])]) := by
  rfl

end World

end Mihomo.Outbound
