import Mihomo.Anytls.Session

/-!
# Closing a session (transport/anytls/session/session.go)

`Close` marks the session dead and then closes the streams of the table. `OpenStream` asks under
`streamLock` whether the session is dead before it registers a stream; `recvLoop` does not ask when a
SYN comes in, and `streamClosed` deletes whatever the table has under its number.
-/

namespace Mihomo.Anytls
open Go Lib List AList
/-! ### What a section does to the streams -/

namespace Session

def Vacant (s : Session) (sid : UInt32) : Prop := ∀ r ∈ s.streams.lookup sid, ¬ s.Lives r

instance (s : Session) (sid : UInt32) : Decidable (s.Vacant sid) := by
  unfold Vacant
  infer_instance

def Listed (s : Session) (r : Nat) : Prop :=
  ∃ st, s.heap[r]? = some st ∧ st.died = false ∧ s.streams.lookup st.id = some r

variable {r : Nat} {s : Session} {sid : UInt32}

theorem lives_kill_iff {r' : Nat} {P : Stream → Prop} :
    (∃ st, (s.kill r).heap[r']? = some st ∧ st.died = false ∧ P st) ↔
      r ≠ r' ∧ ∃ st, s.heap[r']? = some st ∧ st.died = false ∧ P st := by
  unfold kill
  by_cases heq : r = r'
  · refine iff_of_false ?_ fun h => h.1 heq
    rintro ⟨st, hst, hdied, -⟩
    rw [heq, getElem?_modify_eq] at hst
    obtain ⟨st', -, rfl⟩ := Option.map_eq_some_iff.mp hst
    cases hdied
  · rw [getElem?_modify_ne _ _ heq]
    exact (and_iff_right heq).symm

theorem lives_kill {r' : Nat} : (s.kill r).Lives r' ↔ r ≠ r' ∧ s.Lives r' := by
  simpa only [Lives, and_true] using lives_kill_iff (P := fun _ => True)

theorem listed_kill {r' : Nat} : (s.kill r).Listed r' ↔ r ≠ r' ∧ s.Listed r' := lives_kill_iff

theorem lives_register : (s.register sid).Lives r ↔ s.Lives r ∨ r = s.heap.length := by
  change (∃ st, (s.heap ++ [({ id := sid } : Stream)])[r]? = some st ∧ _) ↔ _
  rcases Nat.lt_trichotomy r s.heap.length with hlt | rfl | hgt
  · rw [getElem?_append_left hlt]
    exact (or_iff_left hlt.ne).symm
  · rw [getElem?_concat_length]
    exact iff_of_true ⟨_, rfl, rfl⟩ (.inr rfl)
  · refine iff_of_false ?_ ?_
    · rintro ⟨st, hst, -⟩
      rw [getElem?_eq_none (by rw [length_append, length_singleton]; omega)] at hst
      cases hst
    · rintro (⟨st, hst, -⟩ | rfl)
      · rw [getElem?_eq_none (by omega)] at hst
        cases hst
      · omega

theorem listed_register (hvacant : s.Vacant sid)
    (h : s.Listed r ∨ r = s.heap.length) : (s.register sid).Listed r := by
  rcases h with ⟨st, hst, hdied, hlookup⟩ | rfl
  · have hne : st.id ≠ sid := by
      rintro rfl
      exact hvacant r hlookup ⟨st, hst, hdied⟩
    refine ⟨st, ?_, hdied, ?_⟩
    · exact (List.getElem?_append_left (List.getElem?_eq_some_iff.mp hst).1).trans hst
    · exact (lookup_insert_ne hne).trans hlookup
  · exact ⟨_, getElem?_concat_length, rfl, lookup_insert _⟩

theorem listed_delete (sid : UInt32) (h : s.Listed r) :
    s.streams.lookup sid = some r ∨ (s.delete sid).Listed r := by
  obtain ⟨st, hst, hdied, hlookup⟩ := h
  by_cases heq : st.id = sid
  · left
    rw [← heq]
    exact hlookup
  · exact .inr ⟨st, hst, hdied, (lookup_erase_ne heq).trans hlookup⟩

theorem Listed.of_delete (h : (s.delete sid).Listed r) : s.Listed r := by
  obtain ⟨st, hst, hdied, hlookup⟩ := h
  refine ⟨st, hst, hdied, ?_⟩
  change (s.streams.erase sid).lookup st.id = some r at hlookup
  by_cases heq : st.id = sid
  · rw [heq, lookup_erase] at hlookup
    cases hlookup
  · rw [lookup_erase_ne heq] at hlookup
    exact hlookup

end Session

structure Keeps (s s' : Session) : Prop where
  lives : ∀ r, s'.Lives r → s.Lives r
  listed : ∀ r, s'.Lives r → s.Listed r → s'.Listed r
  unlisted : ∀ r, s'.Listed r → s.Listed r
  die : s'.die = s.die
  sweeping : s'.sweeping = s.sweeping

theorem Keeps.refl (s : Session) : Keeps s s :=
  ⟨fun _ h => h, fun _ _ h => h, fun _ h => h, rfl, rfl⟩

theorem keeps_kill (s : Session) (r : Nat) : Keeps s (s.kill r) := by
  refine ⟨fun r' h => (Session.lives_kill.mp h).2, fun r' h hlisted => ?_, fun r' h => ?_, rfl, rfl⟩
  · exact Session.listed_kill.mpr ⟨(Session.lives_kill.mp h).1, hlisted⟩
  · exact (Session.listed_kill.mp h).2

inductive Moves (s : Session) : Section → Effect Session Section → Prop where
  | keep {sec : Section} {e : Effect Session Section} : Keeps s e.shared → sec ≠ .sweep →
    (∀ r, sec = .finClose r → ¬ e.shared.Lives r) → Moves s sec e
  | open {sid : UInt32} {e : Effect Session Section} : s.die = false → s.sweeping = none →
    e.shared = s.register sid → Moves s (.openRegister sid) e
  | syn {sid : UInt32} {e : Effect Session Section} : s.sweeping = none → s.Vacant sid →
    e.shared = s.register sid → Moves s (.recvSYN sid) e
  | fin {sid : UInt32} {e : Effect Session Section} : s.sweeping = none → e.shared = s.delete sid →
    (∀ r ∈ s.streams.lookup sid, .finClose r ∈ e.next) → Moves s (.recvFIN sid) e
  | delete {sid : UInt32} {e : Effect Session Section} : s.sweeping = none →
    e.shared = s.delete sid → Moves s (.streamDelete sid) e
  | die {e : Effect Session Section} : e.shared = { s with die := true } → .sweep ∈ e.next →
    Moves s .dieOnce e
  | lock {e : Effect Session Section} : s.sweeping = none → e.shared = { s with
    sweeping := some (s.streams.entries.map Sigma.snd) } → .sweep ∈ e.next → Moves s .sweep e
  | close {r : Nat} {left : List Nat} {e : Effect Session Section} : s.sweeping = some (r :: left) →
    e.shared = { s.kill r with sweeping := some left } → .sweep ∈ e.next → Moves s .sweep e
  | clear {e : Effect Session Section} : s.sweeping = some [] →
    e.shared = { s with streams := ∅, sweeping := none } → Moves s .sweep e

theorem moves_of_effect {s : Session} {sec : Section} {choice : Choice} {e : Effect Session Section}
    (h : effect s sec choice = some e) : Moves s sec e := by
  have hkeep : ∀ {sec} {e : Effect Session Section}, Keeps s e.shared → sec ≠ .sweep →
      (∀ r, sec ≠ .finClose r) → Moves s sec e :=
    fun hkeeps hsweep hfin => .keep hkeeps hsweep fun r heq => absurd heq (hfin r)
  have hnone {o : Option (List Nat)} : ¬ o.isSome = true → o = none := Option.not_isSome_iff_eq_none.mp
  revert h
  fun_cases effect s sec choice
  all_goals
    intro h
    cases h
  case case2 | case17 => exact hkeep ⟨fun _ h => h, fun _ _ h => h, fun _ h => h, rfl, rfl⟩ nofun nofun
  case case8 hlock hdie => exact .open (Bool.eq_false_of_not_eq_true hdie) (hnone hlock) rfl
  case case12 => exact .die rfl (mem_cons_of_mem _ mem_cons_self)
  case case14 hlock => exact .lock hlock rfl mem_cons_self
  case case15 hsome =>
    refine .close hsome rfl ?_
    split
    · exact mem_cons_of_mem _ mem_cons_self
    · exact mem_cons_self
  case case16 hsome => exact .clear hsome rfl
  case case20 =>
    refine hkeep ?_ nofun nofun
    unfold dispatch
    split_ifs
    all_goals exact ⟨fun _ h => h, fun _ _ h => h, fun _ h => h, rfl, rfl⟩
  case case29 hlock hfree =>
    refine .syn (hnone hlock) ?_ rfl
    unfold Session.Vacant
    rw [Option.not_isSome_iff_eq_none.mp hfree]
    nofun
  case case33 hlock =>
    refine .fin (hnone hlock) rfl fun r hr => ?_
    rw [Option.mem_def.mp hr]
    exact mem_cons_self
  case case34 r =>
    refine .keep (keeps_kill s r) nofun fun r' heq hlives => ?_
    cases heq
    exact (Session.lives_kill.mp hlives).1 rfl
  case case43 => exact hkeep (keeps_kill s _) nofun nofun
  case case46 hlock => exact .delete (hnone hlock) rfl
  -- the other sections leave the session as it is
  all_goals exact hkeep (.refl s) nofun nofun

/-! ### Sessions whose streams are all known -/

/-- Every stream that lives is in the table or is about to be closed by a FIN; a sweep that has begun
has every stream of the table before it; and a dead session has a sweep to come or no stream in its
table. -/
structure Covered (p : Pool Session Section) : Prop where
  cover : ∀ r, p.shared.Lives r → p.shared.Listed r ∨ p.Left (.finClose r)
  sweeping : ∀ left, p.shared.sweeping = some left → ∀ r, p.shared.Listed r → r ∈ left
  dead : p.shared.die → p.Left .sweep ∨ ∀ r, ¬ p.shared.Listed r

/-- A SYN is taken only while the session is not dead, and no stream that lives is replaced by
`OpenStream` or deleted by `streamClosed`. -/
def Orderly (s : Session) : Section → Prop
  | .openRegister sid => s.Vacant sid
  | .recvSYN _ => s.die = false
  | .streamDelete sid => s.Vacant sid
  | _ => True

instance (s : Session) (sec : Section) : Decidable (Orderly s sec) := by
  unfold Orderly
  split <;> infer_instance

section
variable {p : Pool Session Section} {before after started : List (List Section)} {sec : Section}
  {rest next : List Section} {s : Session}

section
variable (h : Covered p)
include h

theorem Covered.left {r : Nat} (hp : p.running = before ++ (sec :: rest) :: after)
    (hfin : ∀ r, sec ≠ .finClose r) (hr : p.shared.Lives r) : p.shared.Listed r ∨
      Pool.Left ⟨s, before ++ (next ++ rest) :: (after ++ started)⟩ (.finClose r) :=
  (h.cover r hr).imp_right fun hleft => (hleft.run hp).resolve_left fun heq => hfin r heq.symm

section

variable {sid : UInt32} (hp : p.running = before ++ (sec :: rest) :: after)
  (hfin : ∀ r, sec ≠ .finClose r)
include hp hfin

theorem Covered.register
    (hopen : p.shared.die = false) (hlock : p.shared.sweeping = none) (hvacant : p.shared.Vacant sid)
    (hs : s = p.shared.register sid) :
    Covered ⟨s, before ++ (next ++ rest) :: (after ++ started)⟩ := by
  subst hs
  refine ⟨fun r hr => ?_, fun left hleft => ?_, fun hdie => ?_⟩
  · rcases Session.lives_register.mp hr with hr | rfl
    · exact (h.left hp hfin hr).imp_left fun hlisted => Session.listed_register hvacant (.inl hlisted)
    · exact .inl (Session.listed_register hvacant (.inr rfl))
  · have hnone : p.shared.sweeping = some left := hleft
    rw [hlock] at hnone
    cases hnone
  · have hdead : p.shared.die = true := hdie
    rw [hopen] at hdead
    cases hdead

theorem Covered.delete
    (hsweep : sec ≠ .sweep) (hlock : p.shared.sweeping = none) (hs : s = p.shared.delete sid)
    (hgone : ∀ r ∈ p.shared.streams.lookup sid, p.shared.Lives r →
      Pool.Left ⟨s, before ++ (next ++ rest) :: (after ++ started)⟩ (.finClose r)) :
    Covered ⟨s, before ++ (next ++ rest) :: (after ++ started)⟩ := by
  subst hs
  refine ⟨fun r hr => ?_, fun left hleft => absurd (hlock.symm.trans hleft) nofun, fun hdie => ?_⟩
  · rcases h.left hp hfin hr with hlisted | hleft
    · exact (Session.listed_delete sid hlisted).symm.imp_right fun hlookup => hgone r hlookup hr
    · exact .inr hleft
  · rcases h.dead hdie with hleft | hnone
    · exact .inl ((hleft.run hp).resolve_left hsweep.symm)
    · exact .inr fun r hr => hnone r hr.of_delete

end

theorem Covered.keep (hp : p.running = before ++ (sec :: rest) :: after)
    (hkeeps : Keeps p.shared s) (hsweep : sec ≠ .sweep)
    (hfin : ∀ r, sec = .finClose r → ¬ s.Lives r) :
    Covered ⟨s, before ++ (next ++ rest) :: (after ++ started)⟩ := by
  refine ⟨fun r hr => ?_, fun left hleft r hr => ?_, fun hdie => ?_⟩
  · rcases h.cover r (hkeeps.lives r hr) with hlisted | hleft
    · exact .inl (hkeeps.listed r hr hlisted)
    · exact .inr ((hleft.run hp).resolve_left fun heq => hfin r heq.symm hr)
  · exact h.sweeping left (hkeeps.sweeping.symm.trans hleft) r (hkeeps.unlisted r hr)
  · rcases h.dead (hkeeps.die.symm.trans hdie) with hleft | hnone
    · exact .inl ((hleft.run hp).resolve_left hsweep.symm)
    · exact .inr fun r hr => hnone r (hkeeps.unlisted r hr)

theorem Covered.run (hp : p.running = before ++ (sec :: rest) :: after)
    (horderly : Orderly p.shared sec) {choice : Choice} {e : Effect Session Section}
    (he : effect p.shared sec choice = some e) :
    Covered ⟨e.shared, before ++ (e.next ++ rest) :: (after ++ e.started)⟩ := by
  obtain ⟨s, next, started⟩ := e
  cases moves_of_effect he with
  | keep hkeeps hsweep hfin => exact h.keep hp hkeeps hsweep hfin
  | «open» hopen hlock hs => exact h.register hp nofun hopen hlock horderly hs
  | syn hlock hvacant hs => exact h.register hp nofun horderly hlock hvacant hs
  | fin hlock hs hclose =>
    exact h.delete hp nofun nofun hlock hs fun r hr _ => Pool.left_next (hclose r hr)
  | delete hlock hs =>
    exact h.delete hp nofun nofun hlock hs fun r hr hlives => absurd hlives (horderly r hr)
  | die hs hnext =>
    cases hs
    exact ⟨fun r hr => h.left hp nofun hr, h.sweeping, fun _ => .inl (Pool.left_next hnext)⟩
  | lock hlock hs hnext =>
    cases hs
    refine ⟨fun r hr => h.left hp nofun hr, fun left hleft r hr => ?_,
      fun _ => .inl (Pool.left_next hnext)⟩
    cases hleft
    obtain ⟨st, hst, hdied, hlookup⟩ := hr
    exact mem_map.mpr ⟨⟨st.id, r⟩, mem_lookup_iff.mp hlookup, rfl⟩
  | @close r₀ left _ hsome hs hnext =>
    cases hs
    refine ⟨fun r hr => ?_, fun left' hleft r hr => ?_, fun _ => .inl (Pool.left_next hnext)⟩
    · obtain ⟨hne, hr⟩ := Session.lives_kill.mp hr
      exact (h.left hp nofun hr).imp_left fun hlisted => Session.listed_kill.mpr ⟨hne, hlisted⟩
    · cases hleft
      obtain ⟨hne, hr⟩ := Session.listed_kill.mp hr
      exact (mem_cons.mp (h.sweeping _ hsome r hr)).resolve_left hne.symm
  | clear hsome hs =>
    cases hs
    -- the sweep has closed every stream of the table
    have hnone : ∀ r, ¬ p.shared.Listed r := fun r hr => not_mem_nil (h.sweeping _ hsome r hr)
    refine ⟨fun r hr => ?_, fun left hleft => absurd hleft nofun, fun _ => .inr ?_⟩
    · exact (h.left hp nofun hr).imp_left fun hlisted => absurd hlisted (hnone r)
    · rintro r ⟨st, -, -, hlookup⟩
      cases hlookup

end

end

theorem covered_newSession (isClient : Bool) : Covered (newSession isClient) := by
  refine ⟨fun r hr => ?_, fun left hleft => ?_, fun hdie => ?_⟩
  · obtain ⟨st, hst, -⟩ := hr
    cases hst
  · cases hleft
  · cases hdie

def Section.ofClose : Section → Bool
  | .dieOnce | .dieHook | .sweep | .connClose => true
  | _ => false

/-- The sections of `recvLoop` that no other goroutine has. -/
def Section.ofRecvLoop : Section → Bool
  | .recvCheck | .recvFrame | .recvPSH _ | .pipeWrite _ | .recvSYN _ | .recvSYNACK _ | .recvFIN _
  | .finClose _ | .recvReply _ => true
  | _ => false

/-- If the session has been closed and neither `Close` nor `recvLoop` is running, every stream that
was registered has died. -/
def AllDied (p : Pool Session Section) : Prop :=
  p.shared.die → (∀ sec, p.Left sec → sec.ofClose = false ∧ sec.ofRecvLoop = false) →
    ∀ st ∈ p.shared.heap, st.died

theorem Covered.allDied {p : Pool Session Section} (h : Covered p) : AllDied p := by
  intro hdie hreturned st hst
  obtain ⟨r, hr⟩ := getElem?_of_mem hst
  by_contra hlives
  have hlisted : ∀ r, ¬ p.shared.Listed r := by
    rcases h.dead hdie with hleft | hnone
    · exact absurd (hreturned _ hleft).1 nofun
    · exact hnone
  rcases h.cover r ⟨st, hr, Bool.eq_false_of_not_eq_true hlives⟩ with h | hleft
  · exact hlisted r h
  · exact absurd (hreturned _ hleft).2 nofun

/-- In every order of the sections of `recvLoop`, `OpenStream`, `Close` and the closing of streams: if
streams are registered and deleted in order, all of them have died when `Close` and `recvLoop` have
returned. -/
theorem streams_died (isClient : Bool) (moves : List (Move Choice Call))
    (h : Along program.step (Program.Meets Orderly) (newSession isClient) moves) :
    Always program.step AllDied (newSession isClient) moves := by
  have hcovered : Always program.step Covered (newSession isClient) moves := by
    refine always_pool (fun hp heq horderly he => hp.run heq horderly he) (fun hp _ => ?_)
      (covered_newSession isClient) moves h
    refine ⟨fun r hr => ?_, hp.sweeping, fun hdie => ?_⟩
    · exact (hp.cover r hr).imp_right fun hleft => hleft.call _
    · exact (hp.dead hdie).imp_left fun hleft => hleft.call _
  exact hcovered.mono fun h => h.allDied

theorem streams_died_syn :
    let moves : List (Move Choice Call) :=
      [.run 0 .ok, .run 0 (.frame cmdSettings 0 [118] 0), .run 0 .ok, .run 0 .ok,
        .run 0 (.frame cmdSYN 1 [] 0), .run 0 .ok, .run 0 .ok, .call .close, .run 1 .ok, .run 1 .ok,
        .run 1 .ok, .run 1 .ok, .run 1 .ok, .run 1 .ok, .run 1 .ok, .run 0 .fail, .run 0 .ok]
    Always program.step AllDied (newSession false) moves ∧
      ∃ p, exec program.step (newSession false) moves = .ok p ∧ p.shared.die = true ∧
        p.running = [[], []] ∧ p.shared.heap = [{ id := 1, died := true }] :=
  ⟨streams_died false _ (by decide), _, rfl, rfl, rfl, rfl⟩

/-- The SYN has been read before the session is closed and is processed after the sweep: the stream
stays in the table of the dead session, and its handler waits for ever. -/
theorem syn_survives_close :
    ∃ p, exec program.step (newSession false)
      [.run 0 .ok, .run 0 (.frame cmdSettings 0 [118] 0), .run 0 .ok, .run 0 .ok,
        .run 0 (.frame cmdSYN 1 [] 0), .call .close, .run 1 .ok, .run 1 .ok, .run 1 .ok, .run 1 .ok,
        .run 1 .ok, .run 0 .ok, .run 0 .ok, .run 0 .ok] = .ok p ∧
      p.shared.die = true ∧ p.running = [[], []] ∧ p.shared.heap = [{ id := 1 }] ∧ ¬ AllDied p := by
  refine ⟨_, rfl, rfl, rfl, rfl, fun h => ?_⟩
  have hdied := h rfl (fun sec hleft => ?_) { id := 1 } List.mem_cons_self
  · cases hdied
  · obtain ⟨g, hg, hsec⟩ := hleft
    change g ∈ [[], []] at hg
    simp only [List.mem_cons, List.not_mem_nil, or_false, or_self] at hg
    rw [hg] at hsec
    cases hsec

end Mihomo.Anytls
