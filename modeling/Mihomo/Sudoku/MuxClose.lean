import Mihomo.Sudoku.Mux

/-!
# Closing a multiplexed session (transport/sudoku/multiplex/session.go)

`closeWithError` takes the streams out of the table, closes them and closes the channel last.
`registerStream` does not ask whether the table has been taken, and `removeStream` goes by the number
alone.
-/

namespace Mihomo.Sudoku.Mux
open Go Lib List
/-! ### What a section does to the streams -/

def Ages (heap heap' : List Stream) : Prop :=
  ∀ r : Nat, Option.Rel Stream.Later heap[r]? heap'[r]?

theorem Ages.refl (heap : List Stream) : Ages heap heap := by
  intro r
  cases heap[r]? with
  | none => exact .none
  | some st => exact .some (.refl st)

variable {r : Nat} {heap heap' : List Stream} {s : Session}

theorem ages_modify {f : Stream → Stream}
    (hf : ∀ st, heap[r]? = some st → st.Later (f st)) : Ages heap (heap.modify r f) := by
  intro r'
  rw [getElem?_modify]
  cases hr : heap[r']? with
  | none => exact .none
  | some st =>
    apply Option.Rel.some
    split
    next heq =>
      exact hf st (heq ▸ hr)
    · exact .refl st

theorem Ages.back (h : Ages heap heap') {st' : Stream}
    (hr : heap'[r]? = some st') : ∃ st, heap[r]? = some st ∧ st.Later st' := by
  have hrel := h r
  rw [hr] at hrel
  generalize heap[r]? = o at hrel ⊢
  cases hrel with
  | some h => exact ⟨_, rfl, h⟩

theorem Ages.forth (h : Ages heap heap') {st : Stream}
    (hr : heap[r]? = some st) : ∃ st', heap'[r]? = some st' ∧ st.Later st' := by
  have hrel := h r
  rw [hr] at hrel
  generalize heap'[r]? = o at hrel ⊢
  cases hrel with
  | some h => exact ⟨_, rfl, h⟩

theorem Ages.lt_length (h : Ages heap heap') (hr : r < heap.length) : r < heap'.length := by
  obtain ⟨st', hst', -⟩ := h.forth (getElem?_eq_getElem hr)
  exact (List.getElem?_eq_some_iff.mp hst').1

structure Keeps (s s' : Session) : Prop where
  heap : Ages s.heap s'.heap
  streams : s'.streams = s.streams
  closeErr : s'.closeErr = s.closeErr
  closed : s'.closed = s.closed
  closeOnce : s'.closeOnce = s.closeOnce

theorem Keeps.refl (s : Session) : Keeps s s := ⟨.refl s.heap, rfl, rfl, rfl, rfl⟩

theorem keeps_update (s : Session) (r : Nat) {f : Stream → Stream} (hf : ∀ st : Stream, st.Later (f st)) :
    Keeps s (s.update r f) :=
  ⟨ages_modify fun st _ => hf st, rfl, rfl, rfl, rfl⟩

inductive Moves (s : Session) : Section → Session → Prop where
  | keep {sec : Section} {s' : Session} : Keeps s s' →
    (∀ r ∈ s'.handed, r ∈ s.handed ∨ r < s.heap.length) → Moves s sec s'
  | open {id : UInt32} {payload : Nat} : Moves s (.registerStream id payload) (s.register id)
  | accept {id : UInt32} {payload : Str} : Moves s (.registerAccept id payload) (s.register id)
  | remove {id : UInt32} : Moves s (.removeStream id) (s.removeStream id)
  | close {err : Err} : Moves s (.closeWithError err) (s.closeStep err)

theorem moves_of_effect {sec : Section} {choice : Choice} {e : Effect Session Section}
    (h : effect s sec choice = some e) : Moves s sec e.shared := by
  have hself : ∀ {sec}, Moves s sec s := .keep (.refl s) fun r hr => .inl hr
  have hupdate : ∀ {sec} r {f : Stream → Stream}, (∀ st : Stream, st.Later (f st)) →
      Moves s sec (s.update r f) := fun r _ hf => .keep (keeps_update s r hf) fun r hr => .inl hr
  have hhands : ∀ {sec r s'}, Keeps s s' → s'.handed = s.handed ++ [r] → r < s.heap.length →
      Moves s sec s' := by
    intro sec r s' hkeeps hhanded hlt
    refine .keep hkeeps fun r' hr' => ?_
    rw [hhanded] at hr'
    rcases mem_append.mp hr' with hr' | hr'
    · exact .inl hr'
    · rw [mem_singleton.mp hr']
      exact .inr hlt
  revert h
  fun_cases effect s sec choice
  all_goals
    intro h
    cases h
  case case2 | case34 | case41 => exact .keep ⟨.refl _, rfl, rfl, rfl, rfl⟩ fun r hr => .inl hr
  case case3 => exact .open
  case case6 hvalid =>
    exact hhands ⟨.refl _, rfl, rfl, rfl, rfl⟩ rfl (by omega)
  case case14 => exact .close
  case case15 => exact hupdate _ (Stream.later_closeNoSend _)
  case case16 => exact .remove
  case case24 => exact .accept
  case case27 st hst st' hst' =>
    refine .keep ⟨ages_modify fun st₀ hst₀ => ?_, rfl, rfl, rfl, rfl⟩ fun r hr => .inl hr
    cases hst.symm.trans hst₀
    exact Stream.later_enqueue hst'
  case case32 => exact hupdate _ Stream.later_closeRemoteWrite
  case case35 hvalid => exact hhands ⟨.refl _, rfl, rfl, rfl, rfl⟩ rfl hvalid.2
  case case47 => exact hupdate _ (Stream.later_read _)
  case case52 => exact hupdate _ Stream.later_close
  case case55 => exact hupdate _ fun st => ⟨rfl, fun h => h, fun h => h, fun _ => rfl, fun h => h⟩
  case case58 => exact hupdate _ Stream.later_closeRead
  -- the other sections leave the session as it is
  all_goals exact hself

/-! ### Sessions whose open streams are all known -/

def Closing.taken : Closing → Bool
  | .fresh | .begun _ => false
  | _ => true

/-- Every stream is shut, or it is in the table and the table has not been taken, or it is still to
be closed by the sweep. -/
structure Covered (s : Session) : Prop where
  handed : ∀ r ∈ s.handed, r < s.heap.length
  cover : ∀ (r : Nat) st, s.heap[r]? = some st → st.Shut ∨
    s.closeErr = none ∧ s.streams.lookup st.id = some r ∨
    ∃ err left, s.closeOnce = .sweeping err left ∧ r ∈ left
  taken : s.closeErr ≠ none ↔ s.closeOnce.taken
  empty : s.closeErr ≠ none → s.streams = ∅
  closed : s.closed → s.closeErr ≠ none

def Session.Vacant (s : Session) (id : UInt32) : Prop :=
  ∀ r ∈ s.streams.lookup id, ∀ st ∈ s.heap[r]?, st.Shut

/-- A stream is registered only before the table is taken and under a number that no open stream has,
and no open stream is removed. -/
def Orderly (s : Session) : Section → Prop
  | .registerStream id _ => s.closeErr = none ∧ s.Vacant id
  | .registerAccept id _ => s.closeErr = none ∧ s.Vacant id
  | .removeStream id => s.Vacant id
  | _ => True

section
variable (h : Covered s)
include h

theorem Covered.keep {s' : Session} (hkeeps : Keeps s s')
    (hhanded : ∀ r ∈ s'.handed, r < s'.heap.length) : Covered s' := by
  refine ⟨hhanded, fun r st' hr => ?_, ?_, ?_, ?_⟩
  · obtain ⟨st, hst, hlater⟩ := hkeeps.heap.back hr
    rw [hkeeps.closeErr, hkeeps.streams, hkeeps.closeOnce, hlater.id]
    exact (h.cover r st hst).imp_left fun hshut => hshut.later hlater
  · rw [hkeeps.closeErr, hkeeps.closeOnce]
    exact h.taken
  · rw [hkeeps.closeErr, hkeeps.streams]
    exact h.empty
  · rw [hkeeps.closed, hkeeps.closeErr]
    exact h.closed

theorem Covered.register {id : UInt32} (hopen : s.closeErr = none)
    (hvacant : s.Vacant id) : Covered (s.register id) := by
  refine ⟨fun r hr => ?_, fun r st hr => ?_, h.taken, absurd hopen, h.closed⟩
  · have := h.handed r hr
    change r < (s.heap ++ _).length
    rw [length_append]
    omega
  · change (s.heap ++ [({ id := id } : Stream)])[r]? = some st at hr
    change _ ∨ s.closeErr = none ∧ (s.streams.insert id s.heap.length).lookup st.id = some r ∨ _
    rcases Nat.lt_trichotomy r s.heap.length with hlt | rfl | hgt
    · rw [getElem?_append_left hlt] at hr
      rcases h.cover r st hr with hshut | ⟨-, hlookup⟩ | hsweep
      · exact .inl hshut
      · by_cases hid : st.id = id
        · rw [hid] at hlookup
          exact .inl (hvacant r hlookup st hr)
        · rw [AList.lookup_insert_ne hid]
          exact .inr (.inl ⟨hopen, hlookup⟩)
      · exact .inr (.inr hsweep)
    · rw [getElem?_concat_length] at hr
      cases hr
      rw [AList.lookup_insert]
      exact .inr (.inl ⟨hopen, rfl⟩)
    · rw [getElem?_eq_none (by rw [length_append, length_singleton]; omega)] at hr
      cases hr

theorem Covered.remove {id : UInt32} (hvacant : s.Vacant id) : Covered (s.removeStream id) := by
  refine ⟨h.handed, fun r st hr => ?_, h.taken, fun herr => ?_, h.closed⟩
  · change _ ∨ s.closeErr = none ∧ (s.streams.erase id).lookup st.id = some r ∨ _
    rcases h.cover r st hr with hshut | ⟨hopen, hlookup⟩ | hsweep
    · exact .inl hshut
    · by_cases hid : st.id = id
      · rw [hid] at hlookup
        exact .inl (hvacant r hlookup st hr)
      · rw [AList.lookup_erase_ne hid]
        exact .inr (.inl ⟨hopen, hlookup⟩)
    · exact .inr (.inr hsweep)
  · change s.streams.erase id = ∅
    rw [h.empty herr]
    rfl

theorem Covered.open_of_not_taken (htaken : s.closeOnce.taken = false) : s.closeErr = none := by
  by_contra hne
  have := h.taken.mp hne
  rw [htaken] at this
  cases this

theorem Covered.shut_or_listed {st : Stream} (hr : s.heap[r]? = some st)
    (hquiet : ∀ err left, s.closeOnce ≠ .sweeping err left) :
    st.Shut ∨ s.closeErr = none ∧ s.streams.lookup st.id = some r :=
  (h.cover r st hr).imp_right fun h => h.resolve_right fun ⟨err, left, heq, _⟩ => hquiet err left heq

theorem Covered.closeStep (err : Err) : Covered (s.closeStep err) := by
  unfold Session.closeStep
  split
  next hfresh =>
    have hopen := h.open_of_not_taken (by rw [hfresh]; rfl)
    refine ⟨h.handed, fun r st hr => ?_, ?_, h.empty, h.closed⟩
    · exact (h.shut_or_listed hr (by rw [hfresh]; nofun)).imp_right .inl
    · exact iff_of_false (fun hne => hne hopen) Bool.noConfusion
  next err' hbegun =>
    have hopen := h.open_of_not_taken (by rw [hbegun]; rfl)
    have herr : s.closeErr.or (some err') ≠ none := by
      rw [hopen]
      exact Option.some_ne_none err'
    refine ⟨h.handed, fun r st hr => ?_, iff_of_true herr rfl, fun _ => rfl, fun _ => herr⟩
    refine (h.shut_or_listed hr (by rw [hbegun]; nofun)).imp_right fun hlisted => .inr ?_
    exact ⟨err', _, rfl, mem_map.mpr ⟨⟨st.id, r⟩, AList.mem_lookup_iff.mp hlisted.2, rfl⟩⟩
  next err' r₀ left hsweeping =>
    have herr : s.closeErr ≠ none := h.taken.mpr (by rw [hsweeping]; rfl)
    have hages : Ages s.heap (s.heap.modify r₀ (·.closeNoSend err')) :=
      ages_modify fun st _ => st.later_closeNoSend err'
    refine ⟨fun r hr => ?_, fun r st' hr => ?_, iff_of_true herr rfl, h.empty, h.closed⟩
    · change r < (s.heap.modify ..).length
      rw [length_modify]
      exact h.handed r hr
    · obtain ⟨st, hst, hlater⟩ := hages.back hr
      rcases h.cover r st hst with hshut | ⟨hopen, -⟩ | ⟨err'', left', hsweep, hmem⟩
      · exact .inl (hshut.later hlater)
      · exact absurd hopen herr
      · rw [hsweeping] at hsweep
        cases hsweep
        rcases mem_cons.mp hmem with rfl | hmem
        · left
          change (s.heap.modify r _)[r]? = some st' at hr
          rw [getElem?_modify_eq, hst] at hr
          cases hr
          exact .inl (st.closed_closeNoSend err')
        · exact .inr (.inr ⟨err', left, rfl, hmem⟩)
  next err' hsweeping =>
    have herr : s.closeErr ≠ none := h.taken.mpr (by rw [hsweeping]; rfl)
    refine ⟨h.handed, fun r st hr => ?_, iff_of_true herr rfl, h.empty, fun _ => herr⟩
    rcases h.cover r st hr with hshut | htable | ⟨err'', left', hsweep, hmem⟩
    · exact .inl hshut
    · exact absurd htable.1 herr
    · rw [hsweeping] at hsweep
      cases hsweep
      cases hmem
  next hsignalled =>
    have herr : s.closeErr ≠ none := h.taken.mpr (by rw [hsignalled]; rfl)
    refine ⟨h.handed, fun r st hr => ?_, iff_of_true herr rfl, h.empty, h.closed⟩
    exact (h.shut_or_listed hr (by rw [hsignalled]; nofun)).imp_right .inl
  · exact h

theorem Covered.effect {sec : Section} (horderly : Orderly s sec)
    {choice : Choice} {e : Effect Session Section} (he : Mux.effect s sec choice = some e) :
    Covered e.shared := by
  obtain ⟨shared, next, started⟩ := e
  cases moves_of_effect he with
  | keep hkeeps hhanded =>
    refine h.keep hkeeps fun r hr => hkeeps.heap.lt_length ?_
    rcases hhanded r hr with hr | hlt
    · exact h.handed r hr
    · exact hlt
  | «open» | accept => exact h.register horderly.1 horderly.2
  | remove => exact h.remove horderly
  | close => exact h.closeStep _

end

theorem covered_newSession (server : Bool) : Covered (newSession server).shared := by
  refine ⟨nofun, fun r st hr => ?_, ?_, fun _ => rfl, ?_⟩
  · cases hr
  · exact iff_of_false (fun h => h rfl) Bool.noConfusion
  · intro h
    cases h

instance (s : Session) (id : UInt32) : Decidable (s.Vacant id) := by
  unfold Session.Vacant
  infer_instance

instance (s : Session) (sec : Section) : Decidable (Orderly s sec) := by
  unfold Orderly
  split <;> infer_instance

/-- When `closeWithError` and the loop have ended, every stream that was handed out is shut and no
`Read` on it waits; and the table of a closed session has no open stream. -/
def AllShut (p : Pool Session Section) : Prop :=
  (p.shared.closeOnce = .finished → p.shared.reading = false → ∀ r ∈ p.shared.handed,
    ∃ st, p.shared.heap[r]? = some st ∧ st.Shut ∧ ¬ st.Waits) ∧
  (p.shared.closed → ∀ id, ∀ r ∈ p.shared.streams.lookup id,
    ∃ st, p.shared.heap[r]? = some st ∧ st.Shut)

theorem Covered.allShut {p : Pool Session Section} (h : Covered p.shared) : AllShut p := by
  refine ⟨fun hfinished _ r hr => ?_, fun hclosed id r hr => ?_⟩
  · have herr : p.shared.closeErr ≠ none := h.taken.mpr (by rw [hfinished]; rfl)
    obtain ⟨st, hst⟩ : ∃ st, p.shared.heap[r]? = some st :=
      ⟨_, getElem?_eq_getElem (h.handed r hr)⟩
    have hshut : st.Shut :=
      (h.shut_or_listed hst (by rw [hfinished]; nofun)).resolve_right fun hlisted => herr hlisted.1
    exact ⟨st, hst, hshut, hshut.not_waits⟩
  · rw [h.empty (h.closed hclosed)] at hr
    cases hr

/-- In every order of the sections of `OpenStream`, `AcceptStream`, `closeWithError`, the loop and the
methods of the streams: if streams are registered and removed in order, everything is shut in the
end. -/
theorem streams_shut (server : Bool) (moves : List (Move Choice Call))
    (h : Along program.step (Program.Meets Orderly) (newSession server) moves) :
    Always program.step AllShut (newSession server) moves := by
  have hcovered := always_shared (P := program) (I := Covered)
    (fun hs horderly he => hs.effect horderly he) (covered_newSession server) moves h
  exact hcovered.mono fun h => h.allShut

theorem streams_shut_open_close :
    let moves : List (Move Choice Call) :=
      [.call (.openStream 0), .run 1 .ok, .run 1 .ok, .run 1 .ok, .run 1 .ok, .run 1 .ok, .call .close,
        .run 2 .ok, .run 2 .ok, .run 2 .ok, .run 2 .ok, .run 2 .ok, .run 0 (.fail 1), .run 0 .ok,
        .run 0 .ok]
    Always program.step AllShut (newSession false) moves ∧
      ∃ p, exec program.step (newSession false) moves = .ok p ∧ p.shared.handed = [0] ∧
        p.shared.closeOnce = .finished ∧ p.shared.reading = false :=
  ⟨streams_shut false _ (by decide), _, rfl, rfl, rfl, rfl⟩

/-- `OpenStream` registers its stream after `closeWithError` has taken the table and sends its frame
before the channel is closed. The stream is returned, and a `Read` on it waits for ever. -/
theorem open_stream_survives_close :
    ∃ p, exec program.step (newSession false)
      [.call (.openStream 0), .run 1 .ok, .run 1 .ok, .call .close, .run 2 .ok, .run 2 .ok, .run 1 .ok,
        .run 1 .ok, .run 1 .ok, .run 2 .ok, .run 2 .ok, .run 0 (.fail 1), .run 0 .ok, .run 0 .ok] =
        .ok p ∧
      p.shared.closeOnce = .finished ∧ p.shared.reading = false ∧ p.shared.handed = [0] ∧
      p.running = [[], [], []] ∧
      ∃ st, p.shared.heap[0]? = some st ∧ ¬ st.Shut ∧ st.Waits ∧ ¬ AllShut p := by
  refine ⟨_, rfl, rfl, rfl, rfl, rfl, _, rfl, by decide, by decide, fun h => ?_⟩
  obtain ⟨st, hst, hshut, -⟩ := h.1 rfl rfl 0 (by decide)
  cases hst
  exact absurd hshut (by decide)

end Mihomo.Sudoku.Mux
