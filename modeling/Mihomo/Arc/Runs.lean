import Mihomo.Arc.Eviction

/-!
# Runs of the cache operations

Every lookup or store of a key hands one entry to `req` and writes it back; the other operations only
remove entries. `Evictable` is the condition on a request under which `replace` finds an entry.
-/

namespace Mihomo.Arc
open Lib

universe u v
variable {K : Type u} {V : Type v} [DecidableEq K]

structure WF (a : ARC K V) : Prop where
  shape : Shape a
  bounds : Bounds a

/-- The list of the entry an operation requests; `some none` is a new key. -/
def requestedList (a : ARC K V) : Op K V → Option (Option Loc)
  | .set key _ | .setWithExpire key _ _ => some ((a.cache.lookup key).bind (·.ll))
  | .get key | .getWithExpire key => (a.cache.lookup key).map (·.ll)
  | .delete _ | .clear | .snapshot => none

def Evictable (a : ARC K V) (op : Op K V) : Prop :=
  ∀ ll, requestedList a op = some ll → Evicts a ll → Victim a (a.adapted ll) ll

namespace ARC

def counted (a : ARC K V) (key : K) : ARC K V :=
  { a with len := if (a.cache.lookup key).any (!·.ghost) then a.len else a.len + 1 }

def entryFor (a : ARC K V) (key : K) (value : V) (expires : Int) : Entry K V :=
  { key, value, ll := (a.cache.lookup key).bind (·.ll), ghost := false, expires }

variable [Inhabited V]

def serve (a : ARC K V) (ent : Entry K V) : Except Panic (ARC K V) := do
  let (b, e) ← a.req ent
  return { b with cache := b.cache.insert ent.key e }

end ARC

variable {a : ARC K V} {key : K} {op : Op K V}

theorem WF.setLen (hw : WF a) (n : Int) : WF { a with len := n } :=
  ⟨hw.shape.congr rfl rfl, { hw.bounds with }⟩

theorem WF.drop (hw : WF a) {e : Entry K V} (he : a.cache.lookup e.key = some e) :
    WF (a.drop e) := by
  have hag := hw.shape.agrees he
  have hsize : ∀ x, (a.drop e).size x ≤ a.size x := by
    intro x
    change (a.detach e).size x ≤ a.size x
    rw [detach_size hag]
    split <;> omega
  have hc : (a.drop e).c = a.c := detach_c a e
  have hp : (a.drop e).p = a.p := detach_p a e
  have h1 := hsize .t1
  have h2 := hsize .t2
  have h3 := hsize .b1
  have h4 := hsize .b2
  obtain ⟨_, _, _, _, _, _⟩ := hw.bounds
  exact ⟨hw.shape.drop hag, by constructor <;> omega⟩

theorem WF.clear (hc : 1 ≤ a.c) : WF a.clear := by
  refine ⟨⟨by simp [ARC.clear], by simp [ARC.clear], by simp [ARC.clear], by simp [ARC.clear]⟩, ?_⟩
  constructor <;> simp [ARC.clear, ARC.size] <;> omega

theorem WF.new {c : Int} (hc : 1 ≤ c) : WF (ARC.new c : ARC K V) :=
  WF.clear (a := ARC.new c) hc

variable [Inhabited V]

theorem serve_cases (hw : WF a) (ent : Entry K V) :
    (Evicts a ent.ll ∧ ¬ Victim a (a.adapted ent.ll) ent.ll ∧
        a.serve ent = .error .nilDereference) ∨
      ((Evicts a ent.ll → Victim a (a.adapted ent.ll) ent.ll) ∧
        ∃ b dst, a.serve ent = .ok (b.place ent dst) ∧ Path a ent b dst) := by
  rcases req_served hw.shape hw.bounds ent with ⟨hev, hv, hr⟩ | ⟨hv, b, dst, hr, hp⟩
  · exact .inl ⟨hev, hv, by rw [ARC.serve, hr]; rfl⟩
  · refine .inr ⟨hv, b, dst, ?_, hp⟩
    simp [ARC.serve, hr, ARC.place, ARC.setMRU, bind, Except.bind, pure, Except.pure]

theorem setWithExpire_eq (hs : Shape a) (key : K) (value : V) (expires : Int) :
    a.setWithExpire key value expires = (a.counted key).serve (a.entryFor key value expires) := by
  cases h : a.cache.lookup key with
  | none => simp [ARC.setWithExpire, ARC.serve, ARC.counted, ARC.entryFor, h]
  | some ent =>
    obtain rfl := hs.key_eq h
    cases hg : ent.ghost <;>
      simp [ARC.setWithExpire, ARC.serve, ARC.counted, ARC.entryFor, h, hg]

theorem get_eq (hs : Shape a) {ent : Entry K V}
    (h : a.cache.lookup key = some ent) : Prod.fst <$> a.get key = a.serve ent := by
  obtain rfl := hs.key_eq h
  simp only [ARC.get, ARC.serve, h]
  cases a.req ent <;> rfl

/-- An operation either hands an entry to `req`, from a state that differs from
the current one at most in the counter, or removes entries, or does nothing. -/
inductive Action (a : ARC K V) (op : Op K V) : Prop
  | request (n : Int) (ent : Entry K V) : requestedList a op = some ent.ll →
      Agrees a ent → step a op = { a with len := n }.serve ent → Action a op
  | remove (e : Entry K V) (n : Int) : requestedList a op = none → a.cache.lookup e.key = some e →
      step a op = .ok { a.drop e with len := n } → Action a op
  | clear : requestedList a op = none → step a op = .ok a.clear → Action a op
  | same : requestedList a op = none → step a op = .ok a ∨ step a op = .error .makeSlice →
      Action a op

omit [Inhabited V] in
theorem agrees_entryFor (hs : Shape a) (key : K) (value : V) (expires : Int) :
    Agrees a (a.entryFor key value expires) := by
  cases h : a.cache.lookup key with
  | none => exact hs.agrees_new h (by simp [ARC.entryFor, h])
  | some ent => exact (hs.agrees h).congr (hs.key_eq h).symm (by simp [ARC.entryFor, h])

theorem action_set (hs : Shape a) {value : V} {expires : Int}
    (hop : step a op = a.setWithExpire key value expires)
    (hreq : requestedList a op = some ((a.cache.lookup key).bind (·.ll))) : Action a op := by
  exact .request _ _ hreq (agrees_entryFor hs key value expires)
    (hop.trans (setWithExpire_eq hs key value expires))

theorem action_get (hs : Shape a) (hop : step a op = Prod.fst <$> a.get key)
    (hreq : requestedList a op = (a.cache.lookup key).map (·.ll)) : Action a op := by
  cases h : a.cache.lookup key with
  | none =>
    refine .same (by simp [hreq, h]) (.inl ?_)
    rw [hop]
    simp only [ARC.get, h]
    rfl
  | some ent => exact .request a.len ent (by simp [hreq, h]) (hs.agrees h) (hop.trans (get_eq hs h))

theorem action (hs : Shape a) (op : Op K V) : Action a op := by
  cases op with
  | set | setWithExpire => exact action_set hs rfl rfl
  | get | getWithExpire => exact action_get hs rfl rfl
  | delete key =>
    cases h : a.cache.lookup key with
    | none => exact .same rfl (.inl (by simp [step, ARC.delete, h]))
    | some ent =>
      obtain rfl := hs.key_eq h
      refine .remove ent (if ent.ghost then a.len else a.len - 1) rfl h ?_
      simp [step, ARC.delete, h, ARC.drop]
  | clear => exact .clear rfl rfl
  | snapshot =>
    refine .same rfl ?_
    by_cases hn : a.len < 0
    · exact .inr (by simp [step, ARC.snapshot, hn])
    · exact .inl (by simp [step, ARC.snapshot, hn])

theorem wf_step {b : ARC K V} (hw : WF a) (h : step a op = .ok b) : WF b := by
  cases action hw.shape op with
  | request n ent _ hag hop =>
    rw [hop] at h
    rcases serve_cases (hw.setLen n) ent with ⟨_, _, hr⟩ | ⟨_, c, dst, hr, hp⟩
    · rw [hr] at h
      cases h
    · rw [hr] at h
      cases h
      have hs := (hw.setLen n).shape
      exact ⟨(hp.shape hs).place (hp.agrees hs hag) dst, hp.bounds hs (hw.setLen n).bounds hag⟩
  | remove e n _ he hop =>
    rw [hop] at h
    cases h
    exact (hw.drop he).setLen n
  | clear _ hop =>
    rw [hop] at h
    cases h
    exact .clear hw.bounds.one_le
  | same _ hop =>
    rcases hop with hop | hop <;> rw [hop] at h <;> cases h
    exact hw

/-- In every run the lists agree with the map and keep the bounds of the algorithm. -/
theorem always_wf (c : Nat) (ops : List (Op K V)) :
    Always step WF (ARC.new (c + 1 : Int)) ops :=
  always_of_invariant WF wf_step id (.new (by omega)) ops

theorem step_error_iff (hw : WF a) (op : Op K V) :
    step a op = .error .nilDereference ↔ ¬ Evictable a op := by
  cases action hw.shape op with
  | request n ent hreq hag hop =>
    have hev : Evictable a op ↔ (Evicts a ent.ll → Victim a (a.adapted ent.ll) ent.ll) := by
      simp [Evictable, hreq]
    rw [hop, hev]
    rcases serve_cases (hw.setLen n) ent with ⟨he, hv, hr⟩ | ⟨hv, b, dst, hr, _⟩
    · exact iff_of_true hr fun h => hv (h he)
    · rw [hr]
      exact iff_of_false (by simp) (not_not_intro hv)
  | remove e n hreq _ hop | clear hreq hop => simp [hop, Evictable, hreq]
  | same hreq hop => rcases hop with hop | hop <;> simp [hop, Evictable, hreq]

/-- A run on a cache of capacity at least one dereferences nil exactly when one of
its requests has to evict while `t1` is within its target and `t2` is empty. In
particular `delLRU` is never given an empty list. -/
theorem exec_no_nil_dereference_iff {c : Int} (hc : 1 ≤ c) (ops : List (Op K V)) :
    exec step (ARC.new c) ops ≠ .error .nilDereference ↔
      Along step Evictable (ARC.new c) ops :=
  exec_ne_error_iff_along wf_step (fun hw => step_error_iff hw _) (WF.new hc) ops

/-- `Set` 0, `Get` 0, `Set` 1, `Delete` 1 on a cache of capacity one leave only the
ghost of 0 behind; the next `Get` 0 calls `replace` with both resident lists empty. -/
theorem exec_nil_dereference_of_ghost : ¬ ∀ c : Int, 1 ≤ c → ∀ ops : List (Op ℕ ℕ),
    exec step (ARC.new c) ops ≠ .error .nilDereference := by
  intro h
  exact h 1 (by decide) [.set 0 0, .get 0, .set 1 0, .delete 1, .get 0] rfl

theorem along_evictable_example :
    Along step Evictable (ARC.new 1 : ARC ℕ ℕ) [.set 0 0, .get 0, .set 1 0, .get 0, .delete 1] := by
  refine (exec_no_nil_dereference_iff (by decide) _).mp ?_
  intro h
  cases h

end Mihomo.Arc
