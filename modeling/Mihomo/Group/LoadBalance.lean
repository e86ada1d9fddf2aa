import Mathlib.Data.List.Rotate

/-!
# Round-robin load balancing

A strategy is a closure over an index. A call goes around the list from the index to the first proxy
that is alive, and a touching call leaves the index behind it. The list may be another one at each
call, so the index is taken modulo the length.
-/

namespace Mihomo.Group
open List

variable {P : Type}

/-- The function that `strategyRoundRobin` returns: the proxy and the index after the call; none is the
panic of an empty list. -/
def strategyRoundRobin (alive : P → Bool) (idx : Nat) (proxies : List P) (touch : Bool) :
    Option (P × Nat) :=
  let length := proxies.length
  let next i := if touch then (idx + i) % length else idx
  match (range length).find? fun i => proxies[(idx + i) % length]?.any alive with
  | some i => proxies[(idx + i) % length]?.map (·, next (i + 1))
  | none => proxies.head?.map (·, next length)

/-- What the touching calls return among calls on one list. -/
def roundRobin (alive : P → Bool) (proxies : List P) : Nat → List Bool → Option (List P)
  | _, [] => some []
  | idx, touch :: touches => do
    let (proxy, idx) ← strategyRoundRobin alive idx proxies touch
    let returned ← roundRobin alive proxies idx touches
    some (if touch then proxy :: returned else returned)

variable {alive : P → Bool} {proxies : List P}

theorem strategyRoundRobin_mem (idx : Nat) (touch : Bool) (hne : proxies ≠ []) :
    ∃ p next, strategyRoundRobin alive idx proxies touch = some (p, next) ∧ p ∈ proxies ∧
      (touch = true → next < proxies.length) := by
  have hpos := length_pos_iff.mpr hne
  have hnext : ∀ i, touch = true → (if touch then (idx + i) % proxies.length else idx) < proxies.length :=
    fun i ht => by
      rw [if_pos ht]
      exact Nat.mod_lt _ hpos
  unfold strategyRoundRobin
  dsimp only
  split
  · rw [getElem?_eq_getElem (Nat.mod_lt _ hpos)]
    exact ⟨_, _, rfl, getElem_mem _, hnext _⟩
  · rw [head?_eq_some_head hne]
    exact ⟨_, _, rfl, head_mem hne, hnext _⟩

def ahead (alive : P → Bool) (proxies : List P) (idx : Nat) : List P := (proxies.rotate idx).filter alive

theorem strategyRoundRobin_ahead {idx : Nat} {p : P} {rest : List P} (touch : Bool)
    (h : ahead alive proxies idx = p :: rest) :
    ∃ next, strategyRoundRobin alive idx proxies touch = some (p, next) ∧
      ahead alive proxies next = if touch then rest ++ [p] else p :: rest := by
  obtain ⟨dead, behind, hrotate, hdead, halive, hrest⟩ := filter_eq_cons_iff.mp h
  have hlen := congrArg length hrotate
  rw [length_rotate, length_append, length_cons] at hlen
  have hget : ∀ i < proxies.length, proxies[(idx + i) % proxies.length]? = (dead ++ p :: behind)[i]? := by
    intro i hi
    rw [← hrotate, getElem?_rotate hi, Nat.add_comm]
  have hfind : ((range proxies.length).find? fun i => proxies[(idx + i) % proxies.length]?.any alive) =
      some dead.length := by
    rw [find?_range_eq_some]
    refine ⟨?_, mem_range.mpr (by omega), fun j hj => ?_⟩
    · rw [hget _ (by omega)]
      simpa using halive
    · rw [hget _ (by omega), getElem?_append_left hj]
      simpa [hj] using hdead _ (getElem_mem hj)
  unfold strategyRoundRobin
  dsimp only
  rw [hfind]
  dsimp only
  rw [hget _ (by omega), getElem?_append_right (Nat.le_refl _), Nat.sub_self]
  refine ⟨_, rfl, ?_⟩
  cases touch with
  | false => exact h
  | true =>
    have hsplit : dead ++ p :: behind = (dead ++ [p]) ++ behind := by simp
    have hdead' : (dead ++ [p]).length = dead.length + 1 := by simp
    rw [if_pos rfl, ahead, rotate_mod, ← rotate_rotate, hrotate, hsplit, ← hdead',
      rotate_append_length_eq, filter_append, filter_append, hrest, filter_eq_nil_iff.mpr hdead]
    simp [halive]

theorem roundRobin_ahead {idx : Nat} {touches : List Bool} (hne : ahead alive proxies idx ≠ [])
    (hcount : touches.count true ≤ (ahead alive proxies idx).length) :
    roundRobin alive proxies idx touches =
      some ((ahead alive proxies idx).take (touches.count true)) := by
  induction touches generalizing idx with
  | nil => rfl
  | cons touch touches ih =>
    obtain ⟨p, rest, hahead⟩ := exists_cons_of_ne_nil hne
    obtain ⟨idx', hstep, hnext⟩ := strategyRoundRobin_ahead touch hahead
    have hne' : ahead alive proxies idx' ≠ [] := by
      rw [hnext]
      split <;> simp
    rw [roundRobin, hstep]
    dsimp only [Option.bind_eq_bind, Option.bind_some]
    rw [hahead] at hcount ⊢
    cases touch with
    | false =>
      rw [ih hne' (by rwa [hnext]), hnext]
      rfl
    | true =>
      rw [if_pos rfl] at hnext
      rw [count_cons_self] at hcount ⊢
      have hle : touches.count true ≤ rest.length := Nat.le_of_succ_le_succ hcount
      rw [ih hne' (by rw [hnext, length_append]; omega), hnext, take_append_of_le_length hle]
      rfl

/-- The last part holds of every index, so after any calls on other lists. -/
theorem roundRobin_fair (proxies : List P) (alive : P → Bool) (hne : proxies.filter alive ≠ [])
    (idx : Nat) :
    (∀ touches, touches.count true = (proxies.filter alive).length →
      ∃ returned, roundRobin alive proxies idx touches = some returned ∧
        returned.Perm (proxies.filter alive)) ∧
    (∀ touch, ∃ p next, strategyRoundRobin alive idx proxies touch = some (p, next) ∧
      p ∈ proxies.filter alive) ∧
    ∀ alive' (proxies' : List P) touch, proxies' ≠ [] →
      ∃ p next, strategyRoundRobin alive' idx proxies' touch = some (p, next) ∧ p ∈ proxies' ∧
        (touch = true → next < proxies'.length) := by
  have hperm : (ahead alive proxies idx).Perm (proxies.filter alive) := (rotate_perm proxies idx).filter _
  have hne' : ahead alive proxies idx ≠ [] := fun h => hne (perm_nil.mp (h ▸ hperm.symm))
  refine ⟨fun touches hcount => ?_, fun touch => ?_, fun _ _ touch h => strategyRoundRobin_mem idx touch h⟩
  · refine ⟨_, roundRobin_ahead hne' (by rw [hcount, hperm.length_eq]), ?_⟩
    rwa [hcount, ← hperm.length_eq, take_length]
  · obtain ⟨p, rest, hahead⟩ := exists_cons_of_ne_nil hne'
    obtain ⟨next, hstep, -⟩ := strategyRoundRobin_ahead touch hahead
    exact ⟨p, next, hstep, hperm.subset (hahead ▸ mem_cons_self)⟩

theorem roundRobin_fair_sample : ∃ returned,
    roundRobin (· != 1) [0, 1, 2] 7 [true, false, true] = some returned ∧ returned.Perm [0, 2] :=
  (roundRobin_fair [0, 1, 2] (· != 1) (by decide) 7).1 [true, false, true] (by decide)

/-- Two proxies are alive, and the last two calls return one of them twice: the list has it twice. -/
theorem listed_twice : roundRobin (fun _ => true) [0, 1, 0] 0 [true, true, true, true] =
    some [0, 1, 0, 0] := by
  decide

end Mihomo.Group
