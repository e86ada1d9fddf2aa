import Mathlib.Algebra.GroupWithZero.Nat
import Mathlib.Tactic.Common

/-!
# Finite runs of a fallible step function

A component is a step function `σ → α → Except ε σ`: an operation either yields the next state or stops
the run with a failure. `Along` is a condition on every operation and the state it starts in, and
`Always` one on every state reached.
-/

namespace Mihomo.Lib

universe u v w
variable {σ : Type u} {α : Type v} {ε : Type w}

def exec (step : σ → α → Except ε σ) : σ → List α → Except ε σ
  | s, [] => .ok s
  | s, a :: as =>
    match step s a with
    | .ok t => exec step t as
    | .error e => .error e

def Along (step : σ → α → Except ε σ) (ok : σ → α → Prop) : σ → List α → Prop
  | _, [] => True
  | s, a :: as => ok s a ∧ ∀ t, step s a = .ok t → Along step ok t as

def Always (step : σ → α → Except ε σ) (P : σ → Prop) : σ → List α → Prop
  | s, [] => P s
  | s, a :: as => P s ∧ ∀ t, step s a = .ok t → Always step P t as

/-! What a guard said, from the result of what it guards. -/

theorem of_then {p : Prop} [Decidable p] {x y z : α} (h : (if p then x else y) = z) (hne : y ≠ z) :
    p ∧ x = z := by
  by_cases hp : p
  · exact ⟨hp, by rwa [if_pos hp] at h⟩
  · exact absurd (by rwa [if_neg hp] at h) hne

theorem of_else {p : Prop} [Decidable p] {x y z : α} (h : (if p then x else y) = z) (hne : x ≠ z) :
    ¬ p ∧ y = z := by
  by_cases hp : p
  · exact absurd (by rwa [if_pos hp] at h) hne
  · exact ⟨hp, by rwa [if_neg hp] at h⟩

variable {step : σ → α → Except ε σ}
  {as : List α} {s t u : σ} {P Inv : σ → Prop} {ok ok' : σ → α → Prop}

theorem Always.head (h : Always step P s as) : P s := by
  cases as with
  | nil => exact h
  | cons a as => exact h.1

theorem Always.mono {Q : σ → Prop} (hPQ : ∀ {s}, P s → Q s)
    (h : Always step P s as) : Always step Q s as := by
  induction as generalizing s with
  | nil => exact hPQ h
  | cons a as ih => exact ⟨hPQ h.1, fun t ht => ih (h.2 t ht)⟩

theorem along_of_forall (h : ∀ s a, ok s a) (s : σ) (as : List α) : Along step ok s as := by
  induction as generalizing s with
  | nil => trivial
  | cons a as ih => exact ⟨h s a, fun t _ => ih t⟩

theorem along_of_mem (h : ∀ a ∈ as, ∀ s, ok s a) (s : σ) : Along step ok s as := by
  induction as generalizing s with
  | nil => trivial
  | cons a as ih =>
    rw [List.forall_mem_cons] at h
    exact ⟨h.1 s, fun t _ => ih h.2 t⟩

/-- An invariant that operations meeting `ok` keep, and that implies `P`, makes `P`
hold in every state of a run of such operations. -/
theorem always_of_along (hstep : ∀ {s a t}, Inv s → ok s a → step s a = .ok t → Inv t)
    (hP : ∀ {s}, Inv s → P s) (hs : Inv s) (as : List α) (hok : Along step ok s as) :
    Always step P s as := by
  induction as generalizing s with
  | nil => exact hP hs
  | cons a as ih => exact ⟨hP hs, fun t ht => ih (hstep hs hok.1 ht) (hok.2 t ht)⟩

/-- If, under an invariant, `e` is raised exactly by the operations that miss
`ok`, then a run raises `e` exactly when one of its operations misses `ok`. -/
theorem exec_ne_error_iff_along {e : ε} (hstep : ∀ {s a t}, Inv s → step s a = .ok t → Inv t)
    (hraise : ∀ {s a}, Inv s → (step s a = .error e ↔ ¬ ok s a)) (hs : Inv s) (as : List α) :
    exec step s as ≠ .error e ↔ Along step ok s as := by
  induction as generalizing s with
  | nil => simp [exec, Along]
  | cons a as ih =>
    have hr := hraise (a := a) hs
    cases hsa : step s a with
    | error e' =>
      have hok : e' ≠ e ↔ ok s a := by
        rw [hsa, Except.error.injEq] at hr
        exact not_iff_comm.mp hr.symm
      simpa [exec, Along, hsa] using hok
    | ok t =>
      have hok : ok s a := by
        by_contra hn
        have he := hr.mpr hn
        rw [hsa] at he
        cases he
      simp only [exec, Along, hsa, Except.ok.injEq, forall_eq', hok, true_and]
      exact ih (hstep hs hsa)

theorem always_of_invariant (Inv : σ → Prop) (hstep : ∀ {s a t}, Inv s → step s a = .ok t → Inv t)
    (hP : ∀ {s}, Inv s → P s) (hs : Inv s) (as : List α) : Always step P s as :=
  always_of_along (fun h _ => hstep h) hP hs as (along_of_forall (fun _ _ => trivial) s as)

/-- What an invariant and `ok` imply for an operation holds along every run of operations
that meet `ok`. -/
theorem along_of_along (hstep : ∀ {s a t}, Inv s → ok s a → step s a = .ok t → Inv t)
    (hok : ∀ {s a}, Inv s → ok s a → ok' s a) (hs : Inv s) (as : List α)
    (has : Along step ok s as) : Along step ok' s as := by
  induction as generalizing s with
  | nil => trivial
  | cons a as ih => exact ⟨hok hs has.1, fun t ht => ih (hstep hs has.1 ht) (has.2 t ht)⟩

theorem along_of_invariant (hstep : ∀ {s a t}, Inv s → step s a = .ok t → Inv t)
    (hok : ∀ {s} a, Inv s → ok s a) (hs : Inv s) (as : List α) : Along step ok s as :=
  along_of_along (fun h _ => hstep h) (fun h _ => hok _ h) hs as
    (along_of_forall (fun _ _ => trivial) s as)

theorem along_cons {a : α} (ht : step s a = .ok t)
    (hok : ok s a) (has : Along step ok t as) : Along step ok s (a :: as) := by
  refine ⟨hok, fun t' ht' => ?_⟩
  rw [ht] at ht'
  cases ht'
  exact has

theorem Along.mono (h : Along step ok s as)
    (himp : ∀ {s a}, ok s a → ok' s a) : Along step ok' s as := by
  induction as generalizing s with
  | nil => trivial
  | cons a as ih => exact ⟨himp h.1, fun t ht => ih (h.2 t ht)⟩

theorem Along.and (h : Along step ok s as)
    (h' : Along step ok' s as) : Along step (fun s a => ok s a ∧ ok' s a) s as := by
  induction as generalizing s with
  | nil => trivial
  | cons a as ih => exact ⟨⟨h.1, h'.1⟩, fun t ht => ih (h.2 t ht) (h'.2 t ht)⟩

theorem Always.along (h : Always step P s as) (hok : Along step ok s as)
    (himp : ∀ {s a}, P s → ok s a → ok' s a) : Along step ok' s as := by
  induction as generalizing s with
  | nil => trivial
  | cons a as ih => exact ⟨himp h.1 hok.1, fun t ht => ih (h.2 t ht) (hok.2 t ht)⟩

theorem along_congr (Inv : σ → Prop) (hstep : ∀ {s a t}, Inv s → step s a = .ok t → Inv t)
    (hok : ∀ {s a}, Inv s → (ok s a ↔ ok' s a)) (hs : Inv s) (as : List α) :
    Along step ok s as ↔ Along step ok' s as := by
  constructor
  · exact along_of_along (fun h _ => hstep h) (fun h => (hok h).mp) hs as
  · exact along_of_along (fun h _ => hstep h) (fun h => (hok h).mpr) hs as

instance decidableAlong {ok : σ → α → Prop} [∀ s a, Decidable (ok s a)] :
    ∀ s as, Decidable (Along step ok s as)
  | _, [] => isTrue trivial
  | s, a :: as =>
    match hsa : step s a with
    | .ok t =>
      have : Decidable (Along step ok t as) := decidableAlong t as
      decidable_of_iff (ok s a ∧ Along step ok t as)
        ⟨fun h => along_cons hsa h.1 h.2, fun h => ⟨h.1, h.2 t hsa⟩⟩
    | .error e =>
      decidable_of_iff (ok s a)
        ⟨fun h => ⟨h, fun t ht => by rw [hsa] at ht; cases ht⟩, fun h => h.1⟩

def Reaches (step : σ → α → Except ε σ) (ok : σ → α → Prop) (s t : σ) : Prop :=
  ∃ as, Along step ok s as ∧ exec step s as = .ok t

theorem Reaches.refl (s : σ) : Reaches step ok s s := ⟨[], trivial, rfl⟩

theorem Reaches.cons {a : α} (ht : step s a = .ok t) (hok : ok s a)
    (hu : Reaches step ok t u) : Reaches step ok s u := by
  obtain ⟨as, has, hexec⟩ := hu
  refine ⟨a :: as, along_cons ht hok has, ?_⟩
  rw [exec, ht]
  exact hexec

theorem Reaches.trans (h : Reaches step ok s t)
    (h' : Reaches step ok t u) : Reaches step ok s u := by
  obtain ⟨as, has, hexec⟩ := h
  induction as generalizing s with
  | nil =>
    cases hexec
    exact h'
  | cons a as ih =>
    cases hsa : step s a with
    | error e => simp [exec, hsa] at hexec
    | ok s' =>
      rw [exec, hsa] at hexec
      exact .cons hsa has.1 (ih (has.2 s' hsa) hexec)

theorem Always.last (h : Always step P s as) (hexec : exec step s as = .ok t) : P t := by
  induction as generalizing s with
  | nil =>
    cases hexec
    exact h
  | cons a as ih =>
    cases hsa : step s a with
    | error e => simp [exec, hsa] at hexec
    | ok s' =>
      rw [exec, hsa] at hexec
      exact ih (h.2 s' hsa) hexec

theorem exec_ne_error (Inv : σ → Prop) {e : ε}
    (hstep : ∀ {s a t}, Inv s → step s a = .ok t → Inv t)
    (hne : ∀ {s a}, Inv s → step s a ≠ .error e) (hs : Inv s) (as : List α) :
    exec step s as ≠ .error e := by
  have hraise : ∀ {s a}, Inv s → (step s a = .error e ↔ ¬ True) := fun h =>
    iff_of_false (hne h) (not_not.mpr trivial)
  exact (exec_ne_error_iff_along hstep hraise hs as).mpr (along_of_forall (fun _ _ => trivial) s as)

/-- If, under an invariant, an operation keeps `P` exactly when it meets `ok`,
then `P` holds throughout a completed run exactly when every operation meets `ok`. -/
theorem always_iff_along (hstep : ∀ {s a t}, Inv s → step s a = .ok t → Inv t)
    (hkeep : ∀ {s a t}, Inv s → P s → step s a = .ok t → (P t ↔ ok s a)) (hs : Inv s) (hp : P s)
    (as : List α) (hrun : exec step s as = .ok u) : Always step P s as ↔ Along step ok s as := by
  induction as generalizing s with
  | nil => simpa [Always, Along] using hp
  | cons a as ih =>
    cases hsa : step s a with
    | error e => simp [exec, hsa] at hrun
    | ok t =>
      have hk := hkeep hs hp hsa
      simp only [exec, hsa] at hrun
      simp only [Always, Along, hsa, Except.ok.injEq, forall_eq', hp, true_and]
      constructor
      · intro h
        exact ⟨hk.mp h.head, (ih (hstep hs hsa) h.head hrun).mp h⟩
      · intro h
        have ht := hk.mpr h.1
        exact (ih (hstep hs hsa) ht hrun).mpr h.2

/-- Amortised cost: if each operation is paid by the potential and by the credit it brings, so is a run. -/
theorem exec_potential {Φ : σ → ℕ} {cost credit : α → ℕ}
    (hstep : ∀ {s a t}, step s a = .ok t → cost a + Φ t ≤ Φ s + credit a)
    (hrun : exec step s as = .ok t) : (as.map cost).sum + Φ t ≤ Φ s + (as.map credit).sum := by
  induction as generalizing s with
  | nil =>
    cases hrun
    simp
  | cons a as ih =>
    cases hsa : step s a with
    | error e => simp [exec, hsa] at hrun
    | ok u =>
      rw [exec, hsa] at hrun
      have hhead := hstep hsa
      have htail := ih hrun
      simp only [List.map_cons, List.sum_cons]
      omega

/-- A loop with a counter: either every round is good and keeps the invariant, or a round is bad and
what it breaks stays broken. -/
theorem exec_dichotomy {I : ℕ → σ → Prop} {B : σ → Prop} {ok : ℕ → Prop} {k : ℕ}
    (hstep : ∀ {j a s t}, as[j]? = some a → I (k + j) s → step s a = .ok t →
      ok (k + j) ∧ I (k + j + 1) t ∨ ¬ ok (k + j) ∧ B t)
    (hbroken : ∀ {a s t}, B s → step s a = .ok t → B t) (hs : I k s) (hrun : exec step s as = .ok t) :
    (∀ j < as.length, ok (k + j)) ∧ I (k + as.length) t ∨ (∃ j < as.length, ¬ ok (k + j)) ∧ B t := by
  induction as generalizing s k with
  | nil =>
    cases hrun
    exact .inl ⟨fun j hj => absurd hj (Nat.not_lt_zero j), hs⟩
  | cons a as ih =>
    cases hsa : step s a with
    | error e => simp [exec, hsa] at hrun
    | ok u =>
      rw [exec, hsa] at hrun
      have hlength : k + (a :: as).length = k + 1 + as.length := by rw [List.length_cons]; omega
      rcases hstep (j := 0) rfl hs hsa with ⟨hok, hu⟩ | ⟨hbad, hu⟩
      · have htail : ∀ {j b s t}, as[j]? = some b → I (k + 1 + j) s → step s b = .ok t →
            ok (k + 1 + j) ∧ I (k + 1 + j + 1) t ∨ ¬ ok (k + 1 + j) ∧ B t := by
          intro j b s t hb
          have h := hstep (j := j + 1) (s := s) (t := t) hb
          rwa [show k + (j + 1) = k + 1 + j by omega] at h
        rw [hlength]
        rcases ih htail hu hrun with ⟨hall, ht⟩ | ⟨⟨j, hj, hbad⟩, ht⟩
        · refine .inl ⟨fun j hj => ?_, ht⟩
          cases j with
          | zero => exact hok
          | succ j =>
            rw [show k + (j + 1) = k + 1 + j by omega]
            exact hall j (by simpa using hj)
        · refine .inr ⟨⟨j + 1, by simpa using hj, ?_⟩, ht⟩
          rwa [show k + (j + 1) = k + 1 + j by omega]
      · exact .inr ⟨⟨0, by simp, hbad⟩, (always_of_invariant B hbroken (fun h => h) hu as).last hrun⟩

end Mihomo.Lib
