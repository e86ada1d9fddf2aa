import Mihomo.Lib.Run

/-!
# Goroutines over a shared state

A goroutine is the list of the critical sections that it still has to run. A section works on the
shared state in one step; it may put further sections in front of what its goroutine had left and start
other goroutines. It has no effect while it has to wait, and what is decided outside of the program is
its choice. A move of the pool runs the first section of some goroutine, or a call starts a new
goroutine.
-/

namespace Mihomo.Lib
open List

universe u v w x

structure Pool (σ : Type u) (τ : Type v) where
  shared : σ
  running : List (List τ)

structure Effect (σ : Type u) (τ : Type v) where
  shared : σ
  next : List τ := []
  started : List (List τ) := []

inductive Move (χ : Type w) (κ : Type x) where
  | run (i : Nat) (choice : χ)
  | call (c : κ)

structure Program (σ : Type u) (τ : Type v) (χ : Type w) (κ : Type x) where
  /-- `none` while the section has to wait. -/
  effect : σ → τ → χ → Option (Effect σ τ)
  /-- What a call runs, if it can be made. -/
  entry : σ → κ → Option (List τ)

variable {σ : Type u} {τ : Type v} {χ : Type w} {κ : Type x}

namespace Program

def step (P : Program σ τ χ κ) (p : Pool σ τ) : Move χ κ → Except Unit (Pool σ τ)
  | .run i choice =>
    match p.running[i]? with
    | some (sec :: rest) =>
      match P.effect p.shared sec choice with
      | some e => .ok ⟨e.shared, p.running.set i (e.next ++ rest) ++ e.started⟩
      | none => .error ()
    | _ => .error ()
  | .call c =>
    match P.entry p.shared c with
    | some g => .ok ⟨p.shared, p.running ++ [g]⟩
    | none => .error ()

def current (p : Pool σ τ) : Move χ κ → Option τ
  | .run i _ => (p.running[i]?).bind head?
  | .call _ => none

def Meets (cond : σ → τ → Prop) (p : Pool σ τ) (m : Move χ κ) : Prop :=
  ∀ sec ∈ current p m, cond p.shared sec

variable {P : Program σ τ χ κ} {p q : Pool σ τ} {m : Move χ κ}

theorem step_cases (h : P.step p m = .ok q) :
    (∃ before sec rest after choice e, current p m = some sec ∧
      p.running = before ++ (sec :: rest) :: after ∧ P.effect p.shared sec choice = some e ∧
      q = ⟨e.shared, before ++ (e.next ++ rest) :: (after ++ e.started)⟩) ∨
    (∃ c g, P.entry p.shared c = some g ∧ q = ⟨p.shared, p.running ++ [g]⟩) := by
  revert h
  fun_cases step P p m
  all_goals
    intro h
    cases h
  case case1 i choice sec rest hi e he =>
    obtain ⟨hlt, hget⟩ := List.getElem?_eq_some_iff.mp hi
    have hsplit : p.running = p.running.take i ++ (sec :: rest) :: p.running.drop (i + 1) := by
      rw [← hget, getElem_cons_drop, take_append_drop]
    refine .inl ⟨p.running.take i, sec, rest, p.running.drop (i + 1), choice, e, ?_, hsplit, he, ?_⟩
    · rw [current, hi]
      rfl
    · rw [set_eq_take_append_cons_drop, if_pos hlt, append_assoc]
      rfl
  case case4 c g hg => exact .inr ⟨c, g, hg, rfl⟩

end Program

def Pool.Left (p : Pool σ τ) (sec : τ) : Prop := ∃ g ∈ p.running, sec ∈ g

section Left
variable {p : Pool σ τ} {before after started : List (List τ)} {sec t : τ} {rest next : List τ} {s : σ}

theorem Pool.Left.run (h : p.Left t) (hp : p.running = before ++ (sec :: rest) :: after) :
    t = sec ∨ Pool.Left ⟨s, before ++ (next ++ rest) :: (after ++ started)⟩ t := by
  obtain ⟨g, hg, ht⟩ := h
  rw [hp, mem_append, mem_cons] at hg
  rcases hg with hg | rfl | hg
  · exact .inr ⟨g, mem_append_left _ hg, ht⟩
  · rcases mem_cons.mp ht with rfl | ht
    · exact .inl rfl
    · exact .inr ⟨next ++ rest, mem_append_right _ mem_cons_self, mem_append_right _ ht⟩
  · refine .inr ⟨g, mem_append_right _ (mem_cons_of_mem _ ?_), ht⟩
    exact mem_append_left _ hg

theorem Pool.left_next (h : t ∈ next) :
    Pool.Left ⟨s, before ++ (next ++ rest) :: (after ++ started)⟩ t :=
  ⟨next ++ rest, mem_append_right _ mem_cons_self, mem_append_left _ h⟩

theorem Pool.Left.call (h : p.Left t) (g : List τ) : Pool.Left ⟨p.shared, p.running ++ [g]⟩ t := by
  obtain ⟨g', hg', ht⟩ := h
  exact ⟨g', mem_append_left _ hg', ht⟩

end Left

open Program

/-! ### Invariants -/

section
variable {P : Program σ τ χ κ} {cond : σ → τ → Prop}

instance [∀ s sec, Decidable (cond s sec)] (p : Pool σ τ) (m : Move χ κ) :
    Decidable (Meets cond p m) := by
  unfold Meets
  infer_instance

theorem always_pool {I : Pool σ τ → Prop}
    (hrun : ∀ {p before sec rest after choice e}, I p → p.running = before ++ (sec :: rest) :: after →
      cond p.shared sec → P.effect p.shared sec choice = some e →
        I ⟨e.shared, before ++ (e.next ++ rest) :: (after ++ e.started)⟩)
    (hcall : ∀ {p c g}, I p → P.entry p.shared c = some g → I ⟨p.shared, p.running ++ [g]⟩)
    {p : Pool σ τ} (hp : I p) (moves : List (Move χ κ))
    (hmoves : Along P.step (Meets cond) p moves) : Always P.step I p moves := by
  have hstep : ∀ {q : Pool σ τ} {m : Move χ κ} {t : Pool σ τ}, I q → Meets cond q m →
      P.step q m = .ok t → I t := by
    intro q m t hq hm ht
    rcases step_cases ht with ⟨before, sec, rest, after, choice, e, hsec, heq, he, rfl⟩ |
      ⟨c, g, hg, rfl⟩
    · exact hrun hq heq (hm sec hsec) he
    · exact hcall hq hg
  exact always_of_along hstep (fun h => h) hp moves hmoves

theorem always_shared {I : σ → Prop}
    (hrun : ∀ {s sec choice e}, I s → cond s sec → P.effect s sec choice = some e → I e.shared)
    {p : Pool σ τ} (hp : I p.shared) (moves : List (Move χ κ))
    (hmoves : Along P.step (Meets cond) p moves) : Always P.step (fun q => I q.shared) p moves := by
  exact always_pool (I := fun q => I q.shared) (fun hq _ hcond he => hrun hq hcond he)
    (fun hq _ => hq) hp moves hmoves

end

end Mihomo.Lib
