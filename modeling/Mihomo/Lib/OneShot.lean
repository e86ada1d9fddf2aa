import Mathlib.Tactic.Common

/-!
# Computations with a one-shot lookup

A computation over a `Cell` works on a mutable part `rest` and may ask for a value that is looked up at
most once: the first question fills `value` and clears `pending`, later ones only read it. `Lazy c d`
says that `c` cannot be told from `d` started with the value that the lookup of `c` produced.
`Preserves` is the rule for invariants of the cell, and `Extends` compares runs with different fuel.

`none` as a result stands for a computation that ran out of fuel.
-/

namespace Mihomo.Lib

structure Cell (σ ν : Type) where
  rest : σ
  value : ν
  pending : Bool

def Comp (σ ν α : Type) := Cell σ ν → Option α × Cell σ ν

namespace Comp

variable {σ ν α β : Type}

protected def pure (a : α) : Comp σ ν α := fun s => (some a, s)

protected def bind (c : Comp σ ν α) (f : α → Comp σ ν β) : Comp σ ν β := fun s =>
  match c s with
  | (some a, t) => f a t
  | (none, t) => (none, t)

instance : Monad (Comp σ ν) where
  pure := Comp.pure
  bind := Comp.bind

def stuck : Comp σ ν α := fun s => (none, s)

def act (f : σ → α × σ) : Comp σ ν α := fun s => (some (f s.rest).1, { s with rest := (f s.rest).2 })

def read : Comp σ ν ν := fun s => (some s.value, s)

def ask (look : σ → ν → ν) : Comp σ ν ν := fun s =>
  if s.pending then
    (some (look s.rest s.value), { s with value := look s.rest s.value, pending := false })
  else (some s.value, s)

theorem bind_apply (c : Comp σ ν α) (f : α → Comp σ ν β) (s : Cell σ ν) :
    (c >>= f) s = match c s with | (some a, t) => f a t | (none, t) => (none, t) := rfl

variable {s : Cell σ ν} {c : Comp σ ν α} {a : α}

theorem bind_stuck (h : (c s).1 = none) (f : α → Comp σ ν β) : ((c >>= f) s).1 = none := by
  rw [bind_apply]
  rcases hcs : c s with ⟨_ | a, t⟩
  · rfl
  · rw [hcs] at h
    cases h

@[simp] theorem act_apply (f : σ → α × σ) (s : Cell σ ν) :
    act f s = (some (f s.rest).1, { s with rest := (f s.rest).2 }) := rfl

theorem ask_answered (look : σ → ν → ν) (hs : s.pending = false) :
    ask look s = (some s.value, s) := by
  simp [ask, hs]

theorem ask_pending (look : σ → ν → ν) (hs : s.pending = true) :
    ask look s =
      (some (look s.rest s.value),
        { s with value := look s.rest s.value, pending := false }) := by
  simp [ask, hs]

def Output (c : Comp σ ν α) (a : α) : Prop := ∃ s, (c s).1 = some a

theorem output_pure {b : α} (h : Output (pure a : Comp σ ν α) b) : b = a := by
  obtain ⟨s, hs⟩ := h
  exact (Option.some.inj hs).symm

theorem output_bind {f : α → Comp σ ν β} {b : β} (h : Output (c >>= f) b) :
    ∃ a, Output c a ∧ Output (f a) b := by
  obtain ⟨s, hs⟩ := h
  rw [bind_apply] at hs
  rcases hcs : c s with ⟨_ | a, t⟩
  · rw [hcs] at hs
    cases hs
  · rw [hcs] at hs
    exact ⟨a, ⟨s, by rw [hcs]⟩, t, hs⟩

theorem output_act {f : σ → α × σ} (h : Output (act f : Comp σ ν α) a) : ∃ r, a = (f r).1 := by
  obtain ⟨s, hs⟩ := h
  exact ⟨s.rest, (Option.some.inj hs).symm⟩

end Comp

open Lib.Comp

variable {σ ν α β : Type}

def Cell.Settled (x : ν) (s : Cell σ ν) : Prop := s.pending = true ∨ s.value = x

def Cell.Agrees (x : ν) (s s' : Cell σ ν) : Prop := s'.rest = s.rest ∧ s'.value = x ∧ s.Settled x

/-- An answered question stays answered, and up to an answer `x` the computation `c` does
what `d` does with `x` in place. -/
structure Lazy (c d : Comp σ ν α) : Prop where
  keeps : ∀ s, s.pending = false → (c s).2.pending = false ∧ (c s).2.value = s.value
  sim : ∀ x s s', s.Agrees x s' → (c s).2.Settled x →
    (d s').1 = (c s).1 ∧ (c s).2.Agrees x (d s').2

namespace Lazy

protected theorem pure (a : α) : Lazy (pure a : Comp σ ν α) (pure a) where
  keeps _ hs := ⟨hs, rfl⟩
  sim _ _ _ h _ := ⟨rfl, h⟩

protected theorem stuck : Lazy (stuck : Comp σ ν α) stuck where
  keeps _ hs := ⟨hs, rfl⟩
  sim _ _ _ h _ := ⟨rfl, h⟩

protected theorem act (f : σ → α × σ) : Lazy (act f : Comp σ ν α) (act f) where
  keeps _ hs := ⟨hs, rfl⟩
  sim x s s' h _ := by
    obtain ⟨hrest, hvalue, hset⟩ := h
    rw [act_apply, act_apply, hrest]
    exact ⟨rfl, rfl, hvalue, hset⟩

protected theorem ask (look : σ → ν → ν) : Lazy (ask look : Comp σ ν ν) read where
  keeps s hs := by
    rw [ask_answered look hs]
    exact ⟨hs, rfl⟩
  sim x s s' h hset := by
    obtain ⟨hrest, hvalue, hs⟩ := h
    cases hp : s.pending with
    | true =>
      rw [ask_pending look hp] at hset ⊢
      have hx : look s.rest s.value = x := hset.resolve_left (by simp)
      exact ⟨congrArg some (hvalue.trans hx.symm), hrest, hvalue, hset⟩
    | false =>
      have hx : s.value = x := hs.resolve_left (by simp [hp])
      rw [ask_answered look hp]
      exact ⟨congrArg some (hvalue.trans hx.symm), hrest, hvalue, hs⟩

variable {s : Cell σ ν} {x : ν} {c d : Comp σ ν α}

theorem settled_of_final (h : Lazy c d) (hx : (c s).2.Settled x) : s.Settled x := by
  cases hp : s.pending with
  | true => exact .inl hp
  | false =>
    obtain ⟨hk, hv⟩ := h.keeps s hp
    exact .inr (hv.symm.trans (hx.resolve_left (by simp [hk])))

protected theorem bind {f g : α → Comp σ ν β} (hc : Lazy c d)
    (hf : ∀ a, Output c a → Lazy (f a) (g a)) : Lazy (c >>= f) (d >>= g) where
  keeps s hs := by
    have hk := hc.keeps s hs
    rw [bind_apply]
    rcases hcs : c s with ⟨_ | a, t⟩
    · rw [hcs] at hk
      exact hk
    · rw [hcs] at hk
      obtain ⟨hp, hv⟩ := (hf a ⟨s, by rw [hcs]⟩).keeps t hk.1
      exact ⟨hp, hv.trans hk.2⟩
  sim x s s' h hset := by
    rw [bind_apply] at hset ⊢
    rw [bind_apply]
    -- the answer of the whole run is the answer of its first part
    have hmid : (c s).2.Settled x := by
      rcases hcs : c s with ⟨_ | a, t⟩
      · rw [hcs] at hset
        exact hset
      · rw [hcs] at hset
        exact (hf a ⟨s, by rw [hcs]⟩).settled_of_final hset
    obtain ⟨hres, hagr⟩ := hc.sim x s s' h hmid
    rcases hcs : c s with ⟨_ | a, t⟩ <;> rcases hds : d s' with ⟨_ | b, t'⟩ <;>
      rw [hcs, hds] at hres hagr <;> rw [hcs] at hset <;> cases hres
    · exact ⟨rfl, hagr⟩
    · exact (hf a ⟨s, by rw [hcs]⟩).sim x t t' hagr hset

/-- A run whose question was not asked, or was answered by `x`, gives the result of the
run that starts with `x` in place. -/
theorem result_eq (h : Lazy c d) (hx : (c s).2.Settled x) : (c s).1 = (d { s with value := x }).1 :=
  (h.sim x s { s with value := x } ⟨rfl, rfl, h.settled_of_final hx⟩ hx).1.symm

end Lazy

def Preserves (I : Cell σ ν → Prop) (c : Comp σ ν α) : Prop := ∀ s, I s → I (c s).2

variable {f : α → Comp σ ν β} {c : Comp σ ν α}

theorem Preserves.bind {I : Cell σ ν → Prop}
    (hc : Preserves I c) (hf : ∀ a, Output c a → Preserves I (f a)) : Preserves I (c >>= f) := by
  intro s hs
  have ht := hc s hs
  rw [bind_apply]
  rcases hcs : c s with ⟨_ | a, t⟩
  · rw [hcs] at ht
    exact ht
  · rw [hcs] at ht
    exact hf a ⟨s, by rw [hcs]⟩ t ht

def Extends (c d : Comp σ ν α) : Prop := ∀ s a t, c s = (some a, t) → d s = (some a, t)

theorem Extends.bind {d : Comp σ ν α} {g : α → Comp σ ν β} (hc : Extends c d)
    (hf : ∀ a, Output c a → Extends (f a) (g a)) : Extends (c >>= f) (d >>= g) := by
  intro s b u h
  rw [bind_apply] at h ⊢
  rcases hcs : c s with ⟨_ | a, t⟩
  · rw [hcs] at h
    cases h
  · rw [hcs] at h
    rw [hc s a t hcs]
    exact hf a ⟨s, by rw [hcs]⟩ t b u h

end Mihomo.Lib
