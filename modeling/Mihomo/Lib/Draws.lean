import Mathlib.Tactic.Common

/-!
# Computations that draw

A computation threads the state of a generator and may stop at a failure. `Yields` says that it
never does: from every state of the generator it gives a value with the property.
-/

namespace Mihomo.Lib

variable {ρ α β γ : Type}

/-- A computation with a generator whose states are `ρ`. -/
abbrev Draws (ρ α : Type) := StateT ρ Option α

def Yields (m : Draws ρ α) (Q : α → Prop) : Prop := ∀ r, ∃ a r', m r = some (a, r') ∧ Q a

variable {Q : α → Prop} {f : α → Draws ρ β} {m : Draws ρ α}

theorem Yields.pure {a : α} (h : Q a) : Yields (Pure.pure a : Draws ρ α) Q :=
  fun r => ⟨a, r, rfl, h⟩

theorem Yields.bind {R : β → Prop}
    (hm : Yields m Q) (hf : ∀ a, Q a → Yields (f a) R) : Yields (m >>= f) R := by
  intro r
  obtain ⟨a, r', hmr, ha⟩ := hm r
  obtain ⟨b, r'', hfr, hb⟩ := hf a ha r'
  refine ⟨b, r'', ?_, hb⟩
  change (m r).bind (fun p => f p.1 p.2) = _
  rw [hmr]
  exact hfr

theorem Yields.mono {R : α → Prop} (hm : Yields m Q) (h : ∀ a, Q a → R a) : Yields m R := by
  intro r
  obtain ⟨a, r', hmr, ha⟩ := hm r
  exact ⟨a, r', hmr, h a ha⟩

theorem yields_draw (next : ρ → α × ρ) : Yields (fun r => some (next r) : Draws ρ α) fun _ => True :=
  fun r => ⟨(next r).1, (next r).2, rfl, trivial⟩

theorem yields_get {l : List α} {i : Nat} (h : i < l.length) :
    Yields (StateT.lift l[i]? : Draws ρ α) (· ∈ l) := by
  intro r
  refine ⟨l[i], r, ?_, List.getElem_mem h⟩
  rw [List.getElem?_eq_getElem h]
  rfl

theorem yields_mapM {Q : β → α → Prop} (hf : ∀ a, Yields (f a) (Q · a))
    (as : List α) : Yields (as.mapM f) fun bs => List.Forall₂ Q bs as := by
  induction as with
  | nil =>
    exact .pure .nil
  | cons a as ih =>
    rw [List.mapM_cons]
    refine (hf a).bind fun b hb => ih.bind fun bs hbs => ?_
    exact .pure (.cons hb hbs)

end Mihomo.Lib
