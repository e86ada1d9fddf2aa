import Mathlib.Tactic.Common

/-!
# Transducers

A decoder reads one symbol at a time, gives some output for it and may fail. `feed` is what it does
with a list of symbols. How the list is cut into pieces makes no difference, and the output for the
first symbols is the start of the output for all of them.
-/

namespace Mihomo.Lib

variable {σ α β : Type} {step : σ → α → Option (σ × List β)} {s t u : σ}

def feed (step : σ → α → Option (σ × List β)) : σ → List α → Option (σ × List β)
  | s, [] => some (s, [])
  | s, a :: as =>
    match step s a with
    | none => none
    | some (t, bs) => (feed step t as).map fun r => (r.1, bs ++ r.2)

@[simp] theorem feed_nil : feed step s [] = some (s, []) := rfl

variable {bs : List β} {as cs : List α}

theorem feed_cons {a : α} (h : step s a = some (t, bs)) :
    feed step s (a :: as) = (feed step t as).map fun r => (r.1, bs ++ r.2) := by
  rw [feed, h]

theorem feed_append (as cs : List α) : feed step s (as ++ cs) =
    (feed step s as).bind fun r => (feed step r.1 cs).map fun q => (q.1, r.2 ++ q.2) := by
  induction as generalizing s with
  | nil => simp
  | cons a as ih =>
    rw [List.cons_append, feed, feed]
    cases step s a with
    | none => rfl
    | some r =>
      obtain ⟨t, bs⟩ := r
      dsimp only
      rw [ih]
      cases feed step t as with
      | none => rfl
      | some r => simp [Function.comp_def]

theorem feed_trans {ds : List β} (h : feed step s as = some (t, bs))
    (h' : feed step t cs = some (u, ds)) : feed step s (as ++ cs) = some (u, bs ++ ds) := by
  rw [feed_append, h, Option.bind_some, h']
  rfl

theorem exists_of_feed_append
    (h : feed step s (as ++ cs) = some (u, bs)) :
    ∃ t b₁ b₂, feed step s as = some (t, b₁) ∧ feed step t cs = some (u, b₂) ∧ bs = b₁ ++ b₂ := by
  rw [feed_append] at h
  obtain ⟨⟨t, b₁⟩, h₁, h⟩ := Option.bind_eq_some_iff.mp h
  obtain ⟨⟨v, b₂⟩, h₂, h⟩ := Option.map_eq_some_iff.mp h
  obtain ⟨rfl, rfl⟩ := Prod.mk.inj h
  exact ⟨t, b₁, b₂, h₁, h₂, rfl⟩

theorem feed_of_skip (h : ∀ a ∈ as, step s a = some (s, [])) : feed step s as = some (s, []) := by
  induction as with
  | nil => rfl
  | cons a as ih =>
    rw [feed_cons (h a List.mem_cons_self), ih fun b hb => h b (List.mem_cons_of_mem a hb)]
    rfl

theorem feed_flatten {γ : Type} {blocks : List (List α)} {words : List γ} {f : γ → List β}
    (h : List.Forall₂ (fun block w => feed step s block = some (s, f w)) blocks words) :
    feed step s blocks.flatten = some (s, words.flatMap f) := by
  induction h with
  | nil => rfl
  | cons hblock _ ih =>
    exact feed_trans hblock ih

end Mihomo.Lib
