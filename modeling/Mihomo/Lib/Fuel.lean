import Mihomo.Lib.OneShot

/-!
# Computations with fuel

A recursive function without a bound on its depth is a family of computations, one for each amount
of fuel. It returns if from some amount on the fuel makes no difference.
-/

namespace Mihomo.Lib
open Lib.Comp

variable {σ ν α β : Type} {c : Nat → Comp σ ν α} {s : Cell σ ν}

def EndsIn (c : Nat → Comp σ ν α) (s : Cell σ ν) (a : α) (t : Cell σ ν) : Prop :=
  ∃ n, ∀ k, n ≤ k → c k s = (some a, t)

def Ends (c : Nat → Comp σ ν α) (s : Cell σ ν) : Prop := ∃ a t, EndsIn c s a t

theorem EndsIn.unique {a b : α} {t u : Cell σ ν} (ha : EndsIn c s a t) (hb : EndsIn c s b u) :
    a = b := by
  obtain ⟨n, hn⟩ := ha
  obtain ⟨m, hm⟩ := hb
  have heq := (hn (n + m) (by omega)).symm.trans (hm (n + m) (by omega))
  exact Option.some.inj (Prod.mk.inj heq).1

theorem ends_const {d : Comp σ ν α} (h : (d s).1.isSome = true) : Ends (fun _ => d) s := by
  obtain ⟨a, ha⟩ := Option.isSome_iff_exists.mp h
  exact ⟨a, (d s).2, 0, fun _ _ => Prod.ext ha rfl⟩

theorem ends_pure (a : α) (s : Cell σ ν) : Ends (fun _ => (pure a : Comp σ ν α)) s := ends_const rfl

theorem Ends.bind {f : Nat → α → Comp σ ν β} (hc : Ends c s)
    (hf : ∀ a t, EndsIn c s a t → Ends (fun n => f n a) t) : Ends (fun n => c n >>= f n) s := by
  obtain ⟨a, t, hct⟩ := hc
  obtain ⟨b, u, m, hm⟩ := hf a t hct
  obtain ⟨n, hn⟩ := hct
  refine ⟨b, u, n + m, fun k hk => ?_⟩
  change (c k >>= f k) s = (some b, u)
  rw [bind_apply, hn k (by omega)]
  exact hm k (by omega)

theorem Ends.ite {d : Nat → Comp σ ν α} (p : Prop) [Decidable p] (hc : Ends c s) (hd : Ends d s) :
    Ends (fun n => if p then c n else d n) s := by
  by_cases hp : p
  · simpa only [if_pos hp] using hc
  · simpa only [if_neg hp] using hd

theorem Ends.of_succ (h : Ends (fun n => c (n + 1)) s) : Ends c s := by
  obtain ⟨a, t, n, hn⟩ := h
  refine ⟨a, t, n + 1, fun k hk => ?_⟩
  obtain ⟨m, rfl⟩ : ∃ m, k = m + 1 := ⟨k - 1, by omega⟩
  exact hn m (by omega)

theorem Ends.isSome (h : Ends c s) : ∃ n, ∀ k, n ≤ k → (c k s).1.isSome = true := by
  obtain ⟨a, t, n, hn⟩ := h
  exact ⟨n, fun k hk => by rw [hn k hk]; rfl⟩

theorem ends_of_isSome (hmono : ∀ n, Extends (c n) (c (n + 1))) {n : Nat}
    (h : (c n s).1.isSome = true) : Ends c s := by
  obtain ⟨a, ha⟩ := Option.isSome_iff_exists.mp h
  refine ⟨a, (c n s).2, n, fun k hk => ?_⟩
  induction hk with
  | refl => exact Prod.ext ha rfl
  | step _ ih => exact hmono _ s a _ ih

def Tends (c : Nat → Comp σ ν α) (d : Comp σ ν α) : Prop := ∀ s a t, d s = (some a, t) → EndsIn c s a t

namespace Tends

variable {d : Comp σ ν α}

theorem const (d : Comp σ ν α) : Tends (fun _ => d) d := fun _ _ _ h => ⟨0, fun _ _ => h⟩

theorem bind {f : Nat → α → Comp σ ν β} {g : α → Comp σ ν β} (hc : Tends c d)
    (hf : ∀ a, Tends (fun n => f n a) (g a)) : Tends (fun n => c n >>= f n) (d >>= g) := by
  intro s b u h
  rw [bind_apply] at h
  rcases hds : d s with ⟨_ | a, t⟩
  · rw [hds] at h
    cases h
  · rw [hds] at h
    obtain ⟨n, hn⟩ := hc s a t hds
    obtain ⟨m, hm⟩ := hf a t b u h
    refine ⟨n + m, fun k hk => ?_⟩
    change (c k >>= f k) s = (some b, u)
    rw [bind_apply, hn k (by omega)]
    exact hm k (by omega)

theorem ite {c' : Nat → Comp σ ν α} {d' : Comp σ ν α} (p : Prop) [Decidable p] (hc : Tends c d)
    (hc' : Tends c' d') : Tends (fun n => if p then c n else c' n) (if p then d else d') := by
  by_cases hp : p
  · simpa only [if_pos hp] using hc
  · simpa only [if_neg hp] using hc'

theorem of_succ (h : Tends (fun n => c (n + 1)) d) : Tends c d := by
  intro s a t hd
  obtain ⟨n, hn⟩ := h s a t hd
  refine ⟨n + 1, fun k hk => ?_⟩
  obtain ⟨m, rfl⟩ : ∃ m, k = m + 1 := ⟨k - 1, by omega⟩
  exact hn m (by omega)

end Tends

end Mihomo.Lib
