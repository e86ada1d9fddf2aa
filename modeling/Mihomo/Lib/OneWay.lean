import Mihomo.Lib.OneShot

/-!
# Computations that may learn something

Some answers do not change: they are fetched when first asked for and kept. `key` is what the results
of computations depend on, and `learn` fetches an answer that matters to them. A computation of the
class `OneWay` returns, depends on the key only, and leaves the key or learns. What has been learned
stays, so that from there on no computation of the class changes the key.
-/

namespace Mihomo.Lib
open Lib.Comp

structure Learning (σ ν κ : Type) where
  key : Cell σ ν → κ
  learn : Cell σ ν → Cell σ ν
  learn_congr : ∀ {s t}, key s = key t → key (learn s) = key (learn t)
  learn_learn : ∀ s, key (learn (learn s)) = key (learn s)

variable {σ ν κ α β : Type}

def Learning.Moves (K : Learning σ ν κ) (may : Bool) (s t : Cell σ ν) : Prop :=
  K.key t = K.key s ∨ may = true ∧ K.key t = K.key (K.learn s)

structure OneWay (K : Learning σ ν κ) (may : Bool) (c : Comp σ ν α) : Prop where
  returns : ∀ s, (c s).1.isSome = true
  congr : ∀ {s t}, K.key s = K.key t → (c s).1 = (c t).1 ∧ K.key (c s).2 = K.key (c t).2
  moves : ∀ s, K.Moves may s (c s).2

variable {K : Learning σ ν κ} {may : Bool} {c d : Comp σ ν α} {f : α → Comp σ ν β} {s t u : Cell σ ν}

theorem bind_of_eq {a : α} (h : c s = (some a, t)) (f : α → Comp σ ν β) : (c >>= f) s = f a t := by
  rw [bind_apply, h]

namespace Learning.Moves

theorem refl (s : Cell σ ν) : K.Moves may s s := .inl rfl

theorem trans (hst : K.Moves may s t) (htu : K.Moves may t u) : K.Moves may s u := by
  rcases hst with hst | ⟨hmay, hst⟩
  · rwa [Learning.Moves, hst, K.learn_congr hst] at htu
  · have hu : K.key u = K.key (K.learn s) := by
      rcases htu with htu | ⟨_, htu⟩
      · exact htu.trans hst
      · rw [htu, K.learn_congr hst, K.learn_learn]
    exact .inr ⟨hmay, hu⟩

theorem eq_of_learned (hst : K.Moves may s t) (hs : K.key s = K.key (K.learn u)) :
    K.key t = K.key s := by
  rcases hst with hst | ⟨_, hst⟩
  · exact hst
  · rw [hst, K.learn_congr hs, K.learn_learn, hs]

end Learning.Moves

namespace OneWay

section
variable (h : OneWay K may c)
include h

theorem returned (s : Cell σ ν) : ∃ a t, c s = (some a, t) := by
  obtain ⟨a, ha⟩ := Option.isSome_iff_exists.mp (h.returns s)
  exact ⟨a, (c s).2, Prod.ext ha rfl⟩

theorem moved {a : α} (hs : c s = (some a, t)) : K.Moves may s t := by
  have hmoves := h.moves s
  rwa [hs] at hmoves

theorem of_key {a : α} (hs : c s = (some a, t)) (hu : K.key u = K.key s) :
    ∃ w, c u = (some a, w) ∧ K.key w = K.key t := by
  obtain ⟨hresult, hkey⟩ := h.congr hu
  rw [hs] at hresult hkey
  exact ⟨(c u).2, Prod.ext hresult rfl, hkey⟩

theorem key_again {a b : α} (hs : c s = (some a, t)) (ht : c t = (some b, u)) :
    K.key u = K.key t := by
  rcases h.moved hs with hkey | ⟨_, hkey⟩
  · obtain ⟨w, hw, hwt⟩ := h.of_key hs hkey
    rw [hw] at ht
    cases ht
    exact hwt
  · exact (h.moved ht).eq_of_learned hkey

theorem weaken {may' : Bool} (hmay : may = true → may' = true) : OneWay K may' c :=
  ⟨h.returns, h.congr, fun s => (h.moves s).imp_right fun hs => ⟨hmay hs.1, hs.2⟩⟩

end

theorem pure (a : α) : OneWay K may (pure a : Comp σ ν α) :=
  ⟨fun _ => rfl, fun h => ⟨rfl, h⟩, fun s => .refl s⟩

theorem bind (hc : OneWay K may c) (hf : ∀ a, OneWay K may (f a)) : OneWay K may (c >>= f) := by
  refine ⟨fun s => ?_, fun {s t} hst => ?_, fun s => ?_⟩
  · obtain ⟨a, u, hu⟩ := hc.returned s
    rw [bind_of_eq hu]
    exact (hf a).returns u
  · obtain ⟨a, u, hu⟩ := hc.returned s
    obtain ⟨w, hw, huw⟩ := hc.of_key hu hst.symm
    rw [bind_of_eq hu, bind_of_eq hw]
    exact (hf a).congr huw.symm
  · obtain ⟨a, u, hu⟩ := hc.returned s
    rw [bind_of_eq hu]
    exact (hc.moved hu).trans ((hf a).moves u)

theorem ite {p : Prop} [Decidable p] (hc : OneWay K may c) (hd : OneWay K may d) :
    OneWay K may (if p then c else d) := by
  split
  · exact hc
  · exact hd

end OneWay

end Mihomo.Lib
