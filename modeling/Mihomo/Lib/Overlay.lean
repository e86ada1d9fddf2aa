import Mathlib.Tactic.Common

/-!
# Reading a store through an overlay

An overlay holds, for some keys, the value a reader is to see in place of the stored one; `none` inside
it stands for an absent key. What readers see is kept, up to a relation on values, when the store
changes under the overlay, when the overlay is thinned out, and when the store is repaired from it.
-/

namespace Mihomo.Lib

universe u v
variable {K : Type u} {V : Type v}

/-- What a reader of the store `d` sees through the overlay `o`. -/
def through (o : K → Option (Option V)) (d : K → Option V) (k : K) : Option V := (o k).getD (d k)

variable {k : K} {o : K → Option (Option V)}

theorem through_some {v : Option V} (h : o k = some v) (d : K → Option V) : through o d k = v := by
  simp [through, h]

theorem through_none (h : o k = none) (d : K → Option V) : through o d k = d k := by
  simp [through, h]

theorem through_extend {o' : K → Option (Option V)} {d : K → Option V}
    (h : ∀ k, o' k = o k ∨ o k = none ∧ o' k = some (d k)) (k : K) :
    through o' d k = through o d k := by
  rcases h k with heq | ⟨hn, hs⟩
  · simp [through, heq]
  · rw [through_some hs, through_none hn]

section Same
variable {W : Type v} (norm : Option V → W) {d : K → Option V} {o : K → Option (Option V)}

theorem through_covered {d' : K → Option V}
    (h : ∀ k, o k = none → norm (d' k) = norm (d k)) (k : K) :
    norm (through o d' k) = norm (through o d k) := by
  cases hk : o k with
  | none => rw [through_none hk, through_none hk, h k hk]
  | some v => rw [through_some hk, through_some hk]

theorem through_thinned {o' : K → Option (Option V)}
    (h : ∀ k, o' k = o k ∨ o' k = none ∧ ∃ v, o k = some v ∧ norm (d k) = norm v) (k : K) :
    norm (through o' d k) = norm (through o d k) := by
  rcases h k with heq | ⟨hn, v, hs, hv⟩
  · simp [through, heq]
  · rw [through_none hn, through_some hs, hv]

theorem repaired_eq_through {r : K → Option V}
    (hin : ∀ k v, o k = some v → norm (r k) = norm v) (hout : ∀ k, o k = none → r k = d k) (k : K) :
    norm (r k) = norm (through o d k) := by
  cases hk : o k with
  | none => rw [through_none hk, hout k hk]
  | some v => rw [through_some hk, hin k v hk]

end Same

end Mihomo.Lib
