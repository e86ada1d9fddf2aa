import Mathlib.Data.List.AList
import Mihomo.Lib.Serial

/-!
# A reorder buffer

Items that came early are kept under the serial numbers of their positions, until the positions
before them have come. `R i b` says that `b` is a copy of the item at position `i`.
-/

namespace Mihomo.Lib
open AList

universe u
variable {β : Type u}

def Ahead (R : Nat → β → Prop) (n w : Nat) (cache : AList fun _ : UInt32 => β) : Prop :=
  ∀ k b, cache.lookup k = some b → ∃ i, n ≤ i ∧ i < n + w ∧ k = UInt32.ofNat i ∧ R i b

variable {R R' : Nat → β → Prop} {n w : Nat} {cache : AList fun _ : UInt32 => β}

theorem ahead_empty : Ahead R n w ∅ := by
  intro k b hb
  cases hb

section
variable (h : Ahead R n w cache)
include h

theorem Ahead.imp (himp : ∀ i b, R i b → R' i b) : Ahead R' n w cache := by
  intro k b hb
  obtain ⟨i, hle, hlt, hk, hR⟩ := h k b hb
  exact ⟨i, hle, hlt, hk, himp i b hR⟩

theorem Ahead.at_position (hw : w ≤ 2 ^ 32) {i : Nat} (hle : n ≤ i)
    (hlt : i < n + w) {b : β} (hb : cache.lookup (UInt32.ofNat i) = some b) : R i b := by
  obtain ⟨j, hle', hlt', hk, hR⟩ := h _ b hb
  have hij : i = j := by
    rw [← UInt32.toNat_inj, UInt32.toNat_ofNat', UInt32.toNat_ofNat'] at hk
    omega
  exact hij ▸ hR

theorem Ahead.erase : Ahead R (n + 1) w (cache.erase (UInt32.ofNat n)) := by
  intro k b hb
  have hne : k ≠ .ofNat n := by
    intro heq
    rw [heq, lookup_erase] at hb
    cases hb
  rw [lookup_erase_ne hne] at hb
  obtain ⟨i, hle, hlt, hk, hR⟩ := h k b hb
  have hin : i ≠ n := fun heq => hne (heq ▸ hk)
  exact ⟨i, by omega, by omega, hk, hR⟩

theorem Ahead.insert {i : Nat} (hle : n ≤ i) (hlt : i < n + w) {b : β}
    (hR : R i b) : Ahead R n w (cache.insert (UInt32.ofNat i) b) := by
  intro k b' hb'
  by_cases hk : k = .ofNat i
  · rw [hk, lookup_insert, Option.some.injEq] at hb'
    exact ⟨i, hle, hlt, hk, hb' ▸ hR⟩
  · rw [lookup_insert_ne hk] at hb'
    exact h k b' hb'

end

theorem length_entries_erase {k : UInt32} {b : β} (hb : cache.lookup k = some b) :
    (cache.erase k).entries.length + 1 = cache.entries.length := by
  have hmem : k ∈ cache := lookup_isSome.mp (by rw [hb]; rfl)
  have hkeys : (cache.erase k).keys.length + 1 = cache.keys.length := by
    rw [keys_erase, List.length_erase_of_mem hmem]
    exact Nat.succ_pred_eq_of_pos (List.length_pos_of_mem hmem)
  have hlength : ∀ cache : AList fun _ : UInt32 => β, cache.keys.length = cache.entries.length :=
    fun cache => List.length_map Sigma.fst
  rw [hlength, hlength] at hkeys
  exact hkeys

end Mihomo.Lib
