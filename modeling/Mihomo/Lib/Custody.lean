import Mathlib.Data.List.Perm.Subperm
import Mathlib.Tactic.Common

/-!
# Things in custody

A component is given things one by one and drops each of them at some time. A thing that is kept holds
one of a number of slots, which it gives back when it is dropped. `Books` logs what happened. `Balanced
b free held` says that what was given is with the callers (`free`, without a slot), in one of the
component's places (`held`, with a slot), or dropped, and in one of them only.
-/

namespace Mihomo.Lib
open List

universe u
variable {α : Type u}

structure Books (α : Type u) where
  given : List α := []
  slotted : List α := []
  dropped : List α := []
  released : List α := []
  slots : Nat := 0

namespace Books
variable (b : Books α) (x : α)

def give : Books α := { b with given := x :: b.given }

def reject : Books α := { b with dropped := x :: b.dropped }

def slot : Books α := { b with slotted := x :: b.slotted, slots := b.slots + 1 }

def drop [DecidableEq α] : Books α :=
  if x ∈ b.released then b
  else { b with dropped := x :: b.dropped, released := x :: b.released, slots := b.slots - 1 }

end Books

structure Balanced (b : Books α) (free held : List α) : Prop where
  once : b.given.Nodup
  placed : (free ++ held ++ b.dropped).Perm b.given
  slotted : (held ++ b.released).Perm b.slotted
  released : b.released.Subperm b.dropped
  slots : b.slots + b.released.length = b.slotted.length

namespace Balanced
variable {b : Books α} {free free' held held' : List α} {x : α}

theorem start : Balanced ({} : Books α) [] [] where
  once := nodup_nil
  placed := .nil
  slotted := .nil
  released := .refl _
  slots := rfl

theorem congr (h : Balanced b free held) (hfree : free.Perm free') (hheld : held.Perm held') :
    Balanced b free' held' where
  once := h.once
  placed := ((hfree.symm.append hheld.symm).append_right _).trans h.placed
  slotted := (hheld.symm.append_right _).trans h.slotted
  released := h.released
  slots := h.slots

theorem give (h : Balanced b free held) (hx : x ∉ b.given) : Balanced (b.give x) (x :: free) held where
  once := nodup_cons.mpr ⟨hx, h.once⟩
  placed := h.placed.cons x
  slotted := h.slotted
  released := h.released
  slots := h.slots

theorem reject (h : Balanced b (x :: free) held) : Balanced (b.reject x) free held where
  once := h.once
  placed := perm_middle.trans h.placed
  slotted := h.slotted
  released := h.released.trans (sublist_cons_self x _).subperm
  slots := h.slots

theorem slot (h : Balanced b (x :: free) held) : Balanced (b.slot x) free (x :: held) where
  once := h.once
  placed := by
    refine List.Perm.trans ?_ h.placed
    rw [append_assoc, append_assoc]
    exact perm_middle
  slotted := h.slotted.cons x
  released := h.released
  slots := (Nat.succ_add _ _).trans (congrArg (· + 1) h.slots)

section
variable (h : Balanced b free held)
include h

theorem nodup : (free ++ held ++ b.dropped).Nodup :=
  h.placed.nodup_iff.mpr h.once

theorem dropped_nodup : b.dropped.Nodup :=
  (sublist_append_right _ _).nodup h.nodup

theorem released_nodup : b.released.Nodup := by
  obtain ⟨dropped, hperm, hsub⟩ := h.released
  exact hperm.nodup_iff.mp (hsub.nodup h.dropped_nodup)

theorem not_released (hx : x ∈ held) : x ∉ b.released := by
  intro hreleased
  have hnodup := h.nodup
  rw [append_assoc] at hnodup
  exact (nodup_append.mp (nodup_append.mp hnodup).2.1).2.2 x hx x
    (h.released.subset hreleased) rfl

theorem held_length : held.length = b.slots := by
  have hlength := h.slotted.length_eq
  rw [length_append] at hlength
  have hslots := h.slots
  omega

end

theorem drop [DecidableEq α] (h : Balanced b free (x :: held)) : Balanced (b.drop x) free held := by
  have heq : b.drop x = { b with
      dropped := x :: b.dropped
      released := x :: b.released
      slots := b.slots - 1 } := if_neg (h.not_released mem_cons_self)
  rw [heq]
  constructor
  · exact h.once
  · exact (perm_middle.trans (perm_middle.symm.append_right _)).trans h.placed
  · exact perm_middle.trans h.slotted
  · exact (subperm_cons x).mpr h.released
  · have hlength := h.held_length
    have hslots := h.slots
    rw [length_cons] at hlength ⊢
    show b.slots - 1 + (b.released.length + 1) = b.slotted.length
    omega

theorem settled (h : Balanced b free []) :
    b.slots = 0 ∧ b.released.Perm b.slotted ∧ (free ++ b.dropped).Perm b.given := by
  refine ⟨h.held_length.symm, h.slotted, ?_⟩
  have hplaced := h.placed
  rwa [append_nil] at hplaced

end Balanced

end Mihomo.Lib
