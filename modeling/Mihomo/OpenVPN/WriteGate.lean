import Mathlib.Data.List.Basic
import Mathlib.Data.Nat.Basic
import Mihomo.Lib.Run

/-!
# The gate of the packet writers (transport/openvpn/mux.go, priorityWriteGate)

The calls of `acquire` are numbered, and the waiter of a call has its number. What a call does under the
mutex is one action, and so is its select; a call that is cancelled may have been granted meanwhile.
-/

namespace Mihomo.OpenVPN.WriteGate
open Lib List

inductive WriteWaiterState where
  | queued | granted | released
  deriving DecidableEq

/-- A caller without a waiter is `entered`, the others are in the select and then `holding`. -/
inductive Stage where
  | outside | entered | waiting | holding
  deriving DecidableEq

structure Call where
  stage : Stage := .outside
  state : WriteWaiterState := .queued
  /-- How often `ready` was closed. -/
  closes : Nat := 0
  deriving DecidableEq

structure Gate where
  active : Bool := false
  control : List Nat := []
  data : List Nat := []
  calls : Nat → Call := fun _ => {}

inductive Action where
  | acquire (w : Nat) (control : Bool)
  | ready (w : Nat)
  | abandon (w : Nat)
  | release (w : Nat)

namespace Gate

def set (g : Gate) (w : Nat) (c : Call) : Gate := { g with calls := Function.update g.calls w c }

def grant (g : Gate) (w : Nat) : Gate :=
  g.set w { g.calls w with state := .granted, closes := (g.calls w).closes + 1 }

def grantNextLocked (g : Gate) : Gate :=
  match g.control, g.data with
  | w :: rest, _ => grant { g with control := rest } w
  | [], w :: rest => grant { g with data := rest } w
  | [], [] => { g with active := false }

def leave (g : Gate) (w : Nat) : Gate := g.set w { g.calls w with stage := .outside, state := .released }

def acquire (g : Gate) (w : Nat) (control : Bool) : Except Unit Gate :=
  if g.calls w ≠ {} then .error ()
  else if g.active = false then .ok (set { g with active := true } w { stage := .entered })
  else if control then .ok (set { g with control := g.control ++ [w] } w { stage := .waiting })
  else .ok (set { g with data := g.data ++ [w] } w { stage := .waiting })

/-- The select of `acquire` finds `ready` closed. -/
def ready (g : Gate) (w : Nat) : Except Unit Gate :=
  match g.calls w with
  | ⟨.waiting, state, closes + 1⟩ => .ok (g.set w ⟨.holding, state, closes + 1⟩)
  | _ => .error ()

def abandon (g : Gate) (w : Nat) : Except Unit Gate :=
  match g.calls w with
  | ⟨.waiting, .queued, _⟩ => .ok (leave { g with control := g.control.erase w, data := g.data.erase w } w)
  | ⟨.waiting, .granted, _⟩ => .ok (g.leave w).grantNextLocked
  | ⟨.waiting, .released, _⟩ => .ok (g.leave w)
  | _ => .error ()

def release (g : Gate) (w : Nat) : Except Unit Gate :=
  match g.calls w with
  | ⟨.entered, _, _⟩ => .ok (g.leave w).grantNextLocked
  | ⟨.holding, .granted, _⟩ => .ok (g.leave w).grantNextLocked
  | ⟨.holding, _, _⟩ => .ok (g.leave w)
  | _ => .error ()

def step (g : Gate) : Action → Except Unit Gate
  | .acquire w control => g.acquire w control
  | .ready w => g.ready w
  | .abandon w => g.abandon w
  | .release w => g.release w

end Gate

/-- The call has the gate, noticed or not. -/
def Call.Holds (c : Call) : Prop :=
  match c.stage, c.state with
  | .entered, _ => True
  | .holding, _ => True
  | .waiting, .granted => True
  | _, _ => False

structure Gate.Safe (g : Gate) : Prop where
  one : ∀ v w, (g.calls v).Holds → (g.calls w).Holds → v = w
  free : g.active = false → (∀ w, ¬ (g.calls w).Holds) ∧ g.control = [] ∧ g.data = []
  held : g.active = true → ∃ w, (g.calls w).Holds
  once : ∀ w, (g.calls w).closes ≤ 1

/-- Only the oldest control waiter is granted, or without one the oldest data waiter. -/
def Gate.Prefers (g : Gate) (a : Action) : Prop :=
  ∀ t, g.step a = .ok t → ∀ w, (g.calls w).closes < (t.calls w).closes →
    (g.control ++ g.data).head? = some w

/-- A call agrees with its waiter, which is in a queue just while nobody has granted it. -/
inductive Call.Fits (q : Prop) : Call → Prop where
  | outside {state : WriteWaiterState} {closes : Nat} (hq : ¬ q) (h : closes ≤ 1) :
    Fits q ⟨.outside, state, closes⟩
  | entered (hq : ¬ q) : Fits q ⟨.entered, .queued, 0⟩
  | queued (hq : q) : Fits q ⟨.waiting, .queued, 0⟩
  | granted (hq : ¬ q) : Fits q ⟨.waiting, .granted, 1⟩
  | holding (hq : ¬ q) : Fits q ⟨.holding, .granted, 1⟩

/-- Nobody has the gate but `owner`. -/
structure Gate.Inv (owner : Option Nat) (g : Gate) : Prop where
  fits : ∀ w, (g.calls w).Fits (w ∈ g.control ++ g.data)
  nodup : (g.control ++ g.data).Nodup
  owner : ∀ w, (g.calls w).Holds ↔ owner = some w

def Gate.Good (g : Gate) : Prop :=
  ∃ owner, g.Inv owner ∧ g.active = owner.isSome ∧ (owner = none → g.control ++ g.data = [])

namespace Call.Fits

variable {c : Call} {q : Prop}

theorem closes_le (h : c.Fits q) : c.closes ≤ 1 := by
  cases h with
  | outside _ h => exact h
  | _ => decide

theorem eq_queued (h : c.Fits q) (hq : q) : c = ⟨.waiting, .queued, 0⟩ := by
  cases h with
  | queued => rfl
  | _ => contradiction

end Call.Fits

namespace Gate

variable {g t : Gate} {owner owner' : Option Nat} {v w : Nat} {control data : List Nat} {active : Bool}

theorem Inv.good (h : g.Inv (some w)) (hactive : g.active = true) : g.Good := ⟨some w, h, hactive, nofun⟩

section
variable (h : g.Inv owner)
include h

theorem Inv.not_mem (hw : g.calls w ≠ ⟨.waiting, .queued, 0⟩) : w ∉ g.control ++ g.data :=
  fun hmem => hw ((h.fits w).eq_queued hmem)

/-- One call and its place in the queues change; the gate may come to it or go from it. -/
theorem Inv.update {c : Call} (hfits : c.Fits (w ∈ control ++ data)) (hnodup : (control ++ data).Nodup)
    (hothers : ∀ v ≠ w, v ∈ control ++ data ↔ v ∈ g.control ++ g.data)
    (howner : ∀ v ≠ w, owner = some v ↔ owner' = some v) (hw : c.Holds ↔ owner' = some w) :
    (set ⟨active, control, data, g.calls⟩ w c).Inv owner' := by
  have hall : ∀ v, (Function.update g.calls w c v).Fits (v ∈ control ++ data) ∧
      ((Function.update g.calls w c v).Holds ↔ owner' = some v) := by
    intro v
    rcases eq_or_ne v w with rfl | hv
    · rw [Function.update_self]
      exact ⟨hfits, hw⟩
    · rw [Function.update_of_ne hv, hothers v hv]
      exact ⟨h.fits v, (h.owner v).trans (howner v hv)⟩
  exact ⟨fun v => (hall v).1, hnodup, fun v => (hall v).2⟩

theorem Inv.leave (hnodup : (control ++ data).Nodup)
    (hmem : ∀ v, v ∈ control ++ data ↔ v ∈ g.control ++ g.data ∧ v ≠ w)
    (howner : ∀ v ≠ w, owner = some v ↔ owner' = some v) (hw : owner' ≠ some w) :
    (Gate.leave { g with control, data } w).Inv owner' :=
  h.update (.outside (fun hw => ((hmem w).mp hw).2 rfl) (h.fits w).closes_le) hnodup
    (fun v hv => (hmem v).trans (and_iff_left hv)) howner (iff_of_false id hw)

theorem Inv.enqueue (hcall : g.calls w = {}) (hqueue : (control ++ data).Perm (w :: (g.control ++ g.data))) :
    (set { g with control, data } w { stage := .waiting }).Inv owner := by
  have hnot : w ∉ g.control ++ g.data := h.not_mem (by rw [hcall]; nofun)
  refine h.update (.queued (hqueue.mem_iff.mpr mem_cons_self))
    (hqueue.nodup_iff.mpr (nodup_cons.mpr ⟨hnot, h.nodup⟩))
    (fun v hv => hqueue.mem_iff.trans (mem_cons.trans (or_iff_right hv))) (fun _ _ => .rfl) ?_
  rw [← h.owner w, hcall]
  rfl

end

theorem Inv.grant (h : g.Inv none) (hqueue : g.control ++ g.data = w :: (control ++ data)) :
    (grant { g with control, data } w).Inv (some w) := by
  have hnodup := hqueue ▸ h.nodup
  have hcall : g.calls w = ⟨.waiting, .queued, 0⟩ := (h.fits w).eq_queued (by simp [hqueue])
  unfold Gate.grant
  simp only [hcall]
  refine h.update (.granted (nodup_cons.mp hnodup).1) hnodup.of_cons (fun v hv => ?_) (fun v hv => ?_) ?_
  · rw [hqueue, mem_cons, or_iff_right hv]
  · simp [hv.symm]
  · simp [Call.Holds]

theorem good_grantNextLocked (h : g.Inv none) (hactive : g.active = true) : g.grantNextLocked.Good := by
  unfold grantNextLocked
  split
  case h_1 w rest hcontrol => exact (h.grant (by rw [hcontrol]; rfl)).good hactive
  case h_2 w rest hcontrol hdata =>
    have hqueue : g.control ++ g.data = w :: (g.control ++ rest) := by rw [hcontrol, hdata]; rfl
    exact (h.grant hqueue).good hactive
  case h_3 hcontrol hdata => exact ⟨none, { h with }, rfl, fun _ => by rw [hcontrol, hdata]; rfl⟩

theorem Good.pass (h : g.Good) (hw : (g.calls w).Holds) : (g.leave w).grantNextLocked.Good := by
  obtain ⟨owner, hinv, hactive, -⟩ := h
  obtain rfl : owner = some w := (hinv.owner w).mp hw
  have hnot : w ∉ g.control ++ g.data := hinv.not_mem fun hcall => by simp [hcall, Call.Holds] at hw
  have hleft : (g.leave w).Inv none :=
    hinv.leave hinv.nodup (fun v => ⟨fun hv => ⟨hv, fun heq => hnot (heq ▸ hv)⟩, And.left⟩)
      (fun v hv => by simp [hv.symm]) nofun
  exact good_grantNextLocked hleft hactive

theorem closes_set {c : Call} (hc : c.closes ≤ (g.calls w).closes) :
    ((set ⟨active, control, data, g.calls⟩ w c).calls v).closes ≤ (g.calls v).closes := by
  change (Function.update g.calls w c v).closes ≤ _
  rcases eq_or_ne v w with rfl | hv
  · rwa [Function.update_self]
  · rw [Function.update_of_ne hv]

theorem closes_leave :
    ((leave ⟨active, control, data, g.calls⟩ w).calls v).closes ≤ (g.calls v).closes :=
  closes_set (le_refl (g.calls w).closes)

theorem eq_of_closes_grant (hlt : (g.calls v).closes < ((g.grant w).calls v).closes) : v = w := by
  by_contra hv
  change _ < (Function.update g.calls w _ v).closes at hlt
  rw [Function.update_of_ne hv] at hlt
  omega

theorem head_of_closes_grantNextLocked
    (hlt : (g.calls v).closes < (g.grantNextLocked.calls v).closes) :
    (g.control ++ g.data).head? = some v := by
  unfold grantNextLocked at hlt
  split at hlt
  case h_1 hcontrol => rw [eq_of_closes_grant hlt, hcontrol]; rfl
  case h_2 hcontrol hdata => rw [eq_of_closes_grant hlt, hcontrol, hdata]; rfl
  case h_3 => exact absurd hlt (lt_irrefl _)

/-- A waiter that gives up before it is granted is in one queue, and only there. -/
theorem Inv.remove (h : g.Inv owner) (hw : ¬ (g.calls w).Holds) :
    (Gate.leave { g with control := g.control.erase w, data := g.data.erase w } w).Inv owner := by
  have hnodup := nodup_append.mp h.nodup
  refine h.leave (h.nodup.sublist (erase_sublist.append erase_sublist)) (fun v => ?_) (fun _ _ => .rfl)
    (fun howner => hw ((h.owner w).mpr howner))
  rw [mem_append, hnodup.1.mem_erase_iff, hnodup.2.1.mem_erase_iff, mem_append]
  tauto

/-- A step passes the gate on, or it grants nobody. -/
def Moves (g t : Gate) : Prop :=
  (∃ w, (g.calls w).Holds ∧ (g.leave w).grantNextLocked = t) ∨
    t.Good ∧ ∀ v, (t.calls v).closes ≤ (g.calls v).closes

theorem moves_acquire {c : Bool} (h : g.Good) (hstep : g.acquire w c = .ok t) : g.Moves t := by
  obtain ⟨owner, hinv, hactive, hfree⟩ := h
  obtain ⟨hcall, hstep⟩ := of_else hstep nofun
  rw [not_not] at hcall
  split_ifs at hstep with hoff hcontrol <;> obtain rfl := Except.ok.inj hstep
  all_goals refine .inr ⟨?_, fun v => closes_set (Nat.zero_le _)⟩
  · obtain rfl : owner = none := by simpa [hoff] using hactive.symm
    refine Inv.good (w := w) (hinv.update (.entered ?_) hinv.nodup (fun _ _ => .rfl) (fun v hv => ?_) ?_) rfl
    · exact hinv.not_mem (by rw [hcall]; nofun)
    · simp [hv.symm]
    · simp [Call.Holds]
  · exact ⟨owner, hinv.enqueue hcall (by simp), hactive, fun hnone => by simp [hnone, hoff] at hactive⟩
  · refine ⟨owner, hinv.enqueue hcall ?_, hactive, fun hnone => by simp [hnone, hoff] at hactive⟩
    rw [← append_assoc]
    exact perm_append_comm

theorem moves_ready (h : g.Good) (hstep : g.ready w = .ok t) : g.Moves t := by
  obtain ⟨owner, hinv, hactive, -⟩ := h
  have hfits := hinv.fits w
  have howner := hinv.owner w
  unfold ready at hstep
  split at hstep
  case h_2 => cases hstep
  case h_1 hcall =>
    obtain rfl := Except.ok.inj hstep
    refine .inr ⟨?_, fun v => closes_set (by rw [hcall])⟩
    rw [hcall] at hfits howner
    cases hfits with
    | granted hq =>
      obtain rfl := howner.mp trivial
      exact Inv.good (hinv.update (.holding hq) hinv.nodup (fun _ _ => .rfl) (fun _ _ => .rfl)
        (by simp [Call.Holds])) hactive

theorem moves_abandon (h : g.Good) (hstep : g.abandon w = .ok t) : g.Moves t := by
  obtain ⟨owner, hinv, hactive, hfree⟩ := h
  unfold abandon at hstep
  split at hstep
  case h_1 hcall =>
    obtain rfl := Except.ok.inj hstep
    have hw : ¬ (g.calls w).Holds := by simp [hcall, Call.Holds]
    refine .inr ⟨⟨owner, hinv.remove hw, hactive, fun hnone => ?_⟩, fun v => closes_leave⟩
    obtain ⟨hcontrol, hdata⟩ := append_eq_nil_iff.mp (hfree hnone)
    rw [hcontrol, hdata]
    rfl
  case h_2 hcall => exact .inl ⟨w, by simp [hcall, Call.Holds], Except.ok.inj hstep⟩
  case h_3 hcall => cases hcall ▸ hinv.fits w
  case h_4 => cases hstep

theorem moves_release (h : g.Good) (hstep : g.release w = .ok t) : g.Moves t := by
  unfold release at hstep
  split at hstep
  case h_3 hne hcall =>
    obtain ⟨owner, hinv, -⟩ := h
    cases hcall ▸ hinv.fits w
    exact (hne rfl).elim
  case h_4 => cases hstep
  all_goals exact .inl ⟨w, by simp [*, Call.Holds], Except.ok.inj hstep⟩

theorem moves_step {a : Action} (h : g.Good) (hstep : g.step a = .ok t) : g.Moves t := by
  cases a with
  | acquire w control => exact moves_acquire h hstep
  | ready w => exact moves_ready h hstep
  | abandon w => exact moves_abandon h hstep
  | release w => exact moves_release h hstep

theorem good_step {a : Action} (h : g.Good) (hstep : g.step a = .ok t) : t.Good := by
  rcases moves_step h hstep with ⟨w, hw, rfl⟩ | hquiet
  · exact h.pass hw
  · exact hquiet.1

theorem prefers (a : Action) (h : g.Good) : g.Prefers a := by
  intro t hstep v hlt
  rcases moves_step h hstep with ⟨w, -, rfl⟩ | hquiet
  · exact head_of_closes_grantNextLocked (g := g.leave w) (lt_of_le_of_lt closes_leave hlt)
  · exact absurd hlt (hquiet.2 v).not_gt

theorem Good.safe (h : g.Good) : g.Safe := by
  obtain ⟨owner, hinv, hactive, hfree⟩ := h
  refine ⟨fun v w hv hw => ?_, fun hoff => ?_, fun hon => ?_, fun w => (hinv.fits w).closes_le⟩
  · have hv' := (hinv.owner v).mp hv
    exact Option.some.inj (hv'.symm.trans ((hinv.owner w).mp hw))
  · obtain rfl : owner = none := by simpa [hoff] using hactive.symm
    exact ⟨fun w hw => (nomatch (hinv.owner w).mp hw), append_eq_nil_iff.mp (hfree rfl)⟩
  · obtain ⟨w, rfl⟩ := Option.isSome_iff_exists.mp (hactive.symm.trans hon)
    exact ⟨w, (hinv.owner w).mpr rfl⟩

theorem good_init : Good {} := by
  refine ⟨none, ⟨fun w => ?_, ?_, fun w => ?_⟩, rfl, fun _ => rfl⟩
  · exact .outside (by simp) (Nat.zero_le 1)
  · exact nodup_nil
  · exact iff_of_false id nofun

/-- In every interleaving one call at most has the gate, no waiter is queued at a free gate or granted
twice, and the gate is passed to the oldest control waiter before any data waiter. -/
theorem gate_safe (as : List Action) : Always step Safe {} as ∧ Along step Prefers {} as :=
  ⟨always_of_invariant Good good_step Good.safe good_init as, along_of_invariant good_step prefers good_init as⟩

/-! ### Waiters are served -/

def Handover (_ : Gate) (a : Action) : Prop := ∃ v, a = .ready v ∨ a = .release v

theorem Good.handover {rest : List Nat} (h : g.Good) (hqueue : g.control ++ g.data = w :: rest) :
    ∃ t, Reaches step Handover g t ∧ t.Good ∧ t.control ++ t.data = rest ∧ (t.calls w).Holds := by
  have ⟨owner, hinv, _, hfree⟩ := h
  have howner : owner ≠ none := fun hnone => by simp [hfree hnone] at hqueue
  obtain ⟨v, rfl⟩ := Option.ne_none_iff_exists'.mp howner
  have hv := (hinv.owner v).mpr rfl
  have hw := (hinv.fits w).eq_queued (by simp [hqueue])
  have hne : w ≠ v := by
    rintro rfl
    simp [hw, Call.Holds] at hv
  refine ⟨(g.leave v).grantNextLocked, ?_, h.pass hv, ?_⟩
  · have hfits := hinv.fits v
    generalize hc : g.calls v = c at hfits hv
    cases hfits with
    | outside | queued => exact hv.elim
    | entered | holding =>
      refine .cons (a := .release v) ?_ ⟨v, .inr rfl⟩ (.refl _)
      simp only [step, release, hc]
    | granted =>
      refine .cons (a := .ready v) (t := g.set v ⟨.holding, .granted, 1⟩) ?_ ⟨v, .inl rfl⟩ ?_
      · simp only [step, ready, hc]
      · refine .cons (a := .release v) ?_ ⟨v, .inr rfl⟩ (.refl _)
        simp [step, release, set, leave, hc]
  · unfold grantNextLocked Call.Holds
    split <;> simp_all [grant, set, leave]

theorem Good.served (before after : List Nat) (h : g.Good)
    (hqueue : g.control ++ g.data = before ++ w :: after) :
    ∃ t, Reaches step Handover g t ∧ (t.calls w).Holds := by
  induction before generalizing g with
  | nil =>
    obtain ⟨t, ht, -, -, hw⟩ := h.handover hqueue
    exact ⟨t, ht, hw⟩
  | cons u before ih =>
    obtain ⟨t, ht, hgood, hrest, -⟩ := h.handover hqueue
    obtain ⟨t', ht', hw⟩ := ih hgood hrest
    exact ⟨t', ht.trans ht', hw⟩

/-- Whatever has happened, a queued waiter is served when those that have the gate notice it and
release it, one after the other. -/
theorem waiter_served {as : List Action} (hrun : exec step {} as = .ok g)
    (hw : w ∈ g.control ++ g.data) : ∃ t, Reaches step Handover g t ∧ (t.calls w).Holds := by
  obtain ⟨before, after, hqueue⟩ := append_of_mem hw
  have hgood : Always step Good {} as := always_of_invariant Good good_step id good_init as
  exact (hgood.last hrun).served before after hqueue

theorem waiter_served_last : ∃ g t, exec step {} [.acquire 0 true, .acquire 1 false] = .ok g ∧
    Reaches step Handover g t ∧ (t.calls 1).Holds := by
  have hrun : exec step {} [.acquire 0 true, .acquire 1 false] = .ok _ := rfl
  obtain ⟨t, ht⟩ := waiter_served (w := 1) hrun (by decide)
  exact ⟨_, t, hrun, ht⟩

end Gate

end Mihomo.OpenVPN.WriteGate
