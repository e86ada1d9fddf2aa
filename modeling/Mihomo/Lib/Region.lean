import Mathlib.Tactic.Common

/-!
# What a computation on a heap may write

A heap is a list of cells, addressed by their position. `refs c` are the addresses that a cell holds. A
region is a set of addresses with all those not yet in use, from whose cells no reference leads out of
it.

`Keeps A W m Q` is a triple for a computation that may fail: it works on references within the region
`A`, writes only to addresses in `W`, also when it fails, and has a result with `Q`. `Keeps.of_own` is
the rule for one that writes to what it has allocated itself.
-/

namespace Mihomo.Lib
open List

universe u
variable {κ ε α β : Type u}

structure Frame (W : Nat → Prop) (h h' : List κ) : Prop where
  grows : h.length ≤ h'.length
  same : ∀ r, ¬ W r → h'[r]? = h[r]?

namespace Frame

variable {W V : Nat → Prop} {h h' h'' : List κ}

theorem refl (h : List κ) : Frame W h h := ⟨Nat.le_refl _, fun _ _ => rfl⟩

theorem trans (hf : Frame W h h') (hg : Frame W h' h'') : Frame W h h'' :=
  ⟨Nat.le_trans hf.grows hg.grows, fun r hr => (hg.same r hr).trans (hf.same r hr)⟩

theorem mono (hf : Frame W h h') (hsub : ∀ r, W r → V r) : Frame V h h' :=
  ⟨hf.grows, fun r hr => hf.same r fun hw => hr (hsub r hw)⟩

theorem append (hfresh : ∀ r, h.length ≤ r → W r) (ext : List κ) : Frame W h (h ++ ext) := by
  refine ⟨by simp, fun r hr => ?_⟩
  have hlt : r < h.length := Nat.lt_of_not_le fun hle => hr (hfresh r hle)
  exact getElem?_append_left hlt

theorem set {r : Nat} (hr : W r) (c : κ) : Frame W h (h.set r c) := by
  refine ⟨by simp, fun s hs => ?_⟩
  have hne : r ≠ s := by
    rintro rfl
    exact hs hr
  exact getElem?_set_ne hne

theorem isPrefix (hf : Frame (h.length ≤ ·) h h') : h <+: h' := by
  rw [prefix_iff_eq_take]
  apply ext_getElem?
  intro r
  by_cases hr : r < h.length
  · rw [getElem?_take_of_lt hr]
    exact (hf.same r (Nat.not_le.mpr hr)).symm
  · rw [getElem?_eq_none (by omega), getElem?_eq_none]
    simp only [length_take]
    omega

end Frame

variable (refs : κ → List Nat)

structure Region (A : Nat → Prop) (h : List κ) : Prop where
  fresh : ∀ r, h.length ≤ r → A r
  closed : ∀ r c, A r → h[r]? = some c → ∀ s ∈ refs c, A s

namespace Region

variable {refs} {A : Nat → Prop} {h : List κ}

theorem unused (h : List κ) : Region refs (h.length ≤ ·) h := by
  refine ⟨fun r hr => hr, fun r c hr hc => ?_⟩
  rw [getElem?_eq_none hr] at hc
  cases hc

variable {c : κ}

theorem append (hreg : Region refs A h) (hc : ∀ s ∈ refs c, A s) : Region refs A (h ++ [c]) := by
  refine ⟨fun r hr => hreg.fresh r ?_, fun r d hr hd => ?_⟩
  · exact Nat.le_trans (by simp) hr
  · by_cases hlt : r < h.length
    · rw [getElem?_append_left hlt] at hd
      exact hreg.closed r d hr hd
    · rw [getElem?_append_right (by omega)] at hd
      have hmem := mem_of_getElem? hd
      rw [mem_singleton] at hmem
      subst hmem
      exact hc

theorem set (hreg : Region refs A h) (hc : ∀ s ∈ refs c, A s) (r : Nat) :
    Region refs A (h.set r c) := by
  refine ⟨fun s hs => hreg.fresh s ?_, fun s d hs hd => ?_⟩
  · rwa [length_set] at hs
  · rw [getElem?_set] at hd
    split at hd
    · split at hd
      · cases hd
        exact hc
      · cases hd
    · exact hreg.closed s d hs hd

end Region

/-! ### Triples -/

def Keeps (A W : Nat → Prop) (m : EStateM ε (List κ) α) (Q : α → Prop) : Prop :=
  ∀ h, Region refs A h → (∀ r, h.length ≤ r → W r) →
    match m h with
    | .ok a h' => Frame W h h' ∧ Region refs A h' ∧ Q a
    | .error _ h' => Frame W h h'

variable {refs} {A W : Nat → Prop} {m : EStateM ε (List κ) α} {Q R : α → Prop}

namespace Keeps

variable {a : α} {f : α → EStateM ε (List κ) β} {bs : List β}

theorem pure (ha : Q a) : Keeps refs A W (Pure.pure a : EStateM ε (List κ) α) Q := by
  intro h hreg _
  exact ⟨.refl h, hreg, ha⟩

theorem throw (e : ε) : Keeps refs A W (MonadExcept.throw e : EStateM ε (List κ) α) Q := by
  intro h _ _
  exact .refl h

theorem mono (hm : Keeps refs A W m Q) (hsub : ∀ a, Q a → R a) : Keeps refs A W m R := by
  intro h hreg hW
  have hrun := hm h hreg hW
  revert hrun
  cases m h with
  | ok a h' => exact fun hrun => ⟨hrun.1, hrun.2.1, hsub a hrun.2.2⟩
  | error e h' => exact id

theorem bind {R : β → Prop} (hm : Keeps refs A W m Q)
    (hf : ∀ a, Q a → Keeps refs A W (f a) R) : Keeps refs A W (m >>= f) R := by
  intro h hreg hW
  have hrun := hm h hreg hW
  show match EStateM.bind m f h with
    | .ok a h' => Frame W h h' ∧ Region refs A h' ∧ R a
    | .error _ h' => Frame W h h'
  unfold EStateM.bind
  revert hrun
  cases m h with
  | error e h' => exact id
  | ok a h' =>
    rintro ⟨hframe, hreg', ha⟩
    have hnext := hf a ha h' hreg' fun r hr => hW r (Nat.le_trans hframe.grows hr)
    revert hnext
    dsimp only
    cases f a h' with
    | ok b h'' => exact fun hnext => ⟨hframe.trans hnext.1, hnext.2⟩
    | error e h'' => exact fun hnext => hframe.trans hnext

theorem throw_bind (e : ε) {R : β → Prop} :
    Keeps refs A W (MonadExcept.throw e >>= f) R := (throw (Q := fun _ => False) e).bind nofun

theorem ite {c : Prop} [Decidable c] {m' : EStateM ε (List κ) α} (hm : c → Keeps refs A W m Q)
    (hm' : ¬ c → Keeps refs A W m' Q) : Keeps refs A W (if c then m else m') Q := by
  split
  · exact hm ‹_›
  · exact hm' ‹_›

theorem get {f : List κ → α} (hf : ∀ h, Region refs A h → Q (f h)) :
    Keeps refs A W (fun h => .ok (f h) h : EStateM ε (List κ) α) Q := by
  intro h hreg _
  exact ⟨.refl h, hreg, hf h hreg⟩

theorem add {c : List κ → κ} {f : List κ → α} (hc : ∀ h, ∀ s ∈ refs (c h), A s)
    (hf : ∀ h, A h.length → Q (f h)) :
    Keeps refs A W (fun h => .ok (f h) (h ++ [c h]) : EStateM ε (List κ) α) Q := by
  intro h hreg hW
  exact ⟨.append hW [c h], hreg.append (hc h), hf h (hreg.fresh _ (Nat.le_refl _))⟩

theorem set {r : Nat} {c : κ} (hr : W r) (hc : ∀ s ∈ refs c, A s) (ha : Q a) :
    Keeps refs A W (fun h => .ok a (h.set r c) : EStateM ε (List κ) α) Q := by
  intro h hreg _
  exact ⟨.set hr c, hreg.set hc r, ha⟩

theorem of_own {S : (Nat → Prop) → α → Prop} (hm : ∀ K, Keeps refs K K m (S K))
    (hsub : ∀ K a, (∀ r, K r → A r) → S K a → Q a) : Keeps refs A W m Q := by
  intro h hreg hW
  have hown := hm (h.length ≤ ·) h (.unused h) fun r hr => hr
  revert hown
  cases m h with
  | error e h' => exact fun hframe => hframe.mono hW
  | ok a h' =>
    rintro ⟨hframe, hreg', ha⟩
    refine ⟨hframe.mono hW, ⟨fun r hr => ?_, fun r c hr hc s hs => ?_⟩, ?_⟩
    · exact hreg.fresh r (Nat.le_trans hframe.grows hr)
    · by_cases hlt : h.length ≤ r
      · exact hreg.fresh s (hreg'.closed r c hlt hc s hs)
      · rw [hframe.same r hlt] at hc
        exact hreg.closed r c hr hc s hs
    · exact hsub _ a hreg.fresh ha

/-! ### Loops -/

theorem mapM' {f : β → EStateM ε (List κ) α} (hf : ∀ b ∈ bs, Keeps refs A W (f b) Q) :
    Keeps refs A W (bs.mapM' f) (fun as => ∀ a ∈ as, Q a) := by
  induction bs with
  | nil => exact .pure nofun
  | cons b bs ih =>
    refine (hf b mem_cons_self).bind fun a ha => ?_
    refine (ih fun b' hb' => hf b' (mem_cons_of_mem _ hb')).bind fun as has => .pure ?_
    exact forall_mem_cons.mpr ⟨ha, has⟩

theorem forM {f : β → EStateM ε (List κ) PUnit}
    (hf : ∀ b ∈ bs, Keeps refs A W (f b) fun _ => True) :
    Keeps refs A W (bs.forM f) (fun _ => True) := by
  induction bs with
  | nil => exact .pure trivial
  | cons b bs ih =>
    refine (hf b mem_cons_self).bind fun _ _ => ?_
    exact ih fun b' hb' => hf b' (mem_cons_of_mem _ hb')

theorem foldlM {f : α → β → EStateM ε (List κ) α}
    (hf : ∀ a, Q a → ∀ b ∈ bs, Keeps refs A W (f a b) Q) (ha : Q a) :
    Keeps refs A W (bs.foldlM f a) Q := by
  induction bs generalizing a with
  | nil => exact .pure ha
  | cons b bs ih =>
    refine (hf a ha b mem_cons_self).bind fun a' ha' => ?_
    exact ih (fun a ha b' hb' => hf a ha b' (mem_cons_of_mem _ hb')) ha'

end Keeps

end Mihomo.Lib
