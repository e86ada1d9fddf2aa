import Mihomo.Lib.Goroutines

/-!
# Goroutines with a mutex

Some sections run with a mutex held. A goroutine that takes the mutex goes from one such section to the
next until it gives the mutex back, while the other goroutines may run sections that do not need it.
`Fits s sec` is what the section `sec`, as the next one of the holder, may take for granted.
-/

namespace Mihomo.Lib
open List

universe u v w x
variable {σ : Type u} {τ : Type v} {χ : Type w} {κ : Type x}

def atHeld (held : τ → Bool) (g : List τ) : Bool := g.head?.any held

section
variable (held : τ → Bool) (locked : σ → Bool) (Fits : σ → τ → Prop)

inductive Turn (s : σ) (sec : τ) (e : Effect σ τ) : Prop where
  | free : held sec = false → (∀ t ∈ e.next, held t = false) → locked e.shared = locked s →
    (∀ t, Fits s t → Fits e.shared t) → Turn s sec e
  | acquire {t : τ} {rest : List τ} : held sec = false → locked s = false → locked e.shared = true →
    e.next = t :: rest → held t = true → (∀ t ∈ rest, held t = false) → Fits e.shared t → Turn s sec e
  | keep {t : τ} {rest : List τ} : held sec = true → locked e.shared = locked s → e.next = t :: rest →
    held t = true → (∀ t ∈ rest, held t = false) → Fits e.shared t → Turn s sec e
  | release : held sec = true → (∀ t ∈ e.next, held t = false) → locked e.shared = false → Turn s sec e

/-- One goroutine holds the mutex if it is locked, and none otherwise; every next section has what it
needs. -/
structure Guarded (p : Pool σ τ) : Prop where
  fits : ∀ g ∈ p.running, ∀ sec ∈ g.head?, Fits p.shared sec
  tails : ∀ g ∈ p.running, ∀ sec ∈ g.tail, held sec = false
  count : p.running.countP (atHeld held) = if locked p.shared then 1 else 0

end

section
variable {held : τ → Bool} {locked : σ → Bool} {Fits : σ → τ → Prop}

theorem atHeld_append {next rest : List τ} (hnext : ∀ t ∈ next, held t = false)
    (hrest : ∀ t ∈ rest, held t = false) : atHeld held (next ++ rest) = false := by
  unfold atHeld
  cases hhead : (next ++ rest).head? with
  | none => rfl
  | some t =>
    rcases mem_append.mp (mem_of_mem_head? hhead) with h | h
    · exact hnext t h
    · exact hrest t h

variable {p : Pool σ τ} {before after started : List (List τ)} {sec : τ} {rest next : List τ} {s : σ}

section
variable (h : Guarded held locked Fits p)
include h

section

variable (hp : p.running = before ++ (sec :: rest) :: after)
  (hstarted : ∀ g ∈ started, ∀ t ∈ g, held t = false) (hfree : ∀ s t, held t = false → Fits s t)
include hp hstarted hfree

theorem Guarded.replace (hothers : ∀ g ∈ before ++ after, ∀ t ∈ g.head?, Fits s t)
    (hself : ∀ t ∈ (next ++ rest).head?, Fits s t)
    (htail : ∀ t ∈ (next ++ rest).tail, held t = false)
    (hcount : (before ++ after).countP (atHeld held) + (if atHeld held (next ++ rest) then 1 else 0) =
      if locked s then 1 else 0) :
    Guarded held locked Fits ⟨s, before ++ (next ++ rest) :: (after ++ started)⟩ := by
  have htails := h.tails
  rw [hp] at htails
  have hmem : ∀ g ∈ before ++ (next ++ rest) :: (after ++ started),
      g ∈ before ++ after ∨ g = next ++ rest ∨ g ∈ started := by
    intro g hg
    simp only [mem_append, mem_cons] at hg ⊢
    tauto
  refine ⟨fun g hg t ht => ?_, fun g hg t ht => ?_, ?_⟩
  · rcases hmem g hg with hg | rfl | hg
    · exact hothers g hg t ht
    · exact hself t ht
    · exact hfree s t (hstarted g hg t (mem_of_mem_head? ht))
  · rcases hmem g hg with hg | rfl | hg
    · refine htails g ?_ t ht
      simp only [mem_append] at hg ⊢
      tauto
    · exact htail t ht
    · exact hstarted g hg t (mem_of_mem_tail ht)
  · have hnone : started.countP (atHeld held) = 0 := by
      rw [countP_eq_zero]
      intro g hg
      rw [← append_nil g, atHeld_append (hstarted g hg) (forall_mem_nil _)]
      exact Bool.false_ne_true
    rw [← hcount]
    simp only [countP_append, countP_cons]
    omega

theorem Guarded.run (hturn : Turn held locked Fits p.shared sec ⟨s, next, started⟩) :
    Guarded held locked Fits ⟨s, before ++ (next ++ rest) :: (after ++ started)⟩ := by
  have hrest : ∀ t ∈ rest, held t = false :=
    h.tails (sec :: rest) (by rw [hp]; exact mem_append_right _ mem_cons_self)
  have hcount := h.count
  have hsplit : p.running.countP (atHeld held) =
      (before ++ after).countP (atHeld held) + if held sec then 1 else 0 := by
    rw [hp, countP_append, countP_cons, countP_append]
    have hhead : atHeld held (sec :: rest) = held sec := rfl
    rw [hhead]
    omega
  rw [hsplit] at hcount
  have hold : ∀ g ∈ before ++ after, ∀ t ∈ g.head?, Fits p.shared t := by
    intro g hg t ht
    refine h.fits g ?_ t ht
    rw [hp]
    simp only [mem_append] at hg ⊢
    tauto
  -- when no other goroutine is at a held section, the others need nothing
  have hidle : (before ++ after).countP (atHeld held) = 0 →
      ∀ g ∈ before ++ after, ∀ t ∈ g.head?, Fits s t := by
    intro hzero g hg t ht
    refine hfree s t ?_
    have hnot := countP_eq_zero.mp hzero g hg
    unfold atHeld at hnot
    rw [Option.mem_def.mp ht] at hnot
    exact Bool.eq_false_iff.mpr hnot
  have hquiet : (∀ t ∈ next, held t = false) → ∀ t ∈ next ++ rest, held t = false :=
    fun hnext => forall_mem_append.mpr ⟨hnext, hrest⟩
  have hbusy : ∀ {t₀ tl}, next = t₀ :: tl → held t₀ = true → (∀ t ∈ tl, held t = false) → Fits s t₀ →
      locked s = true → (before ++ after).countP (atHeld held) = 0 →
      Guarded held locked Fits ⟨s, before ++ (next ++ rest) :: (after ++ started)⟩ := by
    intro t₀ tl hnext hheld htl hfits hlocked hzero
    subst hnext
    refine h.replace hp hstarted hfree (hidle hzero) ?_ ?_ ?_
    · intro t ht
      cases ht
      exact hfits
    · exact forall_mem_append.mpr ⟨htl, hrest⟩
    · rw [hzero, show atHeld held (t₀ :: tl ++ rest) = held t₀ from rfl, hheld, hlocked]
      rfl
  have hothers : held sec = true →
      (before ++ after).countP (atHeld held) = 0 ∧ locked p.shared = true := by
    intro hheld
    rw [hheld, if_pos rfl] at hcount
    split at hcount
    · exact ⟨by omega, by assumption⟩
    · omega
  cases hturn with
  | free hheld hnext hlocked hkeeps =>
    rw [hheld] at hcount
    refine h.replace hp hstarted hfree (fun g hg t ht => hkeeps t (hold g hg t ht)) ?_ ?_ ?_
    · exact fun t ht => hfree s t (hquiet hnext t (mem_of_mem_head? ht))
    · exact fun t ht => hquiet hnext t (mem_of_mem_tail ht)
    · rw [atHeld_append hnext hrest, show locked s = locked p.shared from hlocked]
      exact hcount
  | acquire hheld hunlocked hlocked hnext hheld' htl hfits =>
    rw [hheld, hunlocked] at hcount
    exact hbusy hnext hheld' htl hfits hlocked hcount
  | keep hheld hlocked hnext hheld' htl hfits =>
    exact hbusy hnext hheld' htl hfits (hlocked.trans (hothers hheld).2) (hothers hheld).1
  | release hheld hnext hunlocked =>
    refine h.replace hp hstarted hfree (hidle (hothers hheld).1) ?_ ?_ ?_
    · exact fun t ht => hfree s t (hquiet hnext t (mem_of_mem_head? ht))
    · exact fun t ht => hquiet hnext t (mem_of_mem_tail ht)
    · rw [atHeld_append hnext hrest, (hothers hheld).1, show locked s = false from hunlocked]
      rfl

end

theorem Guarded.call (hfree : ∀ s t, held t = false → Fits s t)
    {g : List τ} (hg : ∀ t ∈ g, held t = false) :
    Guarded held locked Fits ⟨p.shared, p.running ++ [g]⟩ := by
  have hat : atHeld held g = false := by
    rw [← append_nil g]
    exact atHeld_append hg nofun
  refine ⟨forall_mem_append.mpr ⟨h.fits, forall_mem_singleton.mpr fun t ht => ?_⟩,
    forall_mem_append.mpr ⟨h.tails, forall_mem_singleton.mpr fun t ht => ?_⟩, ?_⟩
  · exact hfree _ t (hg t (mem_of_mem_head? ht))
  · exact hg t (mem_of_mem_tail ht)
  · rw [countP_append, countP_singleton, hat, h.count]
    rfl

end

end

/-! ### Runs -/

section
open Program
variable {held : τ → Bool} {locked : σ → Bool} {Fits : σ → τ → Prop} {P : Program σ τ χ κ}
  {cond : σ → τ → Prop} {I : σ → Prop}

/-- Invariants of a program with a mutex: each section keeps the invariant, given what it may take for
granted, and keeps to the mutex. -/
theorem always_guarded (hfree : ∀ s t, held t = false → Fits s t)
    (hrun : ∀ {s sec choice e}, I s → Fits s sec → cond s sec → P.effect s sec choice = some e →
      I e.shared ∧ Turn held locked Fits s sec e ∧ ∀ g ∈ e.started, ∀ t ∈ g, held t = false)
    (hcall : ∀ {s c g}, P.entry s c = some g → ∀ t ∈ g, held t = false)
    {p : Pool σ τ} (hp : I p.shared) (hguarded : Guarded held locked Fits p)
    (moves : List (Move χ κ)) (hmoves : Along P.step (Meets cond) p moves) :
    Always P.step (fun q => I q.shared ∧ Guarded held locked Fits q) p moves := by
  refine always_pool ?_ ?_ ⟨hp, hguarded⟩ moves
    hmoves
  · intro q before sec rest after choice e hq heq hcond he
    have hfits : Fits q.shared sec :=
      hq.2.fits _ (by rw [heq]; exact mem_append_right _ mem_cons_self) sec rfl
    obtain ⟨hI, hturn, hstarted⟩ := hrun hq.1 hfits hcond he
    exact ⟨hI, hq.2.run heq hstarted hfree hturn⟩
  · intro q c g hq hg
    exact ⟨hq.1, hq.2.call hfree (hcall hg)⟩

end

end Mihomo.Lib
