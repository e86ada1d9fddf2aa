import Mihomo.Rules.Rule

/-!
# Relating two matchings of the same rules

Two matchings that differ in `find` run the same program, so a relation between computations that the
program's connectives respect (`Compat`) holds between them once it holds at the rules that call
`find`. `G` is the set of rules the argument is about, closed under going from a rule to the rules it
contains.
-/

namespace Mihomo.Rules
open Go Lib

variable {M : Type}

structure Compat (R : ∀ α : Type, Matching M α → Matching M α → Prop)
    (find find' : Matching M ProcessInfo) (G : Rule M → Prop) : Prop where
  pure : ∀ {α : Type} (a : α), R α (pure a) (pure a)
  stuck : ∀ {α : Type}, R α Comp.stuck Comp.stuck
  bind : ∀ {α β : Type} {c d : Matching M α} {f g : α → Matching M β},
    R α c d → (∀ a, Comp.Output c a → R β (f a) (g a)) → R β (c >>= f) (d >>= g)
  onRest : ∀ {α : Type} (f : Context M → α × M), R α (onRest f) (onRest f)
  process : ∀ {ps}, G (.process ps) → R _ (processMatch find ps) (processMatch find' ps)
  uid : ∀ {uids a}, G (.uid uids a) → R _ (uidMatch find uids a) (uidMatch find' uids a)
  not : ∀ {r a}, G (.not r a) → G r
  or : ∀ {rs a}, G (.or rs a) → ∀ r ∈ rs, G r
  and : ∀ {rs a}, G (.and rs a) → ∀ r ∈ rs, G r
  ruleSet : ∀ {rs a src noResolve}, G (.ruleSet rs a src noResolve) → ∀ r ∈ rs, G r
  wrapped : ∀ {r}, G (.wrapped false r) → G r
  /-- A SUB-RULE reaches every named list, so it is in `G` only if all rules are. -/
  subRules : ∀ {r a}, G (.subRules r a) → ∀ r, G r

/-- The fuel of the two runs: the same, or at least as much on the right if the relation
lets a run that is stuck be continued in any way. -/
def Fuel (R : ∀ α : Type, Matching M α → Matching M α → Prop) (n n' : Nat) : Prop :=
  n = n' ∨ (n ≤ n' ∧ ∀ {α : Type} (d : Matching M α), R α Comp.stuck d)

theorem Fuel.succ {R : ∀ α, Matching M α → Matching M α → Prop} {n n' : Nat}
    (h : Fuel R (n + 1) n') : ∃ m, n' = m + 1 ∧ Fuel R n m := by
  rcases h with rfl | ⟨hle, hR⟩
  · exact ⟨n, rfl, .inl rfl⟩
  · obtain ⟨m, rfl⟩ : ∃ m, n' = m + 1 := ⟨n' - 1, by omega⟩
    exact ⟨m, rfl, .inr ⟨by omega, hR⟩⟩

namespace Compat

variable {R : ∀ α : Type, Matching M α → Matching M α → Prop}
  {find find' : Matching M ProcessInfo} {G : Rule M → Prop}

theorem ite {α : Type} {p : Prop} [Decidable p] {c d c' d' : Matching M α}
    (hc : R α c c') (hd : R α d d') : R α (if p then c else d) (if p then c' else d') := by
  split
  · exact hc
  · exact hd

section Loops

variable {ev ev' : Rule M → Matching M (Bool × Str)} {rs : List (Rule M)}

theorem matchAny_rel (h : Compat R find find' G)
    (hev : ∀ r ∈ rs, R _ (ev r) (ev' r)) : R _ (matchAny ev rs) (matchAny ev' rs) := by
  induction rs with
  | nil => exact h.pure false
  | cons r rs ih =>
    rw [List.forall_mem_cons] at hev
    exact h.bind hev.1 fun m _ => ite (h.pure true) (ih hev.2)

theorem matchAll_rel (h : Compat R find find' G)
    (hev : ∀ r ∈ rs, R _ (ev r) (ev' r)) : R _ (matchAll ev rs) (matchAll ev' rs) := by
  induction rs with
  | nil => exact h.pure true
  | cons r rs ih =>
    rw [List.forall_mem_cons] at hev
    exact h.bind hev.1 fun m _ => ite (ih hev.2) (h.pure false)

theorem matchList_rel (h : Compat R find find' G)
    {sub sub' : Str → Matching M (Bool × Str)} {pass : Str → Matching M Bool}
    (hev : ∀ r, R _ (ev r) (ev' r)) (hsub : ∀ name, R _ (sub name) (sub' name))
    (hpass : ∀ name, R _ (pass name) (pass name)) :
    R _ (matchList ev sub pass rs) (matchList ev' sub' pass rs) := by
  induction rs with
  | nil => exact h.pure (false, [])
  | cons r rs ih =>
    refine h.bind (hev r) fun m _ => ite ?_ ih
    refine h.bind (ite (hsub r.adapter) (h.pure m)) fun m' _ => ?_
    refine h.bind (ite (hpass m'.2) (h.pure m'.1)) fun skip _ => ?_
    exact ite ih (h.pure m')

end Loops

variable [Conn M] {n n' : Nat}

theorem ruleMatch_and_matchSubRules (h : Compat R find find' G) (env : Env M)
    (hn : Fuel R n n') :
    (∀ resolve r, G r → R _ (ruleMatch env find n resolve r) (ruleMatch env find' n' resolve r)) ∧
      ((∀ r, G r) → ∀ resolve name,
        R _ (matchSubRules env find n resolve name) (matchSubRules env find' n' resolve name)) := by
  induction n generalizing n' with
  | zero =>
    rcases hn with rfl | ⟨-, hR⟩
    · exact ⟨fun _ _ _ => h.stuck, fun _ _ _ => h.stuck⟩
    · exact ⟨fun _ _ _ => hR _, fun _ _ _ => hR _⟩
  | succ n ih =>
    obtain ⟨m, rfl, hm⟩ := hn.succ
    obtain ⟨ihr, ihs⟩ := ih hm
    refine ⟨fun resolve r hr => ?_, fun hall resolve name => ?_⟩
    · cases r with
      | other test a => exact h.bind (h.onRest (test resolve)) fun m _ => h.pure (m, a)
      | process ps => exact h.process hr
      | uid uids a => exact h.uid hr
      | subRules cond a =>
        have hall := h.subRules hr
        exact h.bind (ihr resolve cond (hall cond)) fun m _ =>
          ite (ihs hall resolve a) (h.pure (false, []))
      | not r a =>
        exact h.bind (ihr resolve r (h.not hr)) fun m _ => ite (h.pure (false, [])) (h.pure (true, a))
      | or rs a =>
        exact h.bind (h.matchAny_rel fun r hm => ihr resolve r (h.or hr r hm)) fun m _ =>
          ite (h.pure (true, a)) (h.pure (false, []))
      | and rs a =>
        exact h.bind (h.matchAll_rel fun r hm => ihr resolve r (h.and hr r hm)) fun m _ => h.pure (m, a)
      | ruleSet rs a isSrc noResolveIP =>
        have hrs := fun b => h.matchAny_rel fun r hm => ihr b r (h.ruleSet hr r hm)
        refine ite ?_ (h.bind (hrs _) fun m _ => h.pure (m, a))
        exact h.bind (h.onRest _) fun _ _ => h.bind (hrs false) fun m _ =>
          h.bind (h.onRest _) fun _ _ => h.pure (m, a)
      | wrapped disabled r =>
        cases disabled with
        | true => exact h.pure (false, [])
        | false => exact ihr resolve r (h.wrapped hr)
    · exact h.matchList_rel (fun r => ihr resolve r (hall r)) (ihs hall resolve)
        fun name => h.onRest _

theorem ruleMatch_rel (h : Compat R find find' G) (env : Env M) (hn : Fuel R n n')
    (resolve : Bool) {r : Rule M} (hr : G r) :
    R _ (ruleMatch env find n resolve r) (ruleMatch env find' n' resolve r) :=
  (h.ruleMatch_and_matchSubRules env hn).1 resolve r hr

end Compat

end Mihomo.Rules
