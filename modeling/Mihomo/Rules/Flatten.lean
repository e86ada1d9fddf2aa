import Mihomo.Rules.Rule
import Mihomo.Lib.Fuel
import Mathlib.Logic.Relation
import Mathlib.Data.Set.Finite.Basic
import Mathlib.Order.WellFoundedSet

/-!
# Flattened sub-rule lists

In the lists of an acyclic family every SUB-RULE can be replaced by its guard and the contents of the
list it names. `pass` is one pass from left to right over such a list. `matchSubRules` makes another
one, `twice`: a nested list that matched is matched once more, and it is the second result that counts.
-/

namespace Mihomo.Rules
open Go Lib

/-- `helper.ResolveIP`, which fills in the destination address at most once. -/
class Resolver (M : Type) extends Conn M where
  resolveIP : M → M
  resolveIP_resolveIP : ∀ m, resolveIP (resolveIP m) = resolveIP m
  swapSrcDst_swapSrcDst : ∀ m, swapSrcDst (swapSrcDst m) = m

variable {M : Type}

/-- A rule that has the destination resolved where it is allowed to, and then only reads. -/
def onDemand [Resolver M] (resolves : Bool) (reads : Context M → Bool) (resolve : Bool)
    (ctx : Context M) : Bool × M :=
  let rest := if resolve && resolves then Resolver.resolveIP ctx.rest else ctx.rest
  (reads { ctx with rest := rest }, rest)

/-- The rules that a list can hold besides SUB-RULE, and that logic rules and rule sets can hold. Only
the rules of the top level are wrapped. -/
inductive Rule.Plain [Resolver M] : Rule M → Prop
  | other (resolves : Bool) (reads : Context M → Bool) (adapter : Str) :
      Plain (.other (onDemand resolves reads) adapter)
  | process (ps : Process) : Plain (.process ps)
  | uid (uids : List Range) (adapter : Str) : Plain (.uid uids adapter)
  | not {r : Rule M} (adapter : Str) (hr : Plain r) : Plain (.not r adapter)
  | or {rs : List (Rule M)} (adapter : Str) (hrs : ∀ r ∈ rs, Plain r) : Plain (.or rs adapter)
  | and {rs : List (Rule M)} (adapter : Str) (hrs : ∀ r ∈ rs, Plain r) : Plain (.and rs adapter)
  | ruleSet {rs : List (Rule M)} (adapter : Str) (isSrc noResolveIP : Bool) (hrs : ∀ r ∈ rs, Plain r) :
    Plain (.ruleSet rs adapter isSrc noResolveIP)

inductive Rule.Listed [Resolver M] : Rule M → Prop
  | plain {r : Rule M} (hr : r.Plain) : Listed r
  | subRules {guard : Rule M} (adapter : Str) (hguard : guard.Plain) : Listed (.subRules guard adapter)

variable {r : Rule M} {target : Str} {rs : List (Rule M)}

theorem Rule.Plain.isSubRules [Resolver M] (h : r.Plain) : r.isSubRules = false := by
  cases h <;> rfl

def Refers (env : Env M) (name target : Str) : Prop := ∃ guard, .subRules guard target ∈ env.list name

structure Family [Resolver M] (env : Env M) : Prop where
  finite : { name | (env.subRules name).isSome }.Finite
  listed : ∀ name, ∀ r ∈ env.list name, r.Listed
  acyclic : ∀ name, ¬ Relation.TransGen (Refers env) name name

inductive Items (M : Type) where
  | nil
  | rule (r : Rule M) (rest : Items M)
  | nested (guard : Rule M) (inner rest : Items M)

def Items.append : Items M → Items M → Items M
  | .nil, items => items
  | .rule r rest, items => .rule r (rest.append items)
  | .nested guard inner rest, items => .nested guard inner (rest.append items)

inductive Flattens [Resolver M] (env : Env M) : List (Rule M) → Items M → Prop
  | nil : Flattens env [] .nil
  | rule {r : Rule M} {rs : List (Rule M)} {rest : Items M} (hr : r.Plain)
      (hrest : Flattens env rs rest) :
    Flattens env (r :: rs) (.rule r rest)
  | nested {guard : Rule M} {rs : List (Rule M)} {inner rest : Items M} (target : Str)
      (hguard : guard.Plain)
    (hinner : Flattens env (env.list target) inner) (hrest : Flattens env rs rest) :
    Flattens env (.subRules guard target :: rs) (.nested guard inner rest)

/-! ### Every list of a family can be flattened -/

theorem isSome_of_refers {env : Env M} {name : Str} (h : Refers env name target) :
    (env.subRules name).isSome := by
  obtain ⟨guard, hmem⟩ := h
  cases hlist : env.subRules name with
  | none =>
    rw [Env.list, hlist] at hmem
    cases hmem
  | some rules => rfl

theorem Family.wellFounded [Resolver M] {env : Env M} (h : Family env) :
    WellFounded fun target name => Refers env name target := by
  let reached : Str → Str → Prop := fun target name => Relation.TransGen (Refers env) name target
  have horder : IsStrictOrder Str reached :=
    { irrefl := h.acyclic
      trans := fun _ _ _ hab hbc => hbc.trans hab }
  have hon : { name | (env.subRules name).isSome }.WellFoundedOn reached := h.finite.wellFoundedOn
  have hacc : ∀ name, (env.subRules name).isSome →
      Acc (fun target name => Refers env name target) name := by
    intro name hname
    refine hon.induction hname fun name _ ih => ⟨name, fun target htarget => ?_⟩
    by_cases hsome : (env.subRules target).isSome
    · exact ih target hsome (.single htarget)
    · exact ⟨target, fun _ hnext => absurd (isSome_of_refers hnext) hsome⟩
  refine ⟨fun name => ⟨name, fun target _ => ?_⟩⟩
  by_cases hsome : (env.subRules target).isSome
  · exact hacc target hsome
  · exact ⟨target, fun _ hnext => absurd (isSome_of_refers hnext) hsome⟩

theorem exists_flattens_of_refers [Resolver M] {env : Env M}
    (hlisted : ∀ r ∈ rs, r.Listed)
    (htargets : ∀ guard target, .subRules guard target ∈ rs →
      ∃ inner, Flattens env (env.list target) inner) :
    ∃ items, Flattens env rs items := by
  induction rs with
  | nil => exact ⟨.nil, .nil⟩
  | cons r rs ih =>
    rw [List.forall_mem_cons] at hlisted
    obtain ⟨rest, hrest⟩ := ih hlisted.2 fun guard target hmem => htargets guard target (.tail r hmem)
    cases hlisted.1 with
    | plain hr => exact ⟨.rule r rest, .rule hr hrest⟩
    | subRules target hguard =>
      obtain ⟨inner, hinner⟩ := htargets _ target (.head rs)
      exact ⟨.nested _ inner rest, .nested target hguard hinner hrest⟩

theorem Family.exists_flattens [Resolver M] {env : Env M} (h : Family env) (name : Str) :
    ∃ items, Flattens env (env.list name) items := by
  induction name using h.wellFounded.induction with
  | h name ih =>
    exact exists_flattens_of_refers (h.listed name) fun guard target hmem => ih target ⟨guard, hmem⟩

/-! ### The rules of a list without fuel -/

section Eval

variable [Conn M] (find : Matching M ProcessInfo)

mutual

/-- `Match` of a plain rule. -/
def Rule.eval : Bool → Rule M → Matching M (Bool × Str)
  | resolve, .other test adapter => do
    let m ← onRest (test resolve)
    pure (m, adapter)
  | _, .process ps => processMatch find ps
  | _, .uid uids adapter => uidMatch find uids adapter
  | resolve, .not r adapter => do
    let m ← r.eval resolve
    if m.1 then pure (false, []) else pure (true, adapter)
  | resolve, .or rs adapter => do
    let m ← evalAny resolve rs
    if m then pure (true, adapter) else pure (false, [])
  | resolve, .and rs adapter => do
    let m ← evalAll resolve rs
    pure (m, adapter)
  | resolve, .ruleSet rs adapter isSrc noResolveIP =>
    if isSrc then do
      swap
      let m ← evalAny false rs
      swap
      pure (m, adapter)
    else do
      let m ← evalAny (resolve && !noResolveIP) rs
      pure (m, adapter)
  | _, .subRules _ _ => Comp.stuck
  | _, .wrapped _ _ => Comp.stuck

def evalAny : Bool → List (Rule M) → Matching M Bool
  | _, [] => pure false
  | resolve, r :: rs => do
    let m ← r.eval resolve
    if m.1 then pure true else evalAny resolve rs

def evalAll : Bool → List (Rule M) → Matching M Bool
  | _, [] => pure true
  | resolve, r :: rs => do
    let m ← r.eval resolve
    if m.1 then evalAll resolve rs else pure false

end

end Eval

def skips (env : Env M) (m : Bool × Str) : Matching M Bool :=
  if m.1 ∧ m.2 ≠ ascii "PASS-RULE" then checkPassRule env m.2 else pure m.1

section Passes

variable (env : Env M) (ev : Rule M → Matching M (Bool × Str))

def pass : Items M → Matching M (Option Str)
  | .nil => pure none
  | .rule r rest => do
    let m ← ev r
    if m.1 then
      let skip ← skips env m
      if skip then pass rest else pure (some m.2)
    else pass rest
  | .nested guard inner rest => do
    let m ← ev guard
    if m.1 then
      let decided ← pass inner
      if decided.isSome then pure decided else pass rest
    else pass rest

/-- `Match` of a SUB-RULE, where `sub` matches the list it names. -/
def guarded (guard : Rule M) (sub : Matching M (Bool × Str)) : Matching M (Bool × Str) := do
  let m ← ev guard
  if m.1 then sub else pure (false, [])

/-- The loop of `matchSubRules` over a flattened list. -/
def twice : Items M → Matching M (Bool × Str)
  | .nil => pure (false, [])
  | .rule r rest => do
    let m ← ev r
    if m.1 then
      let skip ← skips env m
      if skip then twice rest else pure m
    else twice rest
  | .nested guard inner rest => do
    let m ← guarded ev guard (twice inner)
    if m.1 then
      let m ← twice inner
      let skip ← skips env m
      if skip then twice rest else pure m
    else twice rest

end Passes

def verdict : Option Str → Bool × Str
  | none => (false, [])
  | some adapter => (true, adapter)

/-! ### With enough fuel the source does the same -/

section Tends

variable [Conn M] {find : Matching M ProcessInfo} {ev : Nat → Rule M → Matching M (Bool × Str)}
  {resolve : Bool}

variable {rs : List (Rule M)}

theorem tends_matchAny
    (hev : ∀ r ∈ rs, Tends (fun n => ev n r) (r.eval find resolve)) :
    Tends (fun n => matchAny (ev n) rs) (evalAny find resolve rs) := by
  induction rs with
  | nil => exact .const _
  | cons r rs ih =>
    rw [List.forall_mem_cons] at hev
    exact hev.1.bind fun m => .ite _ (.const _) (ih hev.2)

theorem tends_matchAll
    (hev : ∀ r ∈ rs, Tends (fun n => ev n r) (r.eval find resolve)) :
    Tends (fun n => matchAll (ev n) rs) (evalAll find resolve rs) := by
  induction rs with
  | nil => exact .const _
  | cons r rs ih =>
    rw [List.forall_mem_cons] at hev
    exact hev.1.bind fun m => .ite _ (ih hev.2) (.const _)

end Tends

variable [Resolver M] {find : Matching M ProcessInfo}

theorem Rule.Plain.tends (env : Env M) (h : r.Plain) (resolve : Bool) :
    Tends (fun n => ruleMatch env find n resolve r) (r.eval find resolve) := by
  induction h generalizing resolve with
  | other | process | uid => exact .of_succ (.const _)
  | not adapter hr ih =>
    exact .of_succ ((ih resolve).bind fun m => .ite _ (.const _) (.const _))
  | or adapter hrs ih =>
    exact .of_succ ((tends_matchAny fun r hr => ih r hr resolve).bind fun m =>
      .ite _ (.const _) (.const _))
  | and adapter hrs ih =>
    exact .of_succ ((tends_matchAll fun r hr => ih r hr resolve).bind fun m => .const _)
  | ruleSet adapter isSrc noResolveIP hrs ih =>
    refine .of_succ (.ite _ ?_ ?_)
    · exact (Tends.const swap).bind fun _ =>
        (tends_matchAny fun r hr => ih r hr false).bind fun m =>
          (Tends.const swap).bind fun _ => .const _
    · exact (tends_matchAny fun r hr => ih r hr (resolve && !noResolveIP)).bind fun m => .const _

variable {env : Env M} {resolve : Bool}

theorem tends_guarded {guard : Rule M} {sub : Matching M (Bool × Str)}
    (hguard : guard.Plain) (hsub : Tends (fun n => matchSubRules env find n resolve target) sub) :
    Tends (fun n => ruleMatch env find n resolve (.subRules guard target))
      (guarded (Rule.eval find resolve) guard sub) :=
  .of_succ ((hguard.tends env resolve).bind fun _ => .ite _ hsub (.const _))

theorem Flattens.tends_matchList {items : Items M} (h : Flattens env rs items) :
    Tends (fun n =>
      matchList (ruleMatch env find n resolve) (matchSubRules env find n resolve) (checkPassRule env) rs)
      (twice env (Rule.eval find resolve) items) := by
  induction h with
  | nil => exact .const _
  | @rule r rs rest hr hrest ih =>
    simp only [matchList, hr.isSubRules]
    exact (hr.tends env resolve).bind fun m =>
      .ite _ ((Tends.const (skips env m)).bind fun skip => .ite _ ih (.const _)) ih
  | nested target hguard hinner hrest ihinner ihrest =>
    have hsub :
        Tends (fun n => matchSubRules env find n resolve target)
          (twice env (Rule.eval find resolve) _) := .of_succ ihinner
    exact (tends_guarded hguard hsub).bind fun m => .ite _
      (hsub.bind fun m => (Tends.const (skips env m)).bind fun skip => .ite _ ihrest (.const _)) ihrest

end Mihomo.Rules
