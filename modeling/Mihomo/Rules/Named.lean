import Mihomo.Lib.Fuel
import Mihomo.Rules.Relational
import Mathlib.Data.List.AList

/-!
# Rules that refer to lists and providers by name

The rules as the parser leaves them. A RULE-SET rule names a rule provider, whose rules may name
providers in turn, and a SUB-RULE rule names a list of sub-rules and is accepted only as a rule of a
list. `Test` is a rule that may stand inside other rules.

Where no provider leads back to itself, replacing the names of the providers by their rules gives the
rules of `Rules.Rule`, with the same matches.
-/

namespace Mihomo.Rules.Named
open Go Lib List

inductive Test (M : Type) where
  | other (test : Bool → Context M → Bool × M) (adapter : Str)
  | process (ps : Process)
  | uid (uids : List Range) (adapter : Str)
  | not (rule : Test M) (adapter : Str)
  | or (rules : List (Test M)) (adapter : Str)
  | and (rules : List (Test M)) (adapter : Str)
  | ruleSet (provider : Str) (adapter : Str) (isSrc noResolveIP : Bool)

inductive ListRule (M : Type) where
  | test (rule : Test M)
  | subRules (rule : Test M) (adapter : Str)

abbrev SubRules (M : Type) := AList fun _ : Str => List (ListRule M)

/-- The rules of a provider; one that is not of the classical behaviour is a single test. -/
abbrev RuleProviders (M : Type) := Str → Option (List (Test M))

variable {M : Type}

def SubRules.list (subRules : SubRules M) (name : Str) : List (ListRule M) :=
  (subRules.lookup name).getD []

theorem Test.induct {P : Test M → Prop} (other : ∀ test adapter, P (.other test adapter))
    (process : ∀ ps, P (.process ps)) (uid : ∀ uids adapter, P (.uid uids adapter))
    (not : ∀ rule adapter, P rule → P (.not rule adapter))
    (or : ∀ rules adapter, (∀ r ∈ rules, P r) → P (.or rules adapter))
    (and : ∀ rules adapter, (∀ r ∈ rules, P r) → P (.and rules adapter))
    (ruleSet : ∀ provider adapter isSrc noResolveIP, P (.ruleSet provider adapter isSrc noResolveIP))
    (t : Test M) : P t :=
  @Test.rec M P (fun rules => ∀ r ∈ rules, P r) other process uid not or and ruleSet
    (forall_mem_nil _)
    (fun _ _ head tail => forall_mem_cons.mpr ⟨head, tail⟩) t

mutual

def Test.providerNames : Test M → List Str
  | .other _ _ => []
  | .process _ => []
  | .uid _ _ => []
  | .not r _ => r.providerNames
  | .or rs _ => allProviderNames rs
  | .and rs _ => allProviderNames rs
  | .ruleSet provider _ _ _ => [provider]

def allProviderNames : List (Test M) → List Str
  | [] => []
  | r :: rs => r.providerNames ++ allProviderNames rs

end

theorem mem_providerNames {rs : List (Test M)} {r : Test M} (hr : r ∈ rs) {provider : Str}
    (h : provider ∈ r.providerNames) : provider ∈ allProviderNames rs := by
  induction rs with
  | nil => cases hr
  | cons r' rs ih =>
    rw [allProviderNames, mem_append]
    rcases mem_cons.mp hr with rfl | hr
    · exact .inl h
    · exact .inr (ih hr)

section Matching

variable [Conn M]

def testMatch (providers : RuleProviders M) (find : Matching M ProcessInfo) :
    Nat → Bool → Test M → Matching M (Bool × Str)
  | 0, _, _ => Comp.stuck
  | n + 1, resolve, rule =>
    match rule with
    | .other test adapter => do
      let m ← onRest (test resolve)
      pure (m, adapter)
    | .process ps => processMatch find ps
    | .uid uids adapter => uidMatch find uids adapter
    | .not r adapter => do
      let m ← testMatch providers find n resolve r
      if m.1 then pure (false, []) else pure (true, adapter)
    | .or rs adapter => do
      let m ← matchAny (testMatch providers find n resolve) rs
      if m then pure (true, adapter) else pure (false, [])
    | .and rs adapter => do
      let m ← matchAll (testMatch providers find n resolve) rs
      pure (m, adapter)
    | .ruleSet provider adapter isSrc noResolveIP =>
      match providers provider with
      | none => pure (false, [])
      | some rs =>
        if isSrc then do
          swap
          let m ← matchAny (testMatch providers find n false) rs
          swap
          pure (m, adapter)
        else do
          let m ← matchAny (testMatch providers find n (resolve && !noResolveIP)) rs
          pure (m, adapter)

/-- The loop of `matchSubRules`; a SUB-RULE rule that has matched is followed by its list once more. -/
def matchList (ev : ListRule M → Matching M (Bool × Str)) (sub : Str → Matching M (Bool × Str))
    (pass : Str → Matching M Bool) : List (ListRule M) → Matching M (Bool × Str)
  | [] => pure (false, [])
  | r :: rs => do
    let m ← ev r
    if m.1 then
      let m ← (match r with
        | .subRules _ adapter => sub adapter
        | .test _ => pure m)
      let skip ← (if m.1 ∧ m.2 ≠ ascii "PASS-RULE" then pass m.2 else pure m.1)
      if skip then matchList ev sub pass rs else pure m
    else matchList ev sub pass rs

/-- Everything that matching looks up; `look` is the process lookup, none if `FindProcess` is nil. -/
structure Tables (M : Type) where
  subRules : SubRules M
  providers : RuleProviders M
  proxies : Str → Option (Proxy M)
  look : Option (Context M → ProcessInfo → ProcessInfo)

def Tables.find (tables : Tables M) : Matching M ProcessInfo := tables.look.elim Comp.read Comp.ask

def Tables.checkPassRule (tables : Tables M) : Str → Matching M Bool :=
  Rules.checkPassRule ⟨[], fun _ => none, tables.proxies⟩

mutual

def ruleMatch (tables : Tables M) : Nat → Bool → ListRule M → Matching M (Bool × Str)
  | n, resolve, .test t => testMatch tables.providers tables.find n resolve t
  | 0, _, .subRules _ _ => Comp.stuck
  | n + 1, resolve, .subRules cond adapter => do
    let m ← testMatch tables.providers tables.find n resolve cond
    if m.1 then matchSubRules tables n resolve adapter else pure (false, [])

def matchSubRules (tables : Tables M) : Nat → Bool → Str → Matching M (Bool × Str)
  | 0, _, _ => Comp.stuck
  | n + 1, resolve, name =>
    matchList (ruleMatch tables n resolve) (matchSubRules tables n resolve) tables.checkPassRule
      (tables.subRules.list name)

end

theorem ruleMatch_test (tables : Tables M) (n : Nat) (resolve : Bool) (t : Test M) :
    ruleMatch tables n resolve (.test t) = testMatch tables.providers tables.find n resolve t := by
  cases n <;> rw [ruleMatch]

/-! ### More fuel -/

omit [Conn M] in
theorem matchAny_extends {R : Type} {ev ev' : R → Matching M (Bool × Str)} {rs : List R}
    (hev : ∀ r ∈ rs, Extends (ev r) (ev' r)) : Extends (matchAny ev rs) (matchAny ev' rs) := by
  induction rs with
  | nil => exact fun _ _ _ h => h
  | cons r rs ih =>
    rw [forall_mem_cons] at hev
    refine hev.1.bind fun m _ => ?_
    split
    · exact fun _ _ _ h => h
    · exact ih hev.2

omit [Conn M] in
theorem matchAll_extends {R : Type} {ev ev' : R → Matching M (Bool × Str)} {rs : List R}
    (hev : ∀ r ∈ rs, Extends (ev r) (ev' r)) : Extends (matchAll ev rs) (matchAll ev' rs) := by
  induction rs with
  | nil => exact fun _ _ _ h => h
  | cons r rs ih =>
    rw [forall_mem_cons] at hev
    refine hev.1.bind fun m _ => ?_
    split
    · exact ih hev.2
    · exact fun _ _ _ h => h

theorem testMatch_extends (providers : RuleProviders M) (find : Matching M ProcessInfo) (n : Nat)
    (resolve : Bool) (t : Test M) :
    Extends (testMatch providers find n resolve t) (testMatch providers find (n + 1) resolve t) := by
  induction n generalizing resolve t with
  | zero => exact fun _ _ _ h => nomatch h
  | succ n ih =>
    cases t with
    | other | process | uid => exact fun _ _ _ h => h
    | not r adapter => exact (ih resolve r).bind fun m _ _ _ _ h => h
    | or rs adapter => exact (matchAny_extends fun r _ => ih resolve r).bind fun m _ _ _ _ h => h
    | and rs adapter => exact (matchAll_extends fun r _ => ih resolve r).bind fun m _ _ _ _ h => h
    | ruleSet provider adapter isSrc noResolveIP =>
      rw [testMatch, testMatch]
      cases providers provider with
      | none => exact fun _ _ _ h => h
      | some rs =>
        dsimp only
        split
        · refine .bind (fun _ _ _ h => h) fun _ _ => ?_
          exact (matchAny_extends fun r _ => ih false r).bind fun m _ _ _ _ h => h
        · exact (matchAny_extends fun r _ => ih _ r).bind fun m _ _ _ _ h => h

end Matching

end Mihomo.Rules.Named
