import Mihomo.Lib.OneShot
import Mihomo.Component.Wildcard

/-!
# Routing rules

A rule is matched against the metadata of a connection. Three fields of the metadata, `Process`,
`ProcessPath` and `Uid`, are filled on demand by a lookup that is made at most once; they are the value
of a `Lib.Cell`, and the rest of the metadata is its mutable part. Rules that look at neither the
process nor other rules are functions of that rest (`Rule.other`). Such a rule may resolve the host of
the connection, which changes the metadata.

Matching recurses through SUB-RULE into named rule lists that may refer to each other, so it runs with
fuel.
-/

namespace Mihomo.Rules
open Go Lib Wildcard

structure ProcessInfo where
  process : Str
  processPath : Str
  uid : Nat
  deriving DecidableEq

/-- The remaining metadata; `M` stands for what only `Rule.other` rules and proxies read. -/
structure Context (M : Type) where
  rematchName : Str
  specialRules : Str
  rest : M

/-- What the modelled code asks of `M`: `SwapSrcDst`, and whether `NetWork` is UDP. -/
class Conn (M : Type) where
  swapSrcDst : M → M
  isUDP : M → Bool

instance : Conn Unit := ⟨id, fun _ => false⟩

abbrev Session (M : Type) := Cell (Context M) ProcessInfo

abbrev Matching (M α : Type) := Comp (Context M) ProcessInfo α

inductive ProcessRuleType where
  | processName
  | processNameRegex
  | processNameWildcard
  | processPath
  | processPathRegex
  | processPathWildcard
  deriving DecidableEq

/-- `regexp` is the matcher that the regular expression library compiled from the
pattern; only the two regular expression types have one. -/
structure Process where
  pattern : Str
  adapter : Str
  ruleType : ProcessRuleType
  regexp : Str → Bool

def Process.matchTarget (ps : Process) (target : Str) : Bool :=
  match ps.ruleType with
  | .processNameRegex | .processPathRegex => ps.regexp target
  | .processNameWildcard | .processPathWildcard =>
    wildcardMatch (toLower ps.pattern) (toLower target)
  | .processName | .processPath => equalFold target ps.pattern

def Process.select (ps : Process) (name path : Str) : Str :=
  match ps.ruleType with
  | .processName | .processNameRegex | .processNameWildcard => name
  | .processPath | .processPathRegex | .processPathWildcard => path

def Process.matchInfo (ps : Process) (info : ProcessInfo) : Bool :=
  ps.matchTarget (ps.select info.process info.processPath)

def Process.matchProcess (ps : Process) (processPath : Str) : Bool :=
  ps.matchTarget (ps.select (base processPath) processPath)

structure Range where
  start : Nat
  stop : Nat

def Range.contains (r : Range) (t : Nat) : Bool := r.start ≤ t && t ≤ r.stop

/-- `IntRanges.Check`; no range at all means no restriction. -/
def check (ranges : List Range) (status : Nat) : Bool :=
  if ranges.isEmpty then true else ranges.any fun r => r.contains status

inductive Rule (M : Type) where
  | other (test : Bool → Context M → Bool × M) (adapter : Str)
  | process (ps : Process)
  | uid (uids : List Range) (adapter : Str)
  | subRules (rule : Rule M) (adapter : Str)
  | not (rule : Rule M) (adapter : Str)
  | or (rules : List (Rule M)) (adapter : Str)
  | and (rules : List (Rule M)) (adapter : Str)
  | ruleSet (rules : List (Rule M)) (adapter : Str) (isSrc noResolveIP : Bool)
  | wrapped (disabled : Bool) (rule : Rule M)

variable {M : Type}

/-- `RuleType() == C.SubRules`; a wrapper answers for the rule in it. -/
def Rule.isSubRules : Rule M → Bool
  | .subRules _ _ => true
  | .wrapped _ r => r.isSubRules
  | _ => false

def Rule.adapter : Rule M → Str
  | .other _ a => a
  | .process ps => ps.adapter
  | .uid _ a => a
  | .subRules _ a => a
  | .not _ a => a
  | .or _ a => a
  | .and _ a => a
  | .ruleSet _ a _ _ => a
  | .wrapped _ r => r.adapter

mutual

def Rule.hasProcessRule : Rule M → Bool
  | .other _ _ => false
  | .process _ => true
  | .uid _ _ => true
  | .subRules _ _ => true
  | .not r _ => r.hasProcessRule
  | .or rs _ => anyHasProcessRule rs
  | .and rs _ => anyHasProcessRule rs
  | .ruleSet rs _ _ _ => anyHasProcessRule rs
  | .wrapped disabled r => !disabled && r.hasProcessRule

def anyHasProcessRule : List (Rule M) → Bool
  | [] => false
  | r :: rs => r.hasProcessRule || anyHasProcessRule rs

end

mutual

def Rule.matchProcess (path : Str) : Rule M → Bool
  | .other _ _ => false
  | .process ps => ps.matchProcess path
  | .uid _ _ => true
  | .subRules _ _ => true
  | .not r _ => r.matchProcess path
  | .or rs _ => anyMatchProcess path rs
  | .and rs _ => anyMatchProcess path rs
  | .ruleSet rs _ _ _ => anyMatchProcess path rs
  | .wrapped _ r => r.matchProcess path

def anyMatchProcess (path : Str) : List (Rule M) → Bool
  | [] => false
  | r :: rs => r.matchProcess path || anyMatchProcess path rs

end

inductive AdapterType where
  | pass
  | passRule
  | rematch
  | other
  deriving DecidableEq

/-- A proxy as far as matching reads it; the two targets are those of a rematch proxy. -/
structure Adapter where
  name : Str
  type : AdapterType
  supportUDP : Bool
  targetRematchName : Option Str
  targetSubRule : Option Str
  deriving DecidableEq

/-- A proxy and the ones that repeated `Unwrap` reaches from it. -/
structure Proxy (M : Type) where
  adapter : Adapter
  unwrapped : M → List Adapter

def Proxy.layers (p : Proxy M) (m : M) : List Adapter := p.adapter :: p.unwrapped m

structure Env (M : Type) where
  rules : List (Rule M)
  subRules : Str → Option (List (Rule M))
  proxies : Str → Option (Proxy M)

/-- `subRules[name]`, nil for an unknown name. -/
def Env.list (env : Env M) (name : Str) : List (Rule M) := (env.subRules name).getD []

/-- Works on the metadata `M` and leaves the fields that choose rule lists alone. -/
def onRest {α : Type} (f : Context M → α × M) : Matching M α :=
  Comp.act fun ctx => ((f ctx).1, { ctx with rest := (f ctx).2 })

def checkPassRule (env : Env M) (name : Str) : Matching M Bool :=
  onRest fun ctx =>
    ((env.proxies name).elim false fun p => (p.layers ctx.rest).any fun a => a.type = .passRule,
      ctx.rest)

section Loops

variable {R : Type} (ev : R → Matching M (Bool × Str))

def matchAny : List R → Matching M Bool
  | [] => pure false
  | r :: rs => do
    let m ← ev r
    if m.1 then pure true else matchAny rs

def matchAll : List R → Matching M Bool
  | [] => pure true
  | r :: rs => do
    let m ← ev r
    if m.1 then matchAll rs else pure false

end Loops

/-- The loop of `matchSubRules`; `sub` matches the list a nested SUB-RULE names, once
more after the rule itself has matched, and `pass` is `CheckPassRule`. -/
def matchList (ev : Rule M → Matching M (Bool × Str)) (sub : Str → Matching M (Bool × Str))
    (pass : Str → Matching M Bool) : List (Rule M) → Matching M (Bool × Str)
  | [] => pure (false, [])
  | r :: rs => do
    let m ← ev r
    if m.1 then
      let m ← (if r.isSubRules then sub r.adapter else pure m)
      let skip ← (if m.1 ∧ m.2 ≠ ascii "PASS-RULE" then pass m.2 else pure m.1)
      if skip then matchList ev sub pass rs else pure m
    else matchList ev sub pass rs

def processMatch (find : Matching M ProcessInfo) (ps : Process) : Matching M (Bool × Str) := do
  let info ← find
  pure (ps.matchInfo info, ps.adapter)

def uidMatch (find : Matching M ProcessInfo) (uids : List Range) (adapter : Str) :
    Matching M (Bool × Str) := do
  let info ← find
  if info.uid ≠ 0 ∧ check uids info.uid then pure (true, adapter) else pure (false, [])

variable [Conn M]

def swap : Matching M Unit := onRest fun ctx => ((), Conn.swapSrcDst ctx.rest)

mutual

/-- `Match` of a rule. `find` is `helper.FindProcess` followed by a read of the fields it
fills; `resolve` says whether `helper.ResolveIP` is set. -/
def ruleMatch (env : Env M) (find : Matching M ProcessInfo) :
    Nat → Bool → Rule M → Matching M (Bool × Str)
  | 0, _, _ => Comp.stuck
  | n + 1, resolve, rule =>
    match rule with
    | .other test adapter => do
      let m ← onRest (test resolve)
      pure (m, adapter)
    | .process ps => processMatch find ps
    | .uid uids adapter => uidMatch find uids adapter
    | .subRules cond adapter => do
      let m ← ruleMatch env find n resolve cond
      if m.1 then matchSubRules env find n resolve adapter else pure (false, [])
    | .not r adapter => do
      let m ← ruleMatch env find n resolve r
      if m.1 then pure (false, []) else pure (true, adapter)
    | .or rs adapter => do
      let m ← matchAny (ruleMatch env find n resolve) rs
      if m then pure (true, adapter) else pure (false, [])
    | .and rs adapter => do
      let m ← matchAll (ruleMatch env find n resolve) rs
      pure (m, adapter)
    | .ruleSet rs adapter isSrc noResolveIP =>
      if isSrc then do
        swap
        let m ← matchAny (ruleMatch env find n false) rs
        swap
        pure (m, adapter)
      else do
        let m ← matchAny (ruleMatch env find n (resolve && !noResolveIP)) rs
        pure (m, adapter)
    | .wrapped disabled r => if disabled then pure (false, []) else ruleMatch env find n resolve r

def matchSubRules (env : Env M) (find : Matching M ProcessInfo) :
    Nat → Bool → Str → Matching M (Bool × Str)
  | 0, _, _ => Comp.stuck
  | n + 1, resolve, name =>
    matchList (ruleMatch env find n resolve) (matchSubRules env find n resolve)
      (checkPassRule env) (env.list name)

end

end Mihomo.Rules
