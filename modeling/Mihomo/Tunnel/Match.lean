import Mihomo.Rules.Relational

/-!
# The match loop of the tunnel

`matchLocked` goes through the rule list that the metadata select. A rule that matches decides for its
proxy, unless the proxy or one of the layers in it is a Pass proxy or does not support the network. A
Rematch layer writes new fields into the metadata and starts over, at most once for each proxy name.
-/

namespace Mihomo.Tunnel
open Go Lib Rules

variable {M : Type}

def getRules (env : Env M) (specialRules : Str) : List (Rule M) :=
  (env.subRules specialRules).getD env.rules

structure Owner where
  uid : Nat
  path : Str

def Owner.info (owner : Owner) : ProcessInfo := ⟨base owner.path, owner.path, owner.uid⟩

def processMatcherForRules (rules : List (Rule M)) : Option (List (Rule M)) :=
  match rules.filter Rule.hasProcessRule with
  | [] => none
  | matchers => some matchers

/-- `FindProcessNameByAddrWithMatcher`: a process that no matcher accepts is not found. -/
def findProcessNameByAddrWithMatcher (owner : Owner) (matcher : List (Rule M)) : Option Owner :=
  if matcher.any fun r => r.matchProcess owner.path then some owner else none

/-- What `FindProcess` leaves in the metadata when the rules in force are `rules`. -/
def lookup (owner : Owner) (rules : List (Rule M)) (info : ProcessInfo) : ProcessInfo :=
  match processMatcherForRules rules with
  | none => info
  | some matcher => (findProcessNameByAddrWithMatcher owner matcher).elim info Owner.info

def findProcess (env : Env M) (owner : Owner) : Matching M ProcessInfo :=
  Comp.ask fun ctx info => lookup owner (getRules env ctx.specialRules) info

/-- `FindProcess` with the lookup that takes no matcher. -/
def findProcessUnfiltered (owner : Owner) : Matching M ProcessInfo :=
  Comp.ask fun _ _ => owner.info

inductive Outcome (M : Type) where
  | chosen (adapter : Adapter) (rule : Rule M)
  | rematch (proxy : Adapter) (rule : Rule M)

def scanLayers : List Adapter → Option (Option Adapter)
  | [] => none
  | a :: as =>
    if a.type = .pass then some none
    else if a.type = .rematch then some (some a)
    else scanLayers as

abbrev Decision (M : Type) := Option Adapter × Option (Rule M)

def currentRules (env : Env M) : Matching M (List (Rule M)) :=
  onRest fun ctx => (getRules env ctx.specialRules, ctx.rest)

def applyMetadata (a : Adapter) : Matching M Unit :=
  Comp.act fun ctx =>
    ((), { ctx with
      rematchName := a.targetRematchName.getD ctx.rematchName
      specialRules := a.targetSubRule.getD ctx.specialRules })

variable [Conn M]

/-- The loop body after a match; `none` continues with the next rule. -/
def consider (env : Env M) (ada : Str) (rule : Rule M) (m : M) : Option (Outcome M) :=
  match env.proxies ada with
  | none => none
  | some p =>
    match scanLayers (p.layers m) with
    | some none => none
    | some (some a) => some (.rematch a rule)
    | none =>
      if Conn.isUDP m && !p.adapter.supportUDP then none else some (.chosen p.adapter rule)

def tryRules (env : Env M) (ev : Rule M → Matching M (Bool × Str)) :
    List (Rule M) → Matching M (Option (Outcome M))
  | [] => pure none
  | rule :: rules => do
    let m ← ev rule
    if m.1 then
      let o ← onRest fun ctx => (consider env m.2 rule ctx.rest, ctx.rest)
      if o.isSome then pure o else tryRules env ev rules
    else tryRules env ev rules

def conclude (env : Env M) (again : List Str → Matching M (Decision M)) (rematchChain : List Str) :
    Option (Outcome M) → Matching M (Decision M)
  | none => pure ((env.proxies (ascii "DIRECT")).map Proxy.adapter, none)
  | some (.chosen adapter rule) => pure (some adapter, some rule)
  | some (.rematch proxy rule) =>
    if proxy.name ∈ rematchChain then pure (some proxy, some rule)
    else do
      applyMetadata proxy
      again (rematchChain ++ [proxy.name])

/-- The loop of `matchLocked`, with the names of the rematch proxies passed so far. -/
def matchLoop (env : Env M) (find : Matching M ProcessInfo) :
    Nat → List Str → Matching M (Decision M)
  | 0, _ => Comp.stuck
  | n + 1, rematchChain => do
    let rules ← currentRules env
    let o ← tryRules env (ruleMatch env find n true) rules
    conclude env (matchLoop env find n) rematchChain o

def matchLocked (env : Env M) (find : Matching M ProcessInfo) (fuel : Nat) :
    Matching M (Decision M) :=
  matchLoop env find fuel []

def Rematches (env : Env M) (a : Adapter) : Prop :=
  ∃ name p m, env.proxies name = some p ∧ a ∈ p.layers m ∧ a.type = .rematch

variable {a : Adapter} {r : Rule M} {env : Env M}

theorem scanLayers_rematch {as : List Adapter}
    (h : scanLayers as = some (some a)) : a ∈ as ∧ a.type = .rematch := by
  induction as with
  | nil => cases h
  | cons b as ih =>
    unfold scanLayers at h
    split_ifs at h with hp hr
    · cases h
    · cases h
      exact ⟨List.mem_cons_self, hr⟩
    · obtain ⟨hm, ht⟩ := ih h
      exact ⟨List.mem_cons_of_mem b hm, ht⟩

theorem consider_rematch {ada : Str} {rule : Rule M} {m : M}
    (h : consider env ada rule m = some (.rematch a r)) : Rematches env a := by
  unfold consider at h
  cases hp : env.proxies ada with
  | none => simp [hp] at h
  | some p =>
    rcases hs : scanLayers (p.layers m) with _ | _ | b
    · simp only [hp, hs] at h
      split_ifs at h
      cases h
    · simp [hp, hs] at h
    · simp only [hp, hs] at h
      cases h
      exact ⟨ada, p, m, hp, scanLayers_rematch hs⟩

theorem tryRules_rematch {ev : Rule M → Matching M (Bool × Str)}
    {rules : List (Rule M)}
    (h : Comp.Output (tryRules env ev rules) (some (.rematch a r))) : Rematches env a := by
  induction rules with
  | nil => cases Comp.output_pure h
  | cons rule rules ih =>
    obtain ⟨m, -, h⟩ := Comp.output_bind h
    split at h
    · obtain ⟨o, ho, h⟩ := Comp.output_bind h
      split at h
      · cases Comp.output_pure h
        obtain ⟨ctx, hc⟩ := Comp.output_act ho
        exact consider_rematch hc.symm
      · exact ih h
    · exact ih h

/-- What a relation has to respect besides `Compat` to hold between two runs of the
match loop: the choice of the rule list, among those in `Lists`, and the updates of
rematch proxies. -/
structure LoopCompat (env : Env M) (R : ∀ α : Type, Matching M α → Matching M α → Prop)
    (find find' : Matching M ProcessInfo) (G : Rule M → Prop) (Lists : List (Rule M) → Prop) : Prop
    extends Compat R find find' G where
  lists : ∀ {rules}, Lists rules → ∀ r ∈ rules, G r
  current : ∀ {α : Type} {k k' : List (Rule M) → Matching M α},
    (∀ rules, Lists rules → R α (k rules) (k' rules)) →
    R α (currentRules env >>= k) (currentRules env >>= k')
  rematch : ∀ {a}, Rematches env a → R Unit (applyMetadata a) (applyMetadata a)

namespace LoopCompat

variable {env : Env M} {R : ∀ α : Type, Matching M α → Matching M α → Prop}
  {find find' : Matching M ProcessInfo} {G : Rule M → Prop} {Lists : List (Rule M) → Prop}

omit [Conn M] in
/-- A relation that holds between the two lookups and is respected by everything else
holds between the two runs, whatever the rules are. -/
theorem ofFind (pure : ∀ {α : Type} (a : α), R α (pure a) (pure a))
    (stuck : ∀ {α : Type}, R α Comp.stuck Comp.stuck)
    (bind : ∀ {α β : Type} {c d : Matching M α} {f g : α → Matching M β},
      R α c d → (∀ a, Comp.Output c a → R β (f a) (g a)) → R β (c >>= f) (d >>= g))
    (onRest : ∀ {α : Type} (f : Context M → α × M), R α (onRest f) (onRest f))
    (lookup : R _ find find')
    (rematch : ∀ {a}, Rematches env a → R Unit (applyMetadata a) (applyMetadata a)) :
    LoopCompat env R find find' (fun _ => True) (fun _ => True) where
  pure := pure
  stuck := stuck
  bind := bind
  onRest := onRest
  process := fun _ => bind lookup fun _ _ => pure _
  uid := fun _ => bind lookup fun _ _ => Compat.ite (pure _) (pure _)
  not := fun _ => trivial
  or := fun _ _ _ => trivial
  and := fun _ _ _ => trivial
  ruleSet := fun _ _ _ => trivial
  wrapped := fun _ => trivial
  subRules := fun _ _ => trivial
  lists := fun _ _ _ => trivial
  current := fun hk => bind (onRest _) fun rules _ => hk rules trivial
  rematch := rematch

theorem tryRules_rel (h : LoopCompat env R find find' G Lists)
    {ev ev' : Rule M → Matching M (Bool × Str)} {rules : List (Rule M)}
    (hev : ∀ r ∈ rules, R _ (ev r) (ev' r)) :
    R _ (tryRules env ev rules) (tryRules env ev' rules) := by
  induction rules with
  | nil => exact h.pure none
  | cons rule rules ih =>
    rw [List.forall_mem_cons] at hev
    refine h.bind hev.1 fun m _ => Compat.ite ?_ (ih hev.2)
    exact h.bind (h.onRest _) fun o _ => Compat.ite (h.pure o) (ih hev.2)

theorem matchLoop_rel (h : LoopCompat env R find find' G Lists) {n n' : Nat} (hn : Fuel R n n')
    (chain : List Str) : R _ (matchLoop env find n chain) (matchLoop env find' n' chain) := by
  induction n generalizing n' chain with
  | zero =>
    rcases hn with rfl | ⟨-, hR⟩
    · exact h.stuck
    · exact hR _
  | succ n ih =>
    obtain ⟨m, rfl, hm⟩ := hn.succ
    refine h.current fun rules hrules => ?_
    refine h.bind (h.tryRules_rel fun r hr => h.ruleMatch_rel env hm true (h.lists hrules r hr)) ?_
    rintro (_ | _ | ⟨proxy, rule⟩) ho
    · exact h.pure _
    · exact h.pure _
    · refine Compat.ite (h.pure _) ?_
      exact h.bind (h.rematch (tryRules_rematch ho)) fun _ _ => ih hm _

end LoopCompat

end Mihomo.Tunnel
