import Mihomo.Net.Addr
import Mihomo.Rules.Twice
import Mihomo.Tunnel.Match

/-!
# SUB-RULE against one pass over the flattened list

What a second evaluation of a nested list can learn from the first one is the address of the
destination, which lets a rule with `no-resolve` match. The source agrees with one pass over the
flattened lists exactly if no nested list of the family changes its mind in this way.
-/

namespace Mihomo.Tunnel
open Go Lib Net Rules

variable {M : Type} [Resolver M]

section Knowledge

variable (env : Env M) (owner : Owner)

def processOf (s : Session M) : ProcessInfo :=
  if s.pending then lookup owner (getRules env s.rest.specialRules) s.value else s.value

/-- Matching depends on the metadata and the process it will find, and learns the destination. -/
def knowledge : Learning (Context M) ProcessInfo (Context M × ProcessInfo) where
  key s := (s.rest, processOf env owner s)
  learn s := { s with rest := { s.rest with rest := Resolver.resolveIP s.rest.rest } }
  learn_congr {s t} h := by
    obtain ⟨hrest, hprocess⟩ := Prod.mk.inj h
    change (_, processOf env owner s) = (_, processOf env owner t)
    rw [hrest, hprocess]
  learn_learn s := by
    change (_, processOf env owner s) = (_, processOf env owner s)
    rw [Resolver.resolveIP_resolveIP]

variable {env owner} {resolve : Bool} {α : Type} {rs : List (Rule M)}

theorem key_onRest (f : Context M → α × M) (s : Session M) :
    (knowledge env owner).key (onRest f s).2 =
      ({ s.rest with rest := (f s.rest).2 }, processOf env owner s) := rfl

theorem oneWay_find : OneWay (knowledge env owner) resolve (findProcess env owner) := by
  have hfind (s : Session M) :
      (findProcess env owner s).1 = some (processOf env owner s) ∧
        (knowledge env owner).key (findProcess env owner s).2 = (knowledge env owner).key s := by
    cases hp : s.pending with
    | true =>
      rw [findProcess, Comp.ask_pending _ hp]
      simp [knowledge, processOf, hp]
    | false =>
      rw [findProcess, Comp.ask_answered _ hp]
      simp [processOf, hp]
  refine ⟨fun s => by rw [(hfind s).1]; rfl, fun {s t} hst => ⟨?_, ?_⟩, fun s => .inl (hfind s).2⟩
  · rw [(hfind s).1, (hfind t).1, (Prod.mk.inj hst).2]
  · rw [(hfind s).2, (hfind t).2, hst]

theorem oneWay_onRest {f : Context M → α × M}
    (hf : ∀ ctx, (f ctx).2 = ctx.rest ∨ resolve = true ∧ (f ctx).2 = Resolver.resolveIP ctx.rest) :
    OneWay (knowledge env owner) resolve (onRest f) := by
  refine ⟨fun _ => rfl, fun {s t} hst => ?_, fun s => ?_⟩
  · obtain ⟨hrest, hprocess⟩ := Prod.mk.inj hst
    rw [key_onRest, hrest, hprocess]
    exact ⟨by rw [onRest, Comp.act_apply, Comp.act_apply, hrest], rfl⟩
  · rw [Learning.Moves, key_onRest]
    rcases hf s.rest with h | ⟨hresolve, h⟩
    · rw [h]
      exact .inl rfl
    · rw [h]
      exact .inr ⟨hresolve, rfl⟩

theorem key_swap {s t : Session M} (hst : (knowledge env owner).key s = (knowledge env owner).key t) :
    (knowledge env owner).key (swap s).2 = (knowledge env owner).key (swap t).2 := by
  obtain ⟨hrest, hprocess⟩ := Prod.mk.inj hst
  rw [swap, key_onRest, key_onRest, hrest, hprocess]

theorem swap_swap (s : Session M) : (swap (swap s).2).2 = s := by
  simp [swap, onRest, Comp.act_apply, Resolver.swapSrcDst_swapSrcDst]

theorem oneWay_swapped {β : Type} {c : Matching M α} (h : OneWay (knowledge env owner) false c)
    (f : α → β) : OneWay (knowledge env owner) resolve (do swap; let a ← c; swap; pure (f a)) := by
  have hrun (s : Session M) : (do swap; let a ← c; swap; pure (f a) : Matching M β) s =
      ((c (swap s).2).1.map f, (swap (c (swap s).2).2).2) := by
    obtain ⟨a, u, hu⟩ := h.returned (swap s).2
    rw [hu]
    change (c >>= fun a => swap >>= fun _ => pure (f a)) (swap s).2 = _
    rw [bind_of_eq hu]
    rfl
  refine ⟨fun s => ?_, fun {s t} hst => ?_, fun s => .inl ?_⟩
  · rw [hrun, Option.isSome_map]
    exact h.returns _
  · obtain ⟨hresult, hend⟩ := h.congr (key_swap hst)
    rw [hrun, hrun, hresult]
    exact ⟨rfl, key_swap hend⟩
  · have hstays : (knowledge env owner).key (c (swap s).2).2 = (knowledge env owner).key (swap s).2 :=
      (h.moves _).resolve_right fun hmoves => Bool.false_ne_true hmoves.1
    have hback := key_swap hstays
    rw [swap_swap] at hback
    rwa [hrun]

section

variable
  (hrs : ∀ r ∈ rs, OneWay (knowledge env owner) resolve (r.eval (findProcess env owner) resolve))
include hrs

theorem oneWay_evalAny :
    OneWay (knowledge env owner) resolve (evalAny (findProcess env owner) resolve rs) := by
  induction rs with
  | nil => exact .pure false
  | cons r rs ih =>
    rw [List.forall_mem_cons] at hrs
    exact hrs.1.bind fun m => .ite (.pure true) (ih hrs.2)

theorem oneWay_evalAll :
    OneWay (knowledge env owner) resolve (evalAll (findProcess env owner) resolve rs) := by
  induction rs with
  | nil => exact .pure true
  | cons r rs ih =>
    rw [List.forall_mem_cons] at hrs
    exact hrs.1.bind fun m => .ite (ih hrs.2) (.pure false)

end

theorem oneWay_onDemand (resolves : Bool) (reads : Context M → Bool) :
    OneWay (knowledge env owner) resolve (onRest (onDemand resolves reads resolve)) := by
  apply oneWay_onRest
  intro ctx
  cases hboth : resolve && resolves with
  | false => exact .inl (if_neg (by simp [hboth]))
  | true =>
    rw [Bool.and_eq_true] at hboth
    exact .inr ⟨hboth.1, if_pos (by simp [hboth])⟩

theorem oneWay_eval {r : Rule M} (h : r.Plain) (resolve : Bool) :
    OneWay (knowledge env owner) resolve (r.eval (findProcess env owner) resolve) := by
  induction h generalizing resolve with
  | other resolves reads adapter =>
    exact (oneWay_onDemand resolves reads).bind fun m => .pure _
  | process ps => exact oneWay_find.bind fun info => .pure _
  | uid uids adapter => exact oneWay_find.bind fun info => .ite (.pure _) (.pure _)
  | not adapter hr ih =>
    exact (ih resolve).bind fun m => .ite (.pure _) (.pure _)
  | or adapter hrs ih =>
    exact (oneWay_evalAny fun r hr => ih r hr resolve).bind fun m => .ite (.pure _) (.pure _)
  | and adapter hrs ih =>
    exact (oneWay_evalAll fun r hr => ih r hr resolve).bind fun m => .pure _
  | ruleSet adapter isSrc noResolveIP hrs ih =>
    refine .ite ?_ ?_
    · exact oneWay_swapped (oneWay_evalAny fun r hr => ih r hr false) fun m => (m, adapter)
    · refine .bind
        (.weaken (oneWay_evalAny fun r hr => ih r hr (resolve && !noResolveIP)) ?_) fun m =>
          .pure _
      intro hboth
      rw [Bool.and_eq_true] at hboth
      exact hboth.1

end Knowledge

section Agreement

variable (env : Env M) (owner : Owner)

theorem reads (resolve : Bool) :
    Reads (knowledge env owner) resolve env (Rule.eval (findProcess env owner) resolve) where
  eval hr := oneWay_eval hr resolve
  skips _ := .ite (oneWay_onRest fun _ => .inl rfl) (.pure _)

def MatchesFlat (resolve : Bool) (name : Str) (items : Items M) : Prop :=
  ∀ guard : Rule M, guard.Plain → ∀ s : Session M, ∃ d t t',
    pass env (Rule.eval (findProcess env owner) resolve) (.nested guard items .nil) s = (some d, t) ∧
      EndsIn (fun n => ruleMatch env (findProcess env owner) n resolve (.subRules guard name)) s
        (verdict d) t'

variable {env owner} {resolve : Bool} {name : Str} {items : Items M}

theorem tends_subRules {guard : Rule M} (hguard : guard.Plain)
    (hitems : Flattens env (env.list name) items) :
    Tends (fun n => ruleMatch env (findProcess env owner) n resolve (.subRules guard name))
      (guarded (Rule.eval (findProcess env owner) resolve) guard
        (twice env (Rule.eval (findProcess env owner) resolve) items)) :=
  tends_guarded hguard (.of_succ hitems.tends_matchList)

theorem matchesFlat_of_stable (hitems : Flattens env (env.list name) items)
    (hfamily : ∀ {target : Str} {inner : Items M}, Flattens env (env.list target) inner →
      ∀ s, Stable env (Rule.eval (findProcess env owner) resolve) inner s) :
    MatchesFlat env owner resolve name items := by
  intro guard hguard s
  obtain ⟨e, ⟨adapter, hnot⟩ | henters⟩ := guard_cases (reads env owner resolve) hguard s
  · refine ⟨none, e, e, (nested_of_not hnot .nil).1, tends_subRules hguard hitems s _ _ ?_⟩
    rw [guarded, bind_of_eq hnot]
    rfl
  · obtain ⟨d, t, ht⟩ := (oneWay_pass (reads env owner resolve) hitems.plain).returned e
    obtain ⟨u, hu, _⟩ := hitems.twice_eq (reads env owner resolve) hfamily (hfamily hitems e) ht
    refine ⟨d, t, u, ?_, tends_subRules hguard hitems s _ _ ?_⟩
    · rw [pass_nested henters ht]
      cases d with
      | none | some => rfl
    · obtain ⟨adapter, hmatch⟩ := henters
      rw [guarded, bind_of_eq hmatch]
      exact hu

theorem enters_matching (s : Session M) :
    Enters (Rule.eval (findProcess env owner) resolve)
      (.other (onDemand false fun _ => true) []) s s := by
  refine ⟨[], ?_⟩
  cases resolve with
  | false | true => rfl

theorem agrees_of_matchesFlat (hitems : Flattens env (env.list name) items)
    (h : MatchesFlat env owner resolve name items) :
    Agrees env (Rule.eval (findProcess env owner) resolve) items := by
  intro s t d hpass
  have hguard : (Rule.other (onDemand false fun _ : Context M => true) []).Plain := .other false _ []
  obtain ⟨d', t', u, hflat, hends⟩ := h _ hguard s
  obtain ⟨r, w, hw⟩ := (oneWay_twice (reads env owner resolve) hitems.plain).returned s
  have henters : Enters (Rule.eval (findProcess env owner) resolve) _ s s := enters_matching s
  have hd : d' = d := by
    rw [pass_nested henters hpass] at hflat
    cases d with
    | none | some =>
      cases hflat
      rfl
  obtain ⟨adapter, hmatch⟩ := henters
  have hcode := tends_subRules hguard hitems s r w ((bind_of_eq hmatch _).trans hw)
  rw [hw, hcode.unique hends, hd]

/-- For every acyclic family of lists: SUB-RULE rules that name them match as one pass over the
flattened lists does, if and only if every list is stable while destinations can be resolved. -/
theorem subRules_flattened_iff {M : Type} [Resolver M] (env : Env M) (owner : Owner) (h : Family env) :
    ∃ flat : Str → Items M, (∀ name, Flattens env (env.list name) (flat name)) ∧
      ((∀ resolve name, MatchesFlat env owner resolve name (flat name)) ↔
        ∀ name s, Stable env (Rule.eval (findProcess env owner) true) (flat name) s) := by
  choose flat hflat using h.exists_flattens
  refine ⟨flat, hflat, fun hmatches name s => ?_, fun hstable resolve name => ?_⟩
  · have hagrees {target : Str} {inner : Items M} (hinner : Flattens env (env.list target) inner) :
        Agrees env (Rule.eval (findProcess env owner) true) inner := by
      rw [hinner.unique (hflat target)]
      exact agrees_of_matchesFlat (hflat target) (hmatches true target)
    exact (hflat name).stable (reads env owner true) hagrees (hagrees (hflat name)) s
  · refine matchesFlat_of_stable (hflat name) fun {target inner} hinner s => ?_
    cases resolve with
    | false => exact hinner.stable_of_still (reads env owner false) s
    | true =>
      rw [hinner.unique (hflat target)]
      exact hstable target s

end Agreement

/-! ### Metadata with addresses -/

/-- The addresses of a connection; `resolved` is the variable that `ResolveIP` sets, and `answer` what
the resolver says to `host`. -/
structure Metadata where
  host : Str
  srcIP : Addr
  dstIP : Addr
  udp : Bool
  resolved : Bool
  answer : Option Addr

def Metadata.resolveIP (m : Metadata) : Metadata :=
  if m.resolved = false ∧ m.host ≠ [] ∧ m.dstIP.isValid = false then
    { m with dstIP := m.answer.getD m.dstIP, resolved := true }
  else m

def Metadata.swapSrcDst (m : Metadata) : Metadata := { m with srcIP := m.dstIP, dstIP := m.srcIP }

instance : Resolver Metadata where
  swapSrcDst := Metadata.swapSrcDst
  isUDP m := m.udp
  resolveIP := Metadata.resolveIP
  resolveIP_resolveIP m := by
    by_cases h : m.resolved = false ∧ m.host ≠ [] ∧ m.dstIP.isValid = false
    · rw [Metadata.resolveIP, Metadata.resolveIP, if_pos h, if_neg]
      simp
    · have hsame : m.resolveIP = m := if_neg h
      rw [hsame, hsame]
  swapSrcDst_swapSrcDst _ := rfl

def withoutZone : Addr → Addr
  | .zero => .zero
  | .ip fam bits _ => .ip fam bits []

def ipcidr (ipnet : Prefix) (adapter : Str) (isSourceIP noResolveIP : Bool) : Rule Metadata :=
  .other (onDemand (!noResolveIP && !isSourceIP) fun ctx =>
    let ip := if isSourceIP then ctx.rest.srcIP else ctx.rest.dstIP
    ip.isValid && ipnet.contains (withoutZone ip)) adapter

def networkTCP (adapter : Str) : Rule Metadata :=
  .other (onDemand false fun ctx => !ctx.rest.udp) adapter

/-- A list `outer` whose only rule leads TCP connections on to a list `inner`. -/
def nestedLists (inner : List (Rule Metadata)) : Env Metadata where
  rules := []
  subRules name :=
    if name = ascii "outer" then some [.subRules (networkTCP []) (ascii "inner")]
    else if name = ascii "inner" then some inner
    else none
  proxies _ := none

variable {inner : List (Rule Metadata)}

theorem refers_nestedLists (hinner : ∀ r ∈ inner, r.Plain)
    {name target : Str} (h : Refers (nestedLists inner) name target) :
    name = ascii "outer" ∧ target = ascii "inner" := by
  obtain ⟨guard, hmem⟩ := h
  simp only [nestedLists, Env.list] at hmem
  split_ifs at hmem with houter hname
  · cases List.mem_singleton.mp hmem
    exact ⟨houter, rfl⟩
  · cases hinner _ hmem
  · cases hmem

theorem family_nestedLists (hinner : ∀ r ∈ inner, r.Plain) : Family (nestedLists inner) where
  finite := by
    apply Set.Finite.subset (Set.toFinite {ascii "outer", ascii "inner"})
    intro name hname
    change Option.isSome (if _ then _ else if _ then _ else _) = true at hname
    split_ifs at hname with houter hinner
    · exact .inl houter
    · exact .inr hinner
    · cases hname
  listed name r hr := by
    simp only [nestedLists, Env.list] at hr
    split_ifs at hr with houter hname
    · cases List.mem_singleton.mp hr
      exact .subRules _ (.other false _ [])
    · exact .plain (hinner r hr)
    · cases hr
  acyclic name h := by
    -- a reference leads from `outer` to `inner`
    obtain ⟨next, hfirst, _⟩ := Relation.TransGen.head'_iff.mp h
    obtain ⟨last, _, hlast⟩ := Relation.TransGen.tail'_iff.mp h
    have hnames := (refers_nestedLists hinner hfirst).1.symm.trans (refers_nestedLists hinner hlast).2
    exact absurd hnames (by decide)

def privateNet : Prefix := .mk .v4 (BitVec.ofNat 32 0x0A000000) ⟨8, by decide⟩

/-- A connection to a host in `privateNet` whose address is not known yet. -/
def toPrivateHost : Session Metadata where
  rest := ⟨[], [], ⟨ascii "host", .zero, .zero, false, false, some (.at .v4 0x0A000001)⟩⟩
  value := ⟨[], [], 0⟩
  pending := true

def resolvingOnly : List (Rule Metadata) := [ipcidr privateNet (ascii "B") false false]

theorem subRules_flattened_resolving :
    Family (nestedLists resolvingOnly) ∧
    ∃ flat : Str → Items Metadata,
      (∀ name, Flattens (nestedLists resolvingOnly) ((nestedLists resolvingOnly).list name)
        (flat name)) ∧
      ((∀ resolve name, MatchesFlat (nestedLists resolvingOnly) ⟨0, []⟩ resolve name (flat name)) ↔
        ∀ name s, Stable (nestedLists resolvingOnly)
          (Rule.eval (findProcess (nestedLists resolvingOnly) ⟨0, []⟩) true) (flat name) s) := by
  have hfamily : Family (nestedLists resolvingOnly) := by
    apply family_nestedLists
    intro r hr
    cases List.mem_singleton.mp hr
    exact .other _ _ _
  exact ⟨hfamily, subRules_flattened_iff _ ⟨0, []⟩ hfamily⟩

/-- The rules `IP-CIDR,10.0.0.0/8,A,no-resolve` and `IP-CIDR,10.0.0.0/8,B`. -/
def unresolvedFirst : List (Rule Metadata) :=
  [ipcidr privateNet (ascii "A") false true, ipcidr privateNet (ascii "B") false false]

def unresolvedFirstItems : Items Metadata :=
  .rule (ipcidr privateNet (ascii "A") false true)
    (.rule (ipcidr privateNet (ascii "B") false false) .nil)

theorem nested_noResolve_matches_second :
    Family (nestedLists unresolvedFirst) ∧
    Flattens (nestedLists unresolvedFirst) ((nestedLists unresolvedFirst).list (ascii "outer"))
      (.nested (networkTCP []) unresolvedFirstItems .nil) ∧
    (pass (nestedLists unresolvedFirst)
      (Rule.eval (findProcess (nestedLists unresolvedFirst) ⟨0, []⟩) true)
      (.nested (networkTCP []) (.nested (networkTCP []) unresolvedFirstItems .nil) .nil)
        toPrivateHost).1 =
        some (some (ascii "B")) ∧
    (ruleMatch (nestedLists unresolvedFirst) (findProcess (nestedLists unresolvedFirst) ⟨0, []⟩) 5 true
      (.subRules (networkTCP []) (ascii "outer")) toPrivateHost).1 = some (true, ascii "A") := by
  refine ⟨?_, ?_, ?_, ?_⟩
  · apply family_nestedLists
    intro r hr
    simp only [unresolvedFirst, List.mem_cons, List.not_mem_nil, or_false] at hr
    rcases hr with rfl | rfl <;> exact .other _ _ _
  · exact .nested (ascii "inner") (.other _ _ _) (.rule (.other _ _ _) (.rule (.other _ _ _) .nil)) .nil
  · decide
  · decide

end Mihomo.Tunnel
