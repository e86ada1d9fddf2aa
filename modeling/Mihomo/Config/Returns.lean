import Mihomo.Config.SubRules

/-!
# Matching over accepted sub-rules returns

The references between accepted lists cannot go on for ever, so the recursion through `matchSubRules`
ends. The only other recursion goes through rule providers: a classical provider rejects RULE-SET among
its rules, but not inside a logic rule, so a provider can name itself there.
-/

namespace Mihomo.Config
open Go Lib Rules Rules.Named List Ends

variable {M : Type}

section Loops

variable {R : Type} {ev : Nat → R → Matching M (Bool × Str)}

theorem ends_matchAny {rs : List R} (hev : ∀ r ∈ rs, ∀ s, Ends (fun n => ev n r) s) (s : Session M) :
    Ends (fun n => matchAny (ev n) rs) s := by
  induction rs generalizing s with
  | nil => exact ends_pure false s
  | cons r rs ih =>
    rw [forall_mem_cons] at hev
    exact (hev.1 s).bind fun m t _ => .ite _ (ends_pure true t) (ih hev.2 t)

theorem ends_matchAll {rs : List R} (hev : ∀ r ∈ rs, ∀ s, Ends (fun n => ev n r) s) (s : Session M) :
    Ends (fun n => matchAll (ev n) rs) s := by
  induction rs generalizing s with
  | nil => exact ends_pure true s
  | cons r rs ih =>
    rw [forall_mem_cons] at hev
    exact (hev.1 s).bind fun m t _ => .ite _ (ih hev.2 t) (ends_pure false t)

end Loops

theorem isSome_find [Conn M] (tables : Tables M) (s : Session M) : (tables.find s).1.isSome = true := by
  unfold Tables.find
  cases tables.look with
  | none => rfl
  | some look =>
    rw [Option.elim_some, Comp.ask]
    split_ifs <;> rfl

theorem ends_matchList {ev : Nat → ListRule M → Matching M (Bool × Str)}
    {sub : Nat → Str → Matching M (Bool × Str)} {pass : Str → Matching M Bool}
    {rs : List (ListRule M)} (hev : ∀ r ∈ rs, ∀ s, Ends (fun n => ev n r) s)
    (hsub : ∀ cond adapter, .subRules cond adapter ∈ rs → ∀ s, Ends (fun n => sub n adapter) s)
    (hpass : ∀ name s, ((pass name) s).1.isSome = true) (s : Session M) :
    Ends (fun n => Named.matchList (ev n) (sub n) pass rs) s := by
  induction rs generalizing s with
  | nil => exact ends_pure _ s
  | cons r rs ih =>
    rw [forall_mem_cons] at hev
    have hrest := ih hev.2 fun cond adapter hmem => hsub cond adapter (mem_cons_of_mem r hmem)
    refine (hev.1 s).bind fun m t _ =>
      .ite _ (.bind ?_ fun m' t' _ => .bind ?_ fun skip t'' _ => ?_) (hrest t)
    · cases r with
      | test rule => exact ends_pure m t
      | subRules cond adapter => exact hsub cond adapter mem_cons_self t
    · exact .ite _ (ends_const (hpass m'.2 t')) (ends_pure m'.1 t')
    · exact .ite _ (hrest t'') (ends_pure m' t'')

section Matching

variable [Conn M] {tables : Tables M}

def ProviderReturns (tables : Tables M) (provider : Str) : Prop :=
  ∀ adapter isSrc noResolveIP resolve s,
    Ends (fun n =>
      testMatch tables.providers tables.find n resolve (.ruleSet provider adapter isSrc noResolveIP)) s

def SubRulesReturn (tables : Tables M) : Prop :=
  ∀ cond adapter resolve s, Ends (fun n => Named.ruleMatch tables n resolve (.subRules cond adapter)) s

theorem ends_testMatch (t : Test M)
    (h : ∀ provider ∈ t.providerNames, ProviderReturns tables provider) (resolve : Bool)
    (s : Session M) : Ends (fun n => testMatch tables.providers tables.find n resolve t) s := by
  induction t using Test.induct generalizing resolve s with
  | other test adapter =>
    exact of_succ (.bind (ends_const rfl) fun m t _ => ends_pure (m, adapter) t)
  | process ps =>
    exact of_succ (.bind (ends_const (isSome_find tables s)) fun info t _ => ends_pure _ t)
  | uid uids adapter =>
    refine of_succ (.bind (ends_const (isSome_find tables s)) fun info t _ => ?_)
    exact .ite _ (ends_pure _ t) (ends_pure _ t)
  | not rule adapter ih =>
    exact of_succ (.bind (ih h resolve s) fun m t _ =>
      .ite _ (ends_pure _ t) (ends_pure _ t))
  | or rules adapter ih =>
    have hrules := fun r hr => ih r hr (fun p hp => h p (mem_providerNames hr hp)) resolve
    exact of_succ (.bind (ends_matchAny hrules s) fun m t _ =>
      .ite _ (ends_pure _ t) (ends_pure _ t))
  | and rules adapter ih =>
    have hrules := fun r hr => ih r hr (fun p hp => h p (mem_providerNames hr hp)) resolve
    exact of_succ (.bind (ends_matchAll hrules s) fun m t _ => ends_pure _ t)
  | ruleSet provider adapter isSrc noResolveIP =>
    exact h provider mem_cons_self adapter isSrc noResolveIP resolve s

def LeadsTo (providers : RuleProviders M) (target provider : Str) : Prop :=
  ∃ rules, providers provider = some rules ∧ ∃ r ∈ rules, target ∈ r.providerNames

theorem providerReturns_of_wellFounded (hwf : WellFounded (LeadsTo tables.providers)) (provider : Str) :
    ProviderReturns tables provider := by
  induction provider using hwf.induction with
  | _ provider ih =>
    intro adapter isSrc noResolveIP resolve s
    refine of_succ ?_
    simp only [testMatch]
    cases hrules : tables.providers provider with
    | none => exact ends_pure _ s
    | some rules =>
      have hany := fun resolve => ends_matchAny fun r hr =>
        ends_testMatch r (fun target htarget => ih target ⟨rules, hrules, r, hr, htarget⟩) resolve
      refine .ite _ (.bind (ends_const rfl) fun _ t _ => ?_) ?_
      · exact (hany false t).bind fun m u _ => .bind (ends_const rfl) fun _ w _ => ends_pure _ w
      · exact (hany _ s).bind fun m t _ => ends_pure _ t

theorem ends_matchSubRules (h : ∀ provider, ProviderReturns tables provider) {k : Nat} {name : Str}
    {arr : List Str}
    (hok : verifySubRuleCircularReferences tables.subRules k name arr = some (.ok ()))
    (resolve : Bool) (s : Session M) :
    Ends (fun n => Named.matchSubRules tables n resolve name) s := by
  induction k generalizing name arr s with
  | zero => cases hok
  | succ k ih =>
    have hsub : ∀ cond adapter, .subRules cond adapter ∈ tables.subRules.list name →
        ∀ s, Ends (fun n => Named.matchSubRules tables n resolve adapter) s := fun cond adapter hmem =>
      ih ((verify_ok_iff k name arr).mp hok adapter ⟨cond, hmem⟩).2.2
    refine of_succ (ends_matchList (fun r hr t => ?_) hsub (fun _ _ => rfl) s)
    cases r with
    | test rule =>
      simp only [ruleMatch_test]
      exact ends_testMatch rule (fun provider _ => h provider) resolve t
    | subRules cond adapter =>
      refine of_succ
        ((ends_testMatch cond (fun provider _ => h provider) resolve t).bind fun m u _ => ?_)
      exact .ite _ (hsub cond adapter hr u) (ends_pure _ u)

theorem subRulesReturn_iff {order : List Str} (horder : ∀ name, name ∈ order ↔ name ∈ tables.subRules)
    (hok : verifySubRule tables.subRules tables.subRules.keys.length order = some (.ok ())) :
    SubRulesReturn tables ↔ ∀ provider, ProviderReturns tables provider := by
  constructor
  · intro h provider adapter isSrc noResolveIP resolve s
    -- the RULE-SET rule stands as the condition of a SUB-RULE rule
    obtain ⟨n, hn⟩ := (h (.ruleSet provider adapter isSrc noResolveIP) [] resolve s).isSome
    have hsome := hn (n + 1) (Nat.le_succ n)
    refine ends_of_isSome (fun k => testMatch_extends tables.providers tables.find k resolve _)
      (n := n) ?_
    rw [Named.ruleMatch, Comp.bind_apply] at hsome
    generalize testMatch tables.providers tables.find n resolve
      (.ruleSet provider adapter isSrc noResolveIP) s = x at hsome
    obtain ⟨_ | m, t⟩ := x
    · cases hsome
    · rfl
  · intro h cond adapter resolve s
    refine of_succ
      ((ends_testMatch cond (fun provider _ => h provider) resolve s).bind fun m t _ =>
        .ite _ ?_ (ends_pure _ t))
    by_cases hmem : adapter ∈ tables.subRules
    · exact ends_matchSubRules h
        ((verifySubRule_ok_iff _ order).mp hok adapter ((horder adapter).mpr hmem)) resolve t
    · refine of_succ ?_
      have hnil : tables.subRules.list adapter = [] := by
        rw [SubRules.list, AList.lookup_eq_none.mpr hmem]
        rfl
      simp only [Named.matchSubRules, hnil]
      exact ends_pure _ t

end Matching

/-- The check of the sub-rules returns on every map, and accepts exactly those without unknown
lists and without circular references. Over the lists that `parseSubRules` accepts, matching a
SUB-RULE rule returns, in every session, exactly if matching the rule providers does. -/
theorem subRules_checked [Conn M] {ε : Type} (parse : Str → List Str → Except ε (List (ListRule M)))
    (raw : List (Str × List Str)) (providers : RuleProviders M) (proxies : Str → Option (Proxy M))
    (look : Option (Context M → ProcessInfo → ProcessInfo)) :
    (∀ (subRules : SubRules M) (order : List Str), order.Perm subRules.keys →
      (∃ r, ∀ n, subRules.keys.length ≤ n → verifySubRule subRules n order = some r) ∧
        (verifySubRule subRules subRules.keys.length order = some (.ok ()) ↔
          Closed subRules ∧ Acyclic subRules)) ∧
      ∀ order, order.Perm (raw.map Prod.fst) → parseSubRules parse raw order ≠ none ∧
        ∀ subRules, parseSubRules parse raw order = some (.ok subRules) → Acyclic subRules ∧
          (SubRulesReturn ⟨subRules, providers, proxies, look⟩ ↔
            ∀ provider, ProviderReturns ⟨subRules, providers, proxies, look⟩ provider) := by
  refine ⟨fun subRules order horder => ?_, fun order horder =>
    ⟨parseSubRules_returns horder, fun subRules hparse => ?_⟩⟩
  · have hmem : ∀ name, name ∈ order ↔ name ∈ subRules :=
      fun name => horder.mem_iff.trans AList.mem_keys.symm
    exact ⟨verifySubRule_returns hmem, verifySubRule_accepts_iff hmem⟩
  · obtain ⟨hmem, hok⟩ := parseSubRules_ok horder hparse
    exact ⟨((verifySubRule_accepts_iff hmem).mp hok).2, subRulesReturn_iff hmem hok⟩

def sampleParse (name : Str) (_ : List Str) : Except Unit (List (ListRule Unit)) :=
  if name = ascii "first" then .ok [.subRules (.other (fun _ _ => (true, ())) []) (ascii "second")]
  else .ok [.test (.other (fun _ _ => (true, ())) (ascii "DIRECT"))]

def sampleRaw : List (Str × List Str) := [(ascii "first", []), (ascii "second", [])]

def sampleSubRules : SubRules Unit :=
  (((∅ : SubRules Unit).insert (ascii "first") []).insert (ascii "second") [] |>.insert (ascii "first")
    [.subRules (.other (fun _ _ => (true, ())) []) (ascii "second")]).insert (ascii "second")
    [.test (.other (fun _ _ => (true, ())) (ascii "DIRECT"))]

theorem subRules_checked_two :
    parseSubRules sampleParse sampleRaw [ascii "second", ascii "first"] = some (.ok sampleSubRules) ∧
      Acyclic sampleSubRules ∧ SubRulesReturn ⟨sampleSubRules, fun _ => none, fun _ => none, none⟩ := by
  have hparse :
      parseSubRules sampleParse sampleRaw [ascii "second", ascii "first"] =
        some (.ok sampleSubRules) := rfl
  obtain ⟨hacyclic, hreturn⟩ :=
    ((subRules_checked sampleParse sampleRaw (fun _ => none) (fun _ => none) none).2
    [ascii "second", ascii "first"] (List.Perm.swap _ _ _)).2 sampleSubRules hparse
  refine ⟨hparse, hacyclic, hreturn.mpr (providerReturns_of_wellFounded ⟨fun _ => ⟨_, fun _ h => ?_⟩⟩)⟩
  obtain ⟨rules, hrules, -⟩ := h
  cases hrules

def selfProvider (name : Str) : Option (List (Test Unit)) :=
  if name = ascii "self" then some [.and [.ruleSet (ascii "self") [] false false] []] else none

def selfParse (_ : Str) (_ : List Str) : Except Unit (List (ListRule Unit)) :=
  .ok [.test (.ruleSet (ascii "self") (ascii "DIRECT") false false)]

theorem selfProvider_stuck (find : Matching Unit ProcessInfo) (n : Nat) (resolve : Bool)
    (adapter : Str) (s : Session Unit) :
    (testMatch selfProvider find n resolve (.ruleSet (ascii "self") adapter false false) s).1 =
      none := by
  induction n using Nat.twoStepInduction generalizing resolve adapter with
  | zero | one => rfl
  | more n ih _ =>
    exact Comp.bind_stuck (Comp.bind_stuck (Comp.bind_stuck (Comp.bind_stuck (ih _ []) _) _) _) _

/-- The list with the rule RULE-SET,self,DIRECT is accepted, and matching it does not return. -/
theorem selfProvider_not_returns :
    parseSubRules selfParse [(ascii "list", [ascii "RULE-SET,self,DIRECT"])] [ascii "list"] =
        some (.ok
          ((∅ : SubRules Unit).insert (ascii "list")
            [.test (.ruleSet (ascii "self") (ascii "DIRECT") false false)])) ∧
      ¬ SubRulesReturn ⟨(∅ : SubRules Unit).insert (ascii "list")
        [.test (.ruleSet (ascii "self") (ascii "DIRECT") false false)], selfProvider, fun _ => none,
          none⟩ := by
  refine ⟨rfl, fun h => ?_⟩
  obtain ⟨n, hn⟩ :=
    (h (.other (fun _ _ => (true, ())) []) (ascii "list") true ⟨⟨[], [], ()⟩, ⟨[], [], 0⟩, false⟩).isSome
  have hsome := hn (n + 3) (by omega)
  have hstuck :=
    selfProvider_stuck (Comp.read) (n + 1) true (ascii "DIRECT") ⟨⟨[], [], ()⟩, ⟨[], [], 0⟩, false⟩
  rw [Option.isSome_iff_ne_none] at hsome
  exact hsome (Comp.bind_stuck hstuck _)

end Mihomo.Config
