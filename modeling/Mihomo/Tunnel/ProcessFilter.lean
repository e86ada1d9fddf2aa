import Mihomo.Tunnel.Match

/-!
# The candidate filter of the process lookup

`FindProcess` asks only for processes that some rule of the list in force at that moment may match; for
any other owner the process fields stay as they are. The filtered run is one that starts with the
owner's fields or with the fields left alone in place.
-/

namespace Mihomo.Tunnel
open Go Lib Rules List

variable {M : Type} [Conn M]

def Accepts (owner : Owner) (rules : List (Rule M)) : Prop :=
  ∃ r ∈ rules, r.hasProcessRule = true ∧ r.matchProcess owner.path = true

variable {owner : Owner} {env : Env M} {s : Session M} {fuel : Nat}
  {rules rs : List (Rule M)} {r : Rule M}

omit [Conn M] in
theorem lookup_of_accepts (h : Accepts owner rules)
    (info : ProcessInfo) : lookup owner rules info = owner.info := by
  obtain ⟨r, hr, hp, hm⟩ := h
  have hmem : r ∈ rules.filter Rule.hasProcessRule := mem_filter.mpr ⟨hr, hp⟩
  unfold lookup processMatcherForRules findProcessNameByAddrWithMatcher
  cases hf : rules.filter Rule.hasProcessRule with
  | nil => simp [hf] at hmem
  | cons r' rs =>
    rw [hf] at hmem
    have hany : ((r' :: rs).any fun r => r.matchProcess owner.path) = true :=
      any_eq_true.mpr ⟨r, hmem, hm⟩
    simp [hany]

omit [Conn M] in
theorem lookup_of_rejects (h : ¬ Accepts owner rules)
    (info : ProcessInfo) : lookup owner rules info = info := by
  unfold lookup processMatcherForRules findProcessNameByAddrWithMatcher
  cases hf : rules.filter Rule.hasProcessRule with
  | nil => rfl
  | cons r' rs =>
    have hany : ((r' :: rs).any fun r => r.matchProcess owner.path) = false := by
      rw [Bool.eq_false_iff, Ne, any_eq_true]
      rintro ⟨r, hr, hm⟩
      rw [← hf, mem_filter] at hr
      exact h ⟨r, hr.1, hr.2, hm⟩
    simp [hany]

omit [Conn M] in
theorem lookup_cases (owner : Owner) (rules : List (Rule M)) (info : ProcessInfo) :
    lookup owner rules info = info ∨ lookup owner rules info = owner.info := by
  by_cases h : Accepts owner rules
  · exact .inr (lookup_of_accepts h info)
  · exact .inl (lookup_of_rejects h info)

theorem matchLocked_lazy (env : Env M) (look : Context M → ProcessInfo → ProcessInfo) (fuel : Nat) :
    Lazy (matchLocked env (Comp.ask look) fuel) (matchLocked env Comp.read fuel) :=
  (LoopCompat.ofFind .pure .stuck .bind (fun _ => .act _)
    (.ask look) (fun _ => .act _)).matchLoop_rel (.inl rfl) []

theorem matchLocked_preserves {find : Matching M ProcessInfo}
    {I : Session M → Prop} (hfind : Preserves I find)
    (hrest : ∀ {α : Type} (f : Context M → α × M), Preserves I (onRest f))
    (hrematch : ∀ {a}, Rematches env a → Preserves I (applyMetadata a)) (fuel : Nat) :
    Preserves I (matchLocked env find fuel) := by
  have h : LoopCompat env (fun _ c _ => Preserves I c) find find (fun _ => True) (fun _ => True) :=
    .ofFind (fun _ _ hs => hs) (fun _ hs => hs) .bind hrest hfind hrematch
  exact h.matchLoop_rel (.inl rfl) []

theorem matchLocked_value_cases (env : Env M) (owner : Owner) (fuel : Nat) (s : Session M) :
    (matchLocked env (findProcess env owner) fuel s).2.value = s.value ∨
      (matchLocked env (findProcess env owner) fuel s).2.value = owner.info := by
  refine matchLocked_preserves (I := fun t => t.value = s.value ∨ t.value = owner.info)
    (fun t ht => ?_) (fun f t ht => ht) (fun _ t ht => ht) fuel s (.inl rfl)
  cases hp : t.pending with
  | true =>
    rw [findProcess, Comp.ask_pending _ hp]
    rcases lookup_cases owner (getRules env t.rest.specialRules) t.value with h | h
    · exact ht.imp h.trans h.trans
    · exact .inr h
  | false =>
    rw [findProcess, Comp.ask_answered _ hp]
    exact ht

theorem matchLocked_unfiltered_settled (env : Env M) (owner : Owner) (fuel : Nat)
    (hs : s.pending = true) :
    (matchLocked env (findProcessUnfiltered owner) fuel s).2.Settled owner.info := by
  refine matchLocked_preserves
    (fun t ht => ?_) (fun f t ht => ht) (fun _ t ht => ht) fuel s (.inl hs)
  cases hp : t.pending with
  | true =>
    rw [findProcessUnfiltered, Comp.ask_pending _ hp]
    exact .inr rfl
  | false =>
    rw [findProcessUnfiltered, Comp.ask_answered _ hp]
    exact ht

def Unhindered (env : Env M) (owner : Owner) (fuel : Nat) (s : Session M) : Prop :=
  (matchLocked env (findProcess env owner) fuel s).2.pending = s.pending ∨
    (matchLocked env (findProcess env owner) fuel s).2.value = owner.info

def decisionWith (env : Env M) (fuel : Nat) (s : Session M) (info : ProcessInfo) :
    Option (Decision M) :=
  (matchLocked env Comp.read fuel { s with value := info }).1

theorem pending_of_hindered (h : ¬ Unhindered env owner fuel s) : s.pending = true := by
  by_contra hs
  rw [Bool.not_eq_true] at hs
  exact h (.inl (((matchLocked_lazy env _ fuel).keeps s hs).1.trans hs.symm))

theorem unfiltered_eq (hs : s.pending = true) :
    (matchLocked env (findProcessUnfiltered owner) fuel s).1 = decisionWith env fuel s owner.info :=
  (matchLocked_lazy env _ fuel).result_eq (matchLocked_unfiltered_settled env owner fuel hs)

theorem filtered_eq_of_hindered (h : ¬ Unhindered env owner fuel s) :
    (matchLocked env (findProcess env owner) fuel s).1 = decisionWith env fuel s s.value := by
  have hv := (matchLocked_value_cases env owner fuel s).resolve_right fun hv => h (.inr hv)
  exact (matchLocked_lazy env _ fuel).result_eq (.inr hv)

theorem run_eq_of_answered (look : Context M → ProcessInfo → ProcessInfo) (hs : s.pending = false) :
    (matchLocked env (Comp.ask look) fuel s).1 = decisionWith env fuel s s.value :=
  (matchLocked_lazy env look fuel).result_eq (.inr ((matchLocked_lazy env look fuel).keeps s hs).2)

theorem filtered_eq_of_unhindered (h : Unhindered env owner fuel s) :
    (matchLocked env (findProcess env owner) fuel s).1 =
      (matchLocked env (findProcessUnfiltered owner) fuel s).1 := by
  cases hs : s.pending with
  | false => exact (run_eq_of_answered _ hs).trans (run_eq_of_answered _ hs).symm
  | true =>
    rw [unfiltered_eq hs]
    exact (matchLocked_lazy env _ fuel).result_eq (h.imp_left fun hp => hp.trans hs)

section Rematch

/-! A rematch after the lookup: the first list has no rule for the browser, so the
filter leaves the fields empty; the list that the rematch selects has one. -/

def named (name : String) (type : AdapterType) (target : Option Str) : Proxy Unit :=
  ⟨⟨ascii name, type, true, none, target⟩, fun _ => []⟩

def processName (pattern adapter : String) : Rule Unit :=
  .process ⟨ascii pattern, ascii adapter, .processName, fun _ => false⟩

def matchRule (adapter : String) : Rule Unit := .other (fun _ _ => (true, ())) (ascii adapter)

def rematchEnv : Env Unit where
  rules := [processName "foo" "DIRECT", matchRule "AGAIN"]
  subRules name :=
    if name = ascii "browser" then some [processName "chrome" "PROXY", matchRule "DIRECT"] else none
  proxies name :=
    if name = ascii "AGAIN" then some (named "AGAIN" .rematch (some (ascii "browser")))
    else if name = ascii "PROXY" then some (named "PROXY" .other none)
    else if name = ascii "DIRECT" then some (named "DIRECT" .other none)
    else none

def chrome : Owner := ⟨1000, ascii "/usr/bin/chrome"⟩

def fresh : Session Unit := ⟨⟨[], [], ()⟩, ⟨[], [], 0⟩, true⟩

def chosenName (d : Option (Decision Unit)) : Option Str := d.bind fun d => d.1.map Adapter.name

end Rematch

end Mihomo.Tunnel
