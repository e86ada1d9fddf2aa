import Mihomo.Lib.Run
import Mihomo.Provider.Override

/-!
# The parser of a provider (adapter/provider/provider.go, NewProxiesParser)

A parser goes over the mappings once for each filter, so that the proxies come in the order of the
filters. A mapping is taken when its name passes and has not been taken before; it is then changed in
place, and a later pass reads the changed mapping.

The source returns the proxies only. The model keeps the index of the mapping with each of them.
-/

namespace Mihomo.Provider
open Go Lib List Option
variable {P : Type}

/-- What the closure of `NewProxiesParser` holds. A regular expression is what it matches. -/
structure Parser (P : Type) where
  filter : Str
  filterRegs : List (Str → Bool)
  excludeFilterRegs : List (Str → Bool)
  excludeTypeArray : List Str
  dialerProxy : Str
  override : Override
  parseProxy : Mapping → Except Str P

def compileAll (compile : Str → Except Str (Str → Bool)) (filters : Str) :
    Except Str (List (Str → Bool)) :=
  (filters.splitOn 0x60).mapM compile

def newProxiesParser (compile : Str → Except Str (Str → Bool)) (parseProxy : Mapping → Except Str P)
    (filter excludeFilter excludeType dialerProxy : Str) (override : Override) :
    Except Str (Parser P) := do
  let excludeTypeArray := if excludeType = [] then [] else excludeType.splitOn 0x7C
  let excludeFilterRegs ← if excludeFilter = [] then .ok [] else compileAll compile excludeFilter
  let filterRegs ← compileAll compile filter
  .ok ⟨filter, filterRegs, excludeFilterRegs, excludeTypeArray, dialerProxy, override, parseProxy⟩

structure Progress (P : Type) where
  mappings : List Mapping
  proxiesSet : List Str := []
  proxies : List (Nat × P) := []

namespace Parser

def typePasses (p : Parser P) (m : Mapping) : Bool :=
  p.excludeTypeArray.isEmpty ||
    match m.text "type" with
    | some type => !p.excludeTypeArray.any (equalFold type)
    | none => false

def candidate (p : Parser P) (reg : Str → Bool) (m : Mapping) : Option Str :=
  if p.typePasses m then
    m.name.filter fun name =>
      !p.excludeFilterRegs.any (fun exclude => exclude name) && (p.filter.isEmpty || reg name)
  else none

def change (p : Parser P) (m : Mapping) : Except Error Mapping :=
  p.override.apply
    (if p.dialerProxy = [] then m else m.insert (ascii "dialer-proxy") (.string p.dialerProxy))

def visit (p : Parser P) (reg : Str → Bool) (s : Progress P) (idx : Nat) :
    Except Error (Progress P) :=
  match s.mappings[idx]? with
  | none => .ok s
  | some m =>
    match p.candidate reg m with
    | none => .ok s
    | some name =>
      if name ∈ s.proxiesSet then .ok s
      else
        match p.change m with
        | .error err => .error (.override idx err)
        | .ok m' =>
          match p.parseProxy m' with
          | .error err => .error (.proxy idx err)
          | .ok proxy =>
            .ok ⟨s.mappings.set idx m', name :: s.proxiesSet, s.proxies ++ [(idx, proxy)]⟩

def pass (p : Parser P) (s : Progress P) (reg : Str → Bool) : Except Error (Progress P) :=
  exec (p.visit reg) s (range s.mappings.length)

def parse (p : Parser P) (ms : List Mapping) : Except Error (List (Nat × P)) :=
  match exec p.pass { mappings := ms } p.filterRegs with
  | .error err => .error err
  | .ok s =>
    if s.proxies.isEmpty then .error (if p.filter.isEmpty then .noProxy else .noMatch)
    else .ok s.proxies

/-! ### What the parser is for -/

def first (p : Parser P) (m : Mapping) : Option Nat :=
  p.filterRegs.findIdx? fun reg => (p.candidate reg m).isSome

def isFirst (p : Parser P) (ms : List Mapping) (f i : Nat) : Bool := ms[i]?.bind p.first = some f

def selected (p : Parser P) (ms : List Mapping) : List Nat :=
  (range p.filterRegs.length).flatMap fun f => (range ms.length).filter (p.isFirst ms f)

def Exact (p : Parser P) (ms : List Mapping) (proxies : List (Nat × P)) : Prop :=
  proxies.map Prod.fst = p.selected ms ∧
    ∀ r ∈ proxies, ∃ m m', ms[r.1]? = some m ∧ p.change m = .ok m' ∧ p.parseProxy m' = .ok r.2

/-- A changed mapping is taken by no later filter: it does not pass, or another mapping has been taken
under its new name. -/
def Settled (p : Parser P) (ms : List Mapping) : Prop :=
  ∀ {i m f m' g reg name}, ms[i]? = some m → p.first m = some f → p.change m = .ok m' → f < g →
    p.filterRegs[g]? = some reg → p.candidate reg m' = some name →
    ∃ j k, (k < g ∨ k = g ∧ j < i) ∧ p.isFirst ms k j ∧ ms[j]?.bind Mapping.name = some name

end Parser

def DistinctNames (ms : List Mapping) : Prop :=
  ∃ names : List Str, ms.map Mapping.name = names.map some ∧ names.Nodup

theorem DistinctNames.eq {ms : List Mapping} (h : DistinctNames ms) {i j : Nat} {name : Str}
    (hi : ms[i]?.bind Mapping.name = some name) (hj : ms[j]?.bind Mapping.name = some name) :
    i = j := by
  obtain ⟨names, hnames, hnodup⟩ := h
  have hget : ∀ k : Nat, ms[k]?.bind Mapping.name = names[k]? := by
    intro k
    have heq : (ms.map Mapping.name)[k]? = (names.map some)[k]? := by rw [hnames]
    cases hk : ms[k]? with
    | none =>
      cases hk' : names[k]? with
      | none => rfl
      | some name => simp [hk, hk'] at heq
    | some m =>
      cases hk' : names[k]? with
      | none => simp [hk, hk'] at heq
      | some name => simpa [hk, hk'] using heq
  rw [hget] at hi hj
  have hlt := (List.getElem?_eq_some_iff.mp hi).1
  exact (List.getElem?_inj hlt hnodup).mp (hi.trans hj.symm)

namespace Parser

variable {p : Parser P} {ms : List Mapping}
  {m : Mapping} {reg : Str → Bool} {g f i : Nat} {s t : Progress P}

theorem name_of_candidate {name : Str}
    (h : p.candidate reg m = some name) : m.name = some name := by
  unfold candidate at h
  split at h
  · exact (filter_eq_some_iff.mp h).1
  · cases h

theorem first_le (hreg : p.filterRegs[g]? = some reg)
    (h : (p.candidate reg m).isSome) : ∃ f ≤ g, p.first m = some f := by
  obtain ⟨hlt, rfl⟩ := List.getElem?_eq_some_iff.mp hreg
  cases hfirst : p.first m with
  | none =>
    have hnone := findIdx?_eq_none_iff.mp hfirst _ (getElem_mem hlt)
    rw [h] at hnone
    cases hnone
  | some f =>
    refine ⟨f, ?_, rfl⟩
    obtain ⟨_, _, hbefore⟩ := findIdx?_eq_some_iff_getElem.mp hfirst
    by_contra hgt
    exact hbefore g (by omega) h

theorem candidate_of_first (h : p.first m = some f)
    (hreg : p.filterRegs[f]? = some reg) : (p.candidate reg m).isSome := by
  obtain ⟨hlt, hf, -⟩ := findIdx?_eq_some_iff_getElem.mp h
  obtain ⟨_, rfl⟩ := List.getElem?_eq_some_iff.mp hreg
  exact hf

/-! ### What has been taken before a visit -/

def before (p : Parser P) (ms : List Mapping) (g i : Nat) : List Nat :=
  ((range g).flatMap fun f => (range ms.length).filter (p.isFirst ms f)) ++
    (range i).filter (p.isFirst ms g)

theorem isFirst_iff : p.isFirst ms f i ↔ ∃ m, ms[i]? = some m ∧ p.first m = some f := by
  rw [isFirst, decide_eq_true_iff, bind_eq_some_iff]

theorem isFirst_inj (hf : p.isFirst ms f i) (hg : p.isFirst ms g i) : f = g := by
  rw [isFirst, decide_eq_true_iff] at hf hg
  exact some.inj (hf.symm.trans hg)

theorem lt_of_isFirst (h : p.isFirst ms f i) : i < ms.length := by
  obtain ⟨m, hm, -⟩ := isFirst_iff.mp h
  exact (List.getElem?_eq_some_iff.mp hm).1

theorem mem_before {j : Nat} :
    j ∈ p.before ms g i ↔ ∃ f, (f < g ∨ f = g ∧ j < i) ∧ p.isFirst ms f j := by
  simp only [before, mem_append, mem_flatMap, mem_filter, mem_range]
  constructor
  · rintro (⟨f, hf, -, h⟩ | ⟨hj, h⟩)
    · exact ⟨f, .inl hf, h⟩
    · exact ⟨g, .inr ⟨rfl, hj⟩, h⟩
  · rintro ⟨f, hf | ⟨rfl, hj⟩, h⟩
    · exact .inl ⟨f, hf, lt_of_isFirst h, h⟩
    · exact .inr ⟨hj, h⟩

theorem before_succ (g i : Nat) :
    p.before ms g (i + 1) = p.before ms g i ++ if p.isFirst ms g i then [i] else [] := by
  rw [before, before, range_succ, filter_append, append_assoc, filter_singleton, Bool.cond_eq_ite]

theorem before_length (g : Nat) : p.before ms g ms.length = p.before ms (g + 1) 0 := by
  simp [before, range_succ]

theorem nodup_before (g : Nat) : (p.before ms g 0).Nodup := by
  induction g with
  | zero => simp [before]
  | succ g ih =>
    rw [← before_length]
    refine .append (by simpa [before] using ih) (nodup_range.filter _) ?_
    intro j hj hj'
    rw [mem_filter] at hj'
    have hmem : j ∈ p.before ms g 0 := by simpa [before] using hj
    obtain ⟨f, hf, hfirst⟩ := mem_before.mp hmem
    have heq := isFirst_inj hfirst hj'.2
    omega

theorem selected_eq_before : p.selected ms = p.before ms p.filterRegs.length 0 := by
  simp [selected, before]

structure Taken (p : Parser P) (ms : List Mapping) (g i : Nat) (s : Progress P) : Prop where
  proxies : s.proxies.map Prod.fst = p.before ms g i
  parsed : ∀ r ∈ s.proxies,
    ∃ m m', ms[r.1]? = some m ∧ p.change m = .ok m' ∧ p.parseProxy m' = .ok r.2
  length : s.mappings.length = ms.length
  changed : ∀ {j m}, ms[j]? = some m → j ∈ p.before ms g i →
    ∃ m', p.change m = .ok m' ∧ s.mappings[j]? = some m'
  unchanged : ∀ {j m}, ms[j]? = some m → j ∉ p.before ms g i → s.mappings[j]? = some m
  names : ∀ {name}, name ∈ s.proxiesSet ↔
    ∃ j ∈ p.before ms g i, ms[j]?.bind Mapping.name = some name

def Skips (p : Parser P) (ms : List Mapping) (g i : Nat) : Prop :=
  ∀ {m f m' reg name}, ms[i]? = some m → p.first m = some f → p.change m = .ok m' → f < g →
    p.filterRegs[g]? = some reg → p.candidate reg m' = some name →
    ∃ j ∈ p.before ms g i, ms[j]?.bind Mapping.name = some name

theorem visit_cases (hm : s.mappings[i]? = some m) (h : p.visit reg s i = .ok t) :
    t = s ∧ (∀ name, p.candidate reg m = some name → name ∈ s.proxiesSet) ∨
      ∃ name m' proxy, p.candidate reg m = some name ∧ name ∉ s.proxiesSet ∧ p.change m = .ok m' ∧
        p.parseProxy m' = .ok proxy ∧
        t = ⟨s.mappings.set i m', name :: s.proxiesSet, s.proxies ++ [(i, proxy)]⟩ := by
  simp only [visit, hm] at h
  cases hname : p.candidate reg m with
  | none =>
    simp only [hname, Except.ok.injEq] at h
    exact .inl ⟨h.symm, fun name hsome => by cases hsome⟩
  | some name =>
    simp only [hname] at h
    split at h
    next hmem =>
      cases h
      refine .inl ⟨rfl, fun name' heq => ?_⟩
      cases heq
      exact hmem
    next hmem =>
      split at h
      · cases h
      next m' hchange =>
        split at h
        · cases h
        next proxy hparse =>
          cases h
          exact .inr ⟨name, m', proxy, rfl, hmem, hchange, hparse, rfl⟩

theorem Taken.skip (h : p.Taken ms g i s) (hfirst : ¬ p.isFirst ms g i) :
    p.Taken ms g (i + 1) s := by
  have heq : p.before ms g (i + 1) = p.before ms g i := by
    rw [before_succ, if_neg hfirst, append_nil]
  exact ⟨heq ▸ h.proxies, h.parsed, h.length, heq ▸ h.changed, heq ▸ h.unchanged, heq ▸ h.names⟩

theorem Taken.take (h : p.Taken ms g i s) (hfirst : p.isFirst ms g i)
    {m' : Mapping} {name : Str} {proxy : P} (hm : ms[i]? = some m) (hname : m.name = some name)
    (hchange : p.change m = .ok m') (hparse : p.parseProxy m' = .ok proxy) :
    p.Taken ms g (i + 1)
      ⟨s.mappings.set i m', name :: s.proxiesSet, s.proxies ++ [(i, proxy)]⟩ := by
  have hlt : i < s.mappings.length := by
    rw [h.length]
    exact lt_of_isFirst hfirst
  have heq : p.before ms g (i + 1) = p.before ms g i ++ [i] := by rw [before_succ, if_pos hfirst]
  have hmem : ∀ {j}, j ∈ p.before ms g (i + 1) ↔ j ∈ p.before ms g i ∨ j = i := by
    intro j
    rw [heq, mem_append, mem_singleton]
  constructor
  · rw [heq, map_append, h.proxies]
    rfl
  · refine forall_mem_append.mpr ⟨h.parsed, forall_mem_singleton.mpr ?_⟩
    exact ⟨m, m', hm, hchange, hparse⟩
  · rw [length_set, h.length]
  · intro j mj hmj hj
    by_cases hji : i = j
    · subst hji
      obtain rfl : m = mj := some.inj (hm.symm.trans hmj)
      exact ⟨m', hchange, getElem?_set_self hlt⟩
    · obtain ⟨mj', hchanged, hget⟩ := h.changed hmj ((hmem.mp hj).resolve_right (Ne.symm hji))
      exact ⟨mj', hchanged, (getElem?_set_ne hji).trans hget⟩
  · intro j mj hmj hj
    have hji : i ≠ j := fun heq => hj (hmem.mpr (.inr heq.symm))
    exact (getElem?_set_ne hji).trans (h.unchanged hmj fun hmem' => hj (hmem.mpr (.inl hmem')))
  · intro name'
    rw [mem_cons, h.names]
    constructor
    · rintro (rfl | ⟨j, hj, hnamej⟩)
      · exact ⟨i, hmem.mpr (.inr rfl), by rw [hm]; exact hname⟩
      · exact ⟨j, hmem.mpr (.inl hj), hnamej⟩
    · rintro ⟨j, hj, hnamej⟩
      rcases hmem.mp hj with hj | rfl
      · exact .inr ⟨j, hj, hnamej⟩
      · rw [hm] at hnamej
        exact .inl (some.inj (hnamej.symm.trans hname))

theorem Taken.visit (hnames : DistinctNames ms) (hreg : p.filterRegs[g]? = some reg)
    (hi : i < ms.length) (h : p.Taken ms g i s) (hvisit : p.visit reg s i = .ok t) :
    p.Skips ms g i ∧ p.Taken ms g (i + 1) t ∨
      ¬ p.Skips ms g i ∧ ¬ (t.proxies.map Prod.fst).Nodup := by
  obtain ⟨m, hm⟩ : ∃ m, ms[i]? = some m := ⟨_, getElem?_eq_getElem hi⟩
  by_cases hmem : i ∈ p.before ms g i
  · -- A second visit reads the changed mapping.
    obtain ⟨f, hf, hfirst⟩ := mem_before.mp hmem
    obtain ⟨_, hm', hfirst⟩ := isFirst_iff.mp hfirst
    obtain rfl : m = _ := some.inj (hm.symm.trans hm')
    have hfg : f < g := by omega
    have hnot : ¬ p.isFirst ms g i := by
      intro hg
      have := isFirst_inj hg (isFirst_iff.mpr ⟨m, hm, hfirst⟩)
      omega
    obtain ⟨m', hchange, hget⟩ := h.changed hm hmem
    rcases visit_cases hget hvisit with ⟨rfl, hseen⟩ | ⟨name, m'', proxy, hname, hnew, -, -, rfl⟩
    · refine .inl ⟨?_, h.skip hnot⟩
      intro m₁ f₁ m₁' reg₁ name hm₁ _ hchange₁ _ hreg₁ hname
      cases hm.symm.trans hm₁
      cases hchange.symm.trans hchange₁
      cases hreg.symm.trans hreg₁
      exact h.names.mp (hseen name hname)
    · refine .inr ⟨fun hskips => hnew (h.names.mpr (hskips hm hfirst hchange hfg hreg hname)), ?_⟩
      rw [map_append, h.proxies]
      intro hnodup
      exact (nodup_append.mp hnodup).2.2 i hmem i mem_cons_self rfl
  · have hskips : p.Skips ms g i := by
      intro m₁ f₁ m₁' reg₁ name hm₁ hfirst _ hlt _ _
      exact absurd (mem_before.mpr ⟨f₁, .inl hlt, isFirst_iff.mpr ⟨m₁, hm₁, hfirst⟩⟩) hmem
    have hget := h.unchanged hm hmem
    rcases visit_cases hget hvisit with ⟨rfl, hseen⟩ | ⟨name, m', proxy, hname, -, hchange, hparse, rfl⟩
    · refine .inl ⟨hskips, h.skip fun hfirst => ?_⟩
      obtain ⟨_, hm', hfirst⟩ := isFirst_iff.mp hfirst
      obtain rfl : m = _ := some.inj (hm.symm.trans hm')
      obtain ⟨name, hname⟩ := isSome_iff_exists.mp (candidate_of_first hfirst hreg)
      -- The name of a mapping that has not been taken is not in the set.
      obtain ⟨j, hj, hnamej⟩ := h.names.mp (hseen name hname)
      have hnamei : ms[i]?.bind Mapping.name = some name := by
        rw [hm]
        exact name_of_candidate hname
      exact hmem (hnames.eq hnamei hnamej ▸ hj)
    · refine .inl ⟨hskips, h.take ?_ hm (name_of_candidate hname) hchange hparse⟩
      obtain ⟨f, hf, hfirst⟩ := first_le hreg (isSome_iff_exists.mpr ⟨name, hname⟩)
      have hisFirst := isFirst_iff.mpr ⟨m, hm, hfirst⟩
      rcases Nat.lt_or_eq_of_le hf with hlt | rfl
      · exact absurd (mem_before.mpr ⟨f, .inl hlt, hisFirst⟩) hmem
      · exact hisFirst

theorem visit_not_nodup (h : ¬ (s.proxies.map Prod.fst).Nodup) (hvisit : p.visit reg s i = .ok t) :
    ¬ (t.proxies.map Prod.fst).Nodup := by
  cases hm : s.mappings[i]? with
  | none =>
    simp only [Parser.visit, hm, Except.ok.injEq] at hvisit
    rwa [← hvisit]
  | some m =>
    rcases visit_cases hm hvisit with ⟨rfl, -⟩ | ⟨name, m', proxy, -, -, -, -, rfl⟩
    · exact h
    · rw [map_append]
      exact fun hnodup => h (nodup_append.mp hnodup).1

theorem pass_not_nodup (h : ¬ (s.proxies.map Prod.fst).Nodup) (hpass : p.pass s reg = .ok t) :
    ¬ (t.proxies.map Prod.fst).Nodup :=
  (always_of_invariant (fun s => ¬ (s.proxies.map Prod.fst).Nodup) visit_not_nodup
    (fun h => h) h _).last hpass

theorem Taken.pass (hnames : DistinctNames ms) (hreg : p.filterRegs[g]? = some reg)
    (h : p.Taken ms g 0 s) (hpass : p.pass s reg = .ok t) :
    (∀ i < ms.length, p.Skips ms g i) ∧ p.Taken ms (g + 1) 0 t ∨
      ¬ (∀ i < ms.length, p.Skips ms g i) ∧ ¬ (t.proxies.map Prod.fst).Nodup := by
  unfold Parser.pass at hpass
  rw [h.length] at hpass
  have hloop := exec_dichotomy
   
    (fun {i j s t} hj hs hvisit => by
      obtain ⟨hlt, rfl⟩ := List.getElem?_eq_some_iff.mp hj
      rw [length_range] at hlt
      rw [getElem_range] at hvisit
      rw [Nat.zero_add] at hs ⊢
      exact hs.visit hnames hreg hlt hvisit) visit_not_nodup h hpass
  rw [length_range] at hloop
  simp only [Nat.zero_add] at hloop
  rcases hloop with ⟨hall, ht⟩ | ⟨⟨i, hi, hbad⟩, ht⟩
  · refine .inl ⟨hall, ?_⟩
    have heq : p.before ms g ms.length = p.before ms (g + 1) 0 := before_length g
    exact ⟨heq ▸ ht.proxies, ht.parsed, ht.length, heq ▸ ht.changed, heq ▸ ht.unchanged, heq ▸ ht.names⟩
  · exact .inr ⟨fun hall => hbad (hall i hi), ht⟩

theorem settled_iff :
    p.Settled ms ↔ ∀ g < p.filterRegs.length, ∀ i < ms.length, p.Skips ms g i := by
  constructor
  · intro h g _ i _ m f m' reg name hm hfirst hchange hlt hreg hname
    obtain ⟨j, k, hk, hj, hnamej⟩ := h hm hfirst hchange hlt hreg hname
    exact ⟨j, mem_before.mpr ⟨k, hk, hj⟩, hnamej⟩
  · intro h i m f m' g reg name hm hfirst hchange hlt hreg hname
    have hg := (List.getElem?_eq_some_iff.mp hreg).1
    have hi := (List.getElem?_eq_some_iff.mp hm).1
    obtain ⟨j, hj, hnamej⟩ := h g hg i hi hm hfirst hchange hlt hreg hname
    obtain ⟨k, hk, hj⟩ := mem_before.mp hj
    exact ⟨j, k, hk, hj, hnamej⟩

theorem exec_pass (hnames : DistinctNames ms)
    (hrun : exec p.pass { mappings := ms } p.filterRegs = .ok s) :
    p.Settled ms ∧ p.Taken ms p.filterRegs.length 0 s ∨
      ¬ p.Settled ms ∧ ¬ (s.proxies.map Prod.fst).Nodup := by
  have hstart : p.Taken ms 0 0 { mappings := ms } := by
    constructor
    · rfl
    · intro r hr
      cases hr
    · rfl
    · intro j m _ hj
      cases hj
    · intro j m hm _
      exact hm
    · intro name
      constructor
      · intro h
        cases h
      · rintro ⟨j, hj, -⟩
        cases hj
  have hloop := exec_dichotomy (I := fun g => p.Taken ms g 0)
   
    (fun {g reg s t} hreg hs hpass => by
      rw [Nat.zero_add] at hs ⊢
      exact hs.pass hnames hreg hpass) pass_not_nodup hstart hrun
  simp only [Nat.zero_add] at hloop
  rw [settled_iff]
  rcases hloop with ⟨hall, ht⟩ | ⟨⟨g, hg, hbad⟩, ht⟩
  · exact .inl ⟨hall, ht⟩
  · exact .inr ⟨fun hall => hbad (hall g hg), ht⟩

/-- The parser gives one proxy for each selected mapping, in the order of the filters, each changed
once, if and only if no changed mapping is taken by a later filter. -/
theorem exact_iff_settled (p : Parser P) (ms : List Mapping) (hnames : DistinctNames ms)
    (proxies : List (Nat × P)) (hparse : p.parse ms = .ok proxies) :
    p.Exact ms proxies ↔ p.Settled ms := by
  unfold parse at hparse
  cases hrun : exec p.pass { mappings := ms } p.filterRegs with
  | error err =>
    rw [hrun] at hparse
    cases hparse
  | ok s =>
    rw [hrun] at hparse
    dsimp only at hparse
    split at hparse
    · cases hparse
    · cases hparse
      rcases exec_pass hnames hrun with ⟨hsettled, htaken⟩ | ⟨hsettled, hdup⟩
      · exact iff_of_true ⟨htaken.proxies.trans selected_eq_before.symm, htaken.parsed⟩ hsettled
      · refine iff_of_false (fun h => hdup ?_) hsettled
        rw [h.1, selected_eq_before]
        exact nodup_before _

end Parser

def plainRegexp (pattern : Str) : Except Str (Str → Bool) :=
  .ok fun name => name.contains (pattern.headD 0)

def nameOnly (m : Mapping) : Except Str Str := .ok (m.name.getD [])

def named (name : String) : Mapping := (∅ : Mapping).insert (ascii "name") (.string (ascii name))

def sampleParser : Parser Str :=
  ⟨ascii "a`b", [fun name => name.contains 0x61, fun name => name.contains 0x62], [], [], [],
    { additionalPrefix := some (ascii "b-") }, nameOnly⟩

theorem exact_iff_settled_sample :
    ({ sampleParser with override := {} } : Parser Str).Exact [named "b1", named "a1"]
      [(1, ascii "a1"), (0, ascii "b1")] := by
  apply (Parser.exact_iff_settled { sampleParser with override := {} } [named "b1", named "a1"]
    ⟨[ascii "b1", ascii "a1"], rfl, by decide⟩ _ rfl).mpr
  -- Without an override a mapping keeps its name, and has been taken under it.
  intro i m f m' g reg name hm hfirst hchange hlt hreg hname
  cases (show Except.ok m = Except.ok m' from hchange)
  refine ⟨i, f, .inl hlt, Parser.isFirst_iff.mpr ⟨m, hm, hfirst⟩, ?_⟩
  rw [hm]
  exact Parser.name_of_candidate hname

theorem prefixed_taken_twice :
    newProxiesParser plainRegexp nameOnly (ascii "a`b") [] [] []
        { additionalPrefix := some (ascii "b-") } = .ok sampleParser ∧
      DistinctNames [named "a1"] ∧
      sampleParser.parse [named "a1"] = .ok [(0, ascii "b-a1"), (0, ascii "b-b-a1")] ∧
      ¬ sampleParser.Exact [named "a1"] [(0, ascii "b-a1"), (0, ascii "b-b-a1")] := by
  refine ⟨rfl, ⟨[ascii "a1"], rfl, by decide⟩, rfl, fun h => ?_⟩
  exact absurd h.1 (by decide)

end Mihomo.Provider
