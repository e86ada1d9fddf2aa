import Mihomo.Go.Text
import Mihomo.Lib.Run

/-!
# URL test groups (adapter/outboundgroup/groupbase.go, urltest.go)

A group collects the proxies of its providers, keeps the list until a provider has another version, and
takes the proxy with the least delay from it. It stays with the proxy that it took before, an object of
an earlier list, as long as a proxy of that name is in the list and the delay is within the tolerance.

Proxies are objects of a heap and are named by their index.
-/

namespace Mihomo.Group
open Go Lib List
/-- A proxy with what it knows about the test URL of the group: whether it was alive and the delay at
the last test. -/
structure Proxy where
  name : Str
  type : Str
  alive : Bool := true
  tested : Option (Bool × UInt16) := none

namespace Proxy

def aliveForTestUrl (p : Proxy) : Bool :=
  match p.tested with
  | some (alive, _) => alive
  | none => p.alive

def lastDelayForTestUrl (p : Proxy) : UInt16 :=
  match p.tested with
  | some (true, delay) => if delay = 0 then 0xffff else delay
  | _ => 0xffff

end Proxy

structure Provider where
  version : UInt32 := 0
  proxies : List Nat := []
  compatible : Bool := false

structure Options where
  filterRegs : List (Str → Bool)
  excludeFilterRegs : List (Str → Bool)
  excludeTypeArray : List Str
  emptyFallback : Nat
  tolerance : UInt16

structure World where
  heap : Nat → Proxy
  allocated : Nat
  providers : List Provider
  providerVersions : List UInt32 := []
  providerProxies : List Nat := []
  selected : Str := []
  fastNode : Option Nat := none

namespace World

def name (w : World) (r : Nat) : Str := (w.heap r).name
def alive (w : World) (r : Nat) : Bool := (w.heap r).aliveForTestUrl
def delay (w : World) (r : Nat) : UInt16 := (w.heap r).lastDelayForTestUrl

/-! ### The list of a group -/

def pick (w : World) (keep : Str → Bool) (ps : List Nat) (acc : List Nat × List Str) :
    List Nat × List Str :=
  ps.foldl (fun acc p =>
    if keep (w.name p) ∧ w.name p ∉ acc.2 then (acc.1 ++ [p], w.name p :: acc.2) else acc) acc

def pickAll (w : World) (regs : List (Str → Bool)) (ps : List Nat) : List Nat × List Str :=
  regs.foldl (fun acc reg => w.pick reg ps acc) ([], [])

def collect (w : World) (o : Options) : List Nat :=
  let proxies :=
    if o.filterRegs = [] then w.providers.flatMap Provider.proxies
    else
      w.providers.flatMap fun pd =>
        if pd.compatible then pd.proxies else (w.pickAll o.filterRegs pd.proxies).1
  let proxies :=
    if 1 < w.providers.length ∧ 1 < o.filterRegs.length then
      (w.pick (fun _ => true) proxies (w.pickAll o.filterRegs proxies)).1
    else proxies
  let proxies := proxies.filter fun p => o.excludeFilterRegs.all fun reg => !reg (w.name p)
  proxies.filter fun p => o.excludeTypeArray.all fun t => !equalFold (w.heap p).type t

def getProxies (w : World) (o : Options) : List Nat × World :=
  let versions := w.providers.map Provider.version
  if versions = w.providerVersions then (w.providerProxies, w)
  else if w.collect o = [] then ([o.emptyFallback], w)
  else (w.collect o, { w with providerVersions := versions, providerProxies := w.collect o })

/-! ### The choice -/

def findSelected (w : World) (proxies : List Nat) : Option Nat :=
  if w.selected = [] then none
  else proxies.find? fun p => w.alive p ∧ w.name p = w.selected

/-- The loop over `proxies[1:]`, which starts with the first proxy whether it is alive or not. -/
def fastest (w : World) (first : Nat) (rest : List Nat) : Nat :=
  rest.foldl (fun fast p => if w.alive p ∧ w.delay p < w.delay fast then p else fast) first

/-- The function of `fastSingle`, given the list. -/
def choose (w : World) (o : Options) (proxies : List Nat) : Option Nat :=
  match w.findSelected proxies with
  | some p => some p
  | none =>
    match proxies with
    | [] => none
    | first :: rest =>
      let fast := w.fastest first rest
      match w.fastNode with
      | none => some fast
      | some node =>
        let fastNotExist := rest.all fun p => w.name p ≠ w.name node
        if fastNotExist ∨ w.alive node = false ∨ w.delay fast + o.tolerance < w.delay node then
          some fast
        else some node

/-- An evaluation of `fast`: the list, the proxy that is computed (`none` is the panic of
`proxies[0]`), and the state after it. -/
def fast (w : World) (o : Options) : List Nat × Option Nat × World :=
  let r := w.getProxies o
  let chosen := r.2.choose o r.1
  (r.1, chosen, { r.2 with fastNode := chosen })

end World

/-- What happens to a group: an evaluation, a provider that replaces its proxies, a test of a proxy,
and the selection of a name. -/
inductive Op where
  | evaluate
  | refresh (provider : Nat) (proxies : List Proxy)
  | test (r : Nat) (alive : Bool) (delay : UInt16)
  | forceSet (name : Str)

namespace World

def refresh (w : World) (i : Nat) (proxies : List Proxy) : World :=
  { w with
    heap := fun r =>
      if w.allocated ≤ r then (proxies[r - w.allocated]?).getD (w.heap r) else w.heap r
    allocated := w.allocated + proxies.length
    providers := w.providers.modify i fun pd =>
      { pd with
        version := pd.version + 1
        proxies := List.range' w.allocated proxies.length } }

def step (o : Options) (w : World) : Op → Except Unit World
  | .evaluate => .ok (w.fast o).2.2
  | .refresh i proxies => .ok (w.refresh i proxies)
  | .test r alive delay =>
    .ok { w with
      heap := Function.update w.heap r { w.heap r with alive, tested := some (alive, delay) } }
  | .forceSet name => .ok { w with selected := name }

def UsesList (o : Options) (w : World) : Op → Prop
  | .evaluate => ∃ p ∈ (w.fast o).1, (w.fast o).2.1 = some p
  | _ => True

/-- What an evaluation needs: the node of the last time is of the list, or it is given up: there is
none, the selected proxy is alive, no proxy behind the first one has the name of the node, it is not
alive, or the least delay with the tolerance is below its own. -/
def Gives (o : Options) (w : World) (proxies : List Nat) : Prop :=
  w.selected ≠ [] ∧ (∃ p ∈ proxies, w.alive p ∧ w.name p = w.selected) ∨
    ∀ node ∈ w.fastNode, node ∈ proxies ∨ (∀ p ∈ proxies.tail, w.name p ≠ w.name node) ∨
      w.alive node = false ∨
      ∃ p ∈ proxies, (∀ q ∈ proxies, q ∈ proxies.head? ∨ w.alive q → w.delay p ≤ w.delay q) ∧
        (p ∈ proxies.head? ∨ w.alive p) ∧ w.delay p + o.tolerance < w.delay node

def Kept (o : Options) (w : World) : Op → Prop
  | .evaluate => w.Gives o (w.getProxies o).1
  | _ => True

/-! ### One evaluation -/

section
variable {w : World} {o : Options} {proxies : List Nat}

theorem findSelected_eq_some {p : Nat} (h : w.findSelected proxies = some p) :
    w.selected ≠ [] ∧ p ∈ proxies ∧ w.alive p ∧ w.name p = w.selected := by
  unfold findSelected at h
  split at h
  · cases h
  next hselected =>
    have hfound := find?_some h
    rw [decide_eq_true_iff] at hfound
    exact ⟨hselected, mem_of_find?_eq_some h, hfound⟩

theorem findSelected_eq_none (h : w.findSelected proxies = none) :
    ¬ (w.selected ≠ [] ∧ ∃ p ∈ proxies, w.alive p ∧ w.name p = w.selected) := by
  rintro ⟨hselected, p, hp, hfound⟩
  unfold findSelected at h
  rw [if_neg hselected, find?_eq_none] at h
  exact h p hp (decide_eq_true hfound)

theorem fastest_spec (first : Nat) (rest : List Nat) :
    (w.fastest first rest = first ∨ w.fastest first rest ∈ rest ∧ w.alive (w.fastest first rest)) ∧
      w.delay (w.fastest first rest) ≤ w.delay first ∧
      ∀ p ∈ rest, w.alive p → w.delay (w.fastest first rest) ≤ w.delay p := by
  induction rest generalizing first with
  | nil => exact ⟨.inl rfl, UInt16.le_refl _, nofun⟩
  | cons q rest ih =>
    have hstep : w.fastest first (q :: rest) =
        w.fastest (if w.alive q ∧ w.delay q < w.delay first then q else first) rest := rfl
    rw [hstep]
    split
    next hq =>
      obtain ⟨hmem, hle, hall⟩ := ih q
      refine ⟨.inr ?_, UInt16.le_trans hle (UInt16.le_of_lt hq.2), fun p hp halive => ?_⟩
      · rcases hmem with heq | ⟨hmem, halive⟩
        · rw [heq]
          exact ⟨mem_cons_self, hq.1⟩
        · exact ⟨mem_cons_of_mem q hmem, halive⟩
      · rcases mem_cons.mp hp with rfl | hp
        · exact hle
        · exact hall p hp halive
    next hq =>
      obtain ⟨hmem, hle, hall⟩ := ih first
      refine ⟨?_, hle, fun p hp halive => ?_⟩
      · exact hmem.imp_right fun h => ⟨mem_cons_of_mem q h.1, h.2⟩
      · rcases mem_cons.mp hp with rfl | hp
        · exact UInt16.le_trans hle (UInt16.not_lt.mp fun hlt => hq ⟨halive, hlt⟩)
        · exact hall p hp halive

theorem fastest_mem (first : Nat) (rest : List Nat) : w.fastest first rest ∈ first :: rest := by
  rcases (fastest_spec first rest).1 with heq | ⟨hmem, -⟩
  · rw [heq]
    exact mem_cons_self
  · exact mem_cons_of_mem first hmem

theorem delay_fastest_iff {first : Nat} {rest : List Nat} {bound : UInt16} :
    w.delay (w.fastest first rest) + o.tolerance < bound ↔
      ∃ p ∈ first :: rest,
        (∀ q ∈ first :: rest, q ∈ (first :: rest).head? ∨ w.alive q → w.delay p ≤ w.delay q) ∧
        (p ∈ (first :: rest).head? ∨ w.alive p) ∧ w.delay p + o.tolerance < bound := by
  obtain ⟨hmem, hle, hall⟩ := fastest_spec first rest
  have hleast : ∀ q ∈ first :: rest, q ∈ (first :: rest).head? ∨ w.alive q →
      w.delay (w.fastest first rest) ≤ w.delay q := by
    intro q hq hcandidate
    rcases mem_cons.mp hq with rfl | hq
    · exact hle
    · rcases hcandidate with hhead | halive
      · obtain rfl : first = q := Option.some.inj hhead
        exact hle
      · exact hall q hq halive
  have hcandidate : w.fastest first rest ∈ (first :: rest).head? ∨ w.alive (w.fastest first rest) := by
    rcases hmem with heq | ⟨-, halive⟩
    · rw [heq]
      exact .inl rfl
    · exact .inr halive
  constructor
  · intro h
    exact ⟨_, fastest_mem first rest, hleast, hcandidate, h⟩
  · rintro ⟨p, hp, hless, hcandidate', hbound⟩
    have heq : w.delay p = w.delay (w.fastest first rest) :=
      UInt16.le_antisymm (hless _ (fastest_mem first rest) hcandidate) (hleast p hp hcandidate')
    rw [← heq]
    exact hbound

theorem choose_iff (hne : proxies ≠ []) :
    (∃ p ∈ proxies, w.choose o proxies = some p) ↔ w.Gives o proxies := by
  unfold choose
  cases hselected : w.findSelected proxies with
  | some p =>
    obtain ⟨hname, hp, hfound⟩ := findSelected_eq_some hselected
    exact iff_of_true ⟨p, hp, rfl⟩ (.inl ⟨hname, p, hp, hfound⟩)
  | none =>
    unfold Gives
    rw [or_iff_right (findSelected_eq_none hselected)]
    cases proxies with
    | nil => exact absurd rfl hne
    | cons first rest =>
      cases hnode : w.fastNode with
      | none =>
        refine iff_of_true ⟨_, fastest_mem first rest, rfl⟩ fun node hmem => ?_
        cases hmem
      | some node =>
        have hall : (rest.all fun p => w.name p ≠ w.name node) = true ↔
            ∀ p ∈ (first :: rest).tail, w.name p ≠ w.name node := by
          simp only [all_eq_true, decide_eq_true_eq]
          rfl
        dsimp only
        split
        next hgiven =>
          refine iff_of_true ⟨_, fastest_mem first rest, rfl⟩ fun node' hmem => ?_
          obtain rfl : node = node' := Option.some.inj hmem
          rw [hall, delay_fastest_iff] at hgiven
          exact .inr hgiven
        next hkept =>
          rw [hall, delay_fastest_iff] at hkept
          constructor
          · rintro ⟨p, hp, heq⟩ node' hmem
            obtain rfl : node = node' := Option.some.inj hmem
            obtain rfl : node = p := Option.some.inj heq
            exact .inl hp
          · intro h
            rcases h node rfl with hmem | hgiven
            · exact ⟨node, hmem, rfl⟩
            · exact absurd hgiven hkept

end

/-! ### Runs -/

structure Sound (w : World) : Prop where
  providers : w.providers ≠ []
  cached : w.providerVersions ≠ [] → w.providerProxies ≠ []

variable {w : World} {op : Op} {o : Options}

theorem Sound.getProxies_ne_nil (h : w.Sound) (o : Options) : (w.getProxies o).1 ≠ [] := by
  unfold getProxies
  dsimp only
  split
  next heq =>
    apply h.cached
    rw [← heq]
    exact fun hnil => h.providers (map_eq_nil_iff.mp hnil)
  · split
    · exact cons_ne_nil _ _
    · assumption

theorem Sound.getProxies (h : w.Sound) (o : Options) : (w.getProxies o).2.Sound := by
  unfold World.getProxies
  dsimp only
  split
  · exact h
  · split
    · exact h
    next hne =>
      exact ⟨h.providers, fun _ => hne⟩

theorem Sound.step {w' : World} (h : w.Sound) (hstep : w.step o op = .ok w') : w'.Sound := by
  cases op with
  | evaluate =>
    cases hstep
    exact ⟨(h.getProxies o).providers, (h.getProxies o).cached⟩
  | refresh i proxies =>
    cases hstep
    refine ⟨fun hnil => h.providers ?_, h.cached⟩
    have hlength := congrArg List.length hnil
    rw [World.refresh, length_modify] at hlength
    exact length_eq_zero_iff.mp hlength
  | test | forceSet =>
    cases hstep
    exact { h with }

/-- An evaluation takes its proxy from its list if and only if the node of the last time is of the
list or is given up. -/
theorem usesList_iff_kept (h : w.Sound) : w.UsesList o op ↔ w.Kept o op := by
  cases op with
  | evaluate =>
    have hsame : ∀ proxies, (w.getProxies o).2.Gives o proxies ↔ w.Gives o proxies := by
      intro proxies
      unfold World.getProxies
      dsimp only
      split_ifs
      all_goals rfl
    exact (choose_iff (h.getProxies_ne_nil o)).trans (hsame _)
  | refresh | test | forceSet => rfl

end World

def newURLTest (heap : Nat → Proxy) (allocated : Nat) (providers : List Provider) : World :=
  { heap, allocated, providers }

/-- In every run of evaluations, refreshes, tests and selections: every evaluation takes its proxy from
the list that it got if and only if in every evaluation the node of the last time is of the list or is
given up. -/
theorem uses_list_iff (o : Options) (heap : Nat → Proxy) (allocated : Nat) (providers : List Provider)
    (hproviders : providers ≠ []) (ops : List Op) :
    Along (World.step o) (World.UsesList o) (newURLTest heap allocated providers) ops ↔
      Along (World.step o) (World.Kept o) (newURLTest heap allocated providers) ops := by
  have hsound : (newURLTest heap allocated providers).Sound := ⟨hproviders, fun h => absurd rfl h⟩
  exact along_congr World.Sound (fun h hstep => h.step hstep) (fun h =>
    World.usesList_iff_kept h) hsound ops

def sampleHeap : Nat → Proxy
  | 0 => { name := [97], type := [] }
  | _ => { name := [98], type := [], tested := some (true, 100) }

def sampleOptions : Options := ⟨[], [], [], 9, 50⟩

theorem uses_list_iff_sample :
    Along (World.step sampleOptions) (World.UsesList sampleOptions)
      (newURLTest sampleHeap 2 [{ proxies := [0, 1] }]) [.evaluate, .evaluate] := by
  apply (uses_list_iff sampleOptions sampleHeap 2 [{ proxies := [0, 1] }] (by decide) _).mpr
  refine along_cons rfl (.inr nofun) (along_cons rfl (.inr fun node hnode => .inl ?_) trivial)
  obtain rfl : 1 = node := Option.some.inj hnode
  exact List.mem_cons_of_mem 0 List.mem_cons_self

/-- The provider is refreshed with proxies of the same names, and the new one is tested with 90 ms:
the group stays with the old object. -/
theorem replaced_proxy_used :
    let start := newURLTest sampleHeap 2 [{ proxies := [0, 1] }]
    ∃ w, exec (World.step sampleOptions) start [.evaluate,
        .refresh 0 [{ name := [97], type := [] }, { name := [98], type := [] }],
          .test 3 true 90] = .ok w ∧
      (w.fast sampleOptions).1 = [2, 3] ∧ (w.fast sampleOptions).2.1 = some 1 ∧
      ¬ Along (World.step sampleOptions) (World.UsesList sampleOptions) start [.evaluate,
        .refresh 0 [{ name := [97], type := [] }, { name := [98], type := [] }], .test 3 true 90,
        .evaluate] := by
  refine ⟨_, rfl, by decide, by decide, fun h => ?_⟩
  obtain ⟨p, hp, heq⟩ := (((h.2 _ rfl).2 _ rfl).2 _ rfl).1
  obtain rfl : 1 = p := Option.some.inj heq
  exact absurd hp (by decide)

end Mihomo.Group
