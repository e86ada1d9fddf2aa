import Mihomo.Group.URLTest

/-!
# The tolerance of URL test groups

A group should leave the node of its last evaluation, as long as it is alive and listed, only for a
proxy that is faster by more than the tolerance. The loop over `proxies[1:]` does not see a node at the
head of the list, and the sum of the least delay and the tolerance is one of 16 bits.
-/

namespace Mihomo.Group
open Go Lib List
namespace World

def Candidate (w : World) (proxies : List Nat) (p : Nat) : Prop := p ∈ proxies.head? ∨ w.alive p

def Unselected (w : World) (proxies : List Nat) : Prop :=
  ¬ (w.selected ≠ [] ∧ ∃ p ∈ proxies, w.alive p ∧ w.name p = w.selected)

def Due (w : World) (o : Options) (proxies : List Nat) (node : Nat) : Prop :=
  ∃ p ∈ proxies, w.alive p ∧ (∀ q ∈ proxies, w.alive q → w.delay p ≤ w.delay q) ∧
    (w.delay p).toNat + o.tolerance.toNat < (w.delay node).toNat

def Steady (w : World) (o : Options) : Prop :=
  w.Unselected (w.fast o).1 → ∀ node ∈ w.fastNode, w.alive node →
    (∃ p ∈ (w.fast o).1, w.name p = w.name node) →
      (w.fast o).2.1 = some node ∨ w.Due o (w.fast o).1 node

def Leads (w : World) (proxies : List Nat) (node : Nat) : Prop :=
  ∃ before after, proxies = before ++ node :: after ∧ w.Candidate proxies node ∧
    (∀ q ∈ before, w.Candidate proxies q → w.delay node < w.delay q) ∧
    ∀ q ∈ after, w.Candidate proxies q → w.delay node ≤ w.delay q

/-- A proxy behind the first one has the name of the node, and the least delay plus the tolerance, in
16 bits, is not below the delay of the node. -/
def Seen (w : World) (o : Options) (proxies : List Nat) (node : Nat) : Prop :=
  (∃ p ∈ proxies.tail, w.name p = w.name node) ∧
    ∃ p ∈ proxies, w.Candidate proxies p ∧
      (∀ q ∈ proxies, w.Candidate proxies q → w.delay p ≤ w.delay q) ∧
      w.delay node ≤ w.delay p + o.tolerance

section
variable {w : World} {o : Options} {proxies : List Nat} {first node : Nat} {rest : List Nat}

theorem choose_getProxies (proxies : List Nat) :
    (w.getProxies o).2.choose o proxies = w.choose o proxies := by
  unfold getProxies
  dsimp only
  split_ifs
  all_goals rfl

theorem Leads.unique {a b : Nat} (ha : w.Leads proxies a) (hb : w.Leads proxies b) : a = b := by
  obtain ⟨before, after, hsplit, hcand, hbefore, hafter⟩ := ha
  obtain ⟨before', after', hsplit', hcand', hbefore', hafter'⟩ := hb
  rw [hsplit] at hsplit'
  rcases append_eq_append_iff.mp hsplit' with ⟨mid, rfl, hmid⟩ | ⟨mid, rfl, hmid⟩
  · cases mid with
    | nil => exact (List.cons.inj hmid).1
    | cons c mid =>
      obtain ⟨rfl, rfl⟩ := List.cons.inj hmid
      have hlt := hbefore' a (by simp) hcand
      have hle := hafter b (by simp) hcand'
      exact absurd hlt (UInt16.not_lt.mpr hle)
  · cases mid with
    | nil => exact (List.cons.inj hmid).1.symm
    | cons c mid =>
      obtain ⟨rfl, rfl⟩ := List.cons.inj hmid
      have hlt := hbefore b (by simp) hcand'
      have hle := hafter' a (by simp) hcand
      exact absurd hlt (UInt16.not_lt.mpr hle)

theorem fastest_append (q : Nat) : w.fastest first (rest ++ [q]) =
    if w.alive q ∧ w.delay q < w.delay (w.fastest first rest) then q else w.fastest first rest := by
  unfold fastest
  rw [foldl_append]
  rfl

theorem fastest_leads (first : Nat) (rest : List Nat) :
    w.Leads (first :: rest) (w.fastest first rest) := by
  induction rest using reverseRecOn with
  | nil => exact ⟨[], [], rfl, .inl rfl, nofun, nofun⟩
  | append_singleton rest q ih =>
    obtain ⟨before, after, hsplit, hcand, hbefore, hafter⟩ := ih
    rw [fastest_append]
    split
    next hq =>
      refine ⟨first :: rest, [], rfl, .inr hq.1, fun p hp hpc => ?_, nofun⟩
      have hle : w.delay (w.fastest first rest) ≤ w.delay p := by
        rw [hsplit] at hp
        rcases mem_append.mp hp with hp | hp
        · exact UInt16.le_of_lt (hbefore p hp hpc)
        · rcases mem_cons.mp hp with rfl | hp
          · exact UInt16.le_refl _
          · exact hafter p hp hpc
      exact UInt16.lt_of_lt_of_le hq.2 hle
    next hq =>
      refine ⟨before, after ++ [q], ?_, hcand, hbefore, fun p hp hpc => ?_⟩
      · rw [← cons_append, hsplit]
        simp
      · rcases mem_append.mp hp with hp | hp
        · exact hafter p hp hpc
        · obtain rfl := mem_singleton.mp hp
          rcases hpc with hhead | halive
          · obtain rfl := Option.some.inj hhead
            exact (fastest_spec first rest).2.1
          · exact UInt16.not_lt.mp fun hlt => hq ⟨halive, hlt⟩

theorem fastest_eq_iff : w.fastest first rest = node ↔ w.Leads (first :: rest) node := by
  constructor
  · rintro rfl
    exact fastest_leads first rest
  · exact (fastest_leads first rest).unique

theorem seen_iff : w.Seen o (first :: rest) node ↔
    ¬ ((rest.all fun p => w.name p ≠ w.name node) = true ∨
      w.delay (w.fastest first rest) + o.tolerance < w.delay node) := by
  have hname : (rest.all fun p => w.name p ≠ w.name node) = true ↔
      ¬ ∃ p ∈ rest, w.name p = w.name node := by
    simp
  rw [hname, not_or, not_not, delay_fastest_iff]
  refine and_congr_right fun _ => ?_
  constructor
  · rintro ⟨p, hp, hcand, hleast, hle⟩ ⟨p', hp', hleast', hcand', hlt⟩
    have heq : w.delay p = w.delay p' :=
      UInt16.le_antisymm (hleast p' hp' hcand') (hleast' p hp hcand)
    rw [heq] at hle
    exact UInt16.not_lt.mpr hle hlt
  · intro hnot
    obtain ⟨before, after, hsplit, hcand, hbefore, hafter⟩ := fastest_leads (w := w) first rest
    have hleast : ∀ q ∈ first :: rest, w.Candidate (first :: rest) q →
        w.delay (w.fastest first rest) ≤ w.delay q := by
      intro q hq hqc
      rcases mem_cons.mp hq with rfl | hq
      · exact (fastest_spec q rest).2.1
      · rcases hqc with hhead | halive
        · obtain rfl := Option.some.inj hhead
          exact (fastest_spec first rest).2.1
        · exact (fastest_spec first rest).2.2 q hq halive
    refine ⟨_, fastest_mem first rest, hcand, hleast, UInt16.not_lt.mp fun hlt => hnot ?_⟩
    exact ⟨_, fastest_mem first rest, hleast, hcand, hlt⟩

theorem choose_eq_node_iff (hun : w.Unselected (first :: rest)) (hnode : w.fastNode = some node)
    (halive : w.alive node) : w.choose o (first :: rest) = some node ↔
      w.Leads (first :: rest) node ∨ w.Seen o (first :: rest) node := by
  have hselected : w.findSelected (first :: rest) = none := by
    cases hfound : w.findSelected (first :: rest) with
    | none => rfl
    | some p =>
      obtain ⟨hname, hp, hfound⟩ := findSelected_eq_some hfound
      exact absurd ⟨hname, p, hp, hfound⟩ hun
  rw [seen_iff, ← fastest_eq_iff]
  unfold choose
  rw [hselected, hnode]
  simp only [halive, Bool.true_eq_false, false_or]
  split
  next hleft =>
    rw [Option.some.injEq, or_iff_left (not_not.mpr hleft)]
  next hstay =>
    exact iff_of_true rfl (.inr hstay)

end

/-- An evaluation leaves a live listed node only when that is due if and only if that is due, or the
node is the first one with the least delay, or a proxy behind the first one has its name and the sum
in 16 bits is not below its delay. -/
theorem steady_iff (w : World) (o : Options) :
    w.Steady o ↔ (w.Unselected (w.fast o).1 → ∀ node ∈ w.fastNode, w.alive node →
      (∃ p ∈ (w.fast o).1, w.name p = w.name node) →
        w.Due o (w.fast o).1 node ∨ w.Leads (w.fast o).1 node ∨ w.Seen o (w.fast o).1 node) := by
  have hchosen : (w.fast o).2.1 = w.choose o (w.fast o).1 := choose_getProxies _
  unfold Steady
  rw [hchosen]
  refine imp_congr_right fun hun => forall₂_congr fun node hnode => imp_congr_right fun halive => ?_
  refine imp_congr_right fun hlisted => ?_
  obtain ⟨p, hp, -⟩ := hlisted
  revert hun hp
  cases (w.fast o).1 with
  | nil => exact nofun
  | cons first rest =>
    intro hun _
    rw [choose_eq_node_iff hun hnode halive]
    exact Or.comm

end World

def headStart : World :=
  newURLTest (fun r => { name := [r.toUInt8], type := [], tested := some (true, 100) }) 2
    [{ proxies := [0, 1] }]

/-- The group takes the first proxy. The second one is then tested with 90 ms, and the group leaves
the first one for it although the tolerance is 50. With a tolerance of 65500 it leaves a node with
150 ms for one with 120 ms. -/
theorem left_within_tolerance :
    (∃ w, exec (World.step sampleOptions) headStart [.evaluate, .test 1 true 90] = .ok w ∧
      w.fastNode = some 0 ∧ (w.fast sampleOptions).2.1 = some 1 ∧ ¬ w.Steady sampleOptions) ∧
    ∃ w, exec (World.step { sampleOptions with tolerance := 65500 }) headStart
        [.test 1 true 90, .evaluate, .test 1 true 150, .test 0 true 120] = .ok w ∧
      w.fastNode = some 1 ∧ ¬ w.Steady { sampleOptions with tolerance := 65500 } := by
  refine ⟨⟨_, rfl, by decide, by decide, fun h => ?_⟩, ⟨_, rfl, by decide, fun h => ?_⟩⟩
  · rcases h (fun hsel => hsel.1 rfl) 0 (by decide) (by decide) ⟨0, by decide, rfl⟩ with heq | ⟨p, hp, -, -, hlt⟩
    · revert heq
      decide
    · revert p
      decide
  · rcases h (fun hsel => hsel.1 rfl) 1 (by decide) (by decide) ⟨1, by decide, rfl⟩ with heq | ⟨p, hp, -, -, hlt⟩
    · revert heq
      decide
    · revert p
      decide

end Mihomo.Group
