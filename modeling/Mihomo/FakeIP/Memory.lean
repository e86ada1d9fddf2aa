import Mihomo.FakeIP.Mirror
import Mihomo.FakeIP.Range

/-!
# In-memory pools

The two caches of a pool mirror each other and the allocator stays in its range, whatever is called; an
address that a lookup returns maps back to the host as long as the prefix of the pool contains it.
-/

namespace Mihomo.FakeIP
open Go Net Lru

inductive Op where
  | lookup (host : Str)
  | lookBack (ip : Addr)
  | exist (ip : Addr)
  | flushFakeIP

def Pool.step (p : Pool MemoryStore) : Op → Pool MemoryStore
  | .lookup host => (p.lookup host).2
  | .lookBack ip => (p.lookBack ip).2
  | .exist _ => p
  | .flushFakeIP => p.flushFakeIP.2

structure Holds (p : Pool MemoryStore) (b : Block) (ps : List Mapping) : Prop where
  ranged : Ranged p b
  positioned : Positioned b p.offset
  mirrored : Mirrored p.store ps

namespace Holds
variable {p : Pool MemoryStore} {b : Block} {ps : List Mapping}

section
variable (h : Holds p b ps)
include h

variable {qs : List Mapping} {ip : Addr} {host : Str}

theorem of_store {store : MemoryStore} (hs : Mirrored store qs) : Holds { p with store } b qs :=
  ⟨h.ranged.congr rfl rfl rfl rfl, h.positioned, hs⟩

theorem lookup_hit (hm : (toLower host, ip) ∈ ps) :
    (p.lookup host).1 = ip ∧ Holds (p.lookup host).2 b (touch ps (toLower host, ip)) := by
  obtain ⟨hv, ht⟩ := h.mirrored.getByHost_hit hm
  cases hg : p.store.getByHost (toLower host) with
  | mk r store =>
    rw [hg] at hv ht
    cases hv
    have hl : p.lookup host = (ip, { p with store }) := by
      simp [Pool.lookup, Pool.lookupWithError, Pool.allocate, Store.getByHost, hg]
    rw [hl]
    exact ⟨rfl, h.of_store ht⟩

theorem lookup_miss (hm : toLower host ∉ ps.map Prod.fst) :
    Usable b (p.lookup host).1 ∧ Holds (p.lookup host).2 b
      (evictOver p.store.cacheIP.maxSize
        (unassign ps (p.lookup host).1 ++ [(toLower host, (p.lookup host).1)])) := by
  have hg := h.mirrored.getByHost_miss hm
  obtain ⟨hu, ho, hs, hr⟩ := get_spec h.ranged h.positioned
  have hl : p.lookup host =
      (p.get.1, { p.get.2 with store := p.store.putMapping (toLower host) p.get.1 }) := by
    simp [Pool.lookup, Pool.lookupWithError, Pool.allocate, Store.getByHost,
      Store.putMapping, hg, hs]
  rw [hl]
  have hq : Holds p.get.2 b ps := ⟨hr, by rw [ho]; exact hu.positioned, by rw [hs]; exact h.mirrored⟩
  exact ⟨hu, hq.of_store (h.mirrored.putMapping p.get.1 hm)⟩

/-- A lookup returns a mapping that is held afterwards: one that was held before,
or a new one for a usable address. No other mapping is added. -/
theorem lookup (host : Str) :
    ∃ qs, Holds (p.lookup host).2 b qs ∧ (toLower host, (p.lookup host).1) ∈ qs ∧
      ∀ pr ∈ qs, pr ∈ ps ∨ pr = (toLower host, (p.lookup host).1) ∧ Usable b pr.2 := by
  by_cases hm : toLower host ∈ ps.map Prod.fst
  · obtain ⟨⟨host', ip⟩, hmem, heq⟩ := List.mem_map.mp hm
    cases heq
    obtain ⟨hip, hh⟩ := h.lookup_hit hmem
    rw [hip]
    refine ⟨_, hh, (mem_touch hmem _).mpr hmem, fun pr hpr => .inl ((mem_touch hmem pr).mp hpr)⟩
  · obtain ⟨hu, hh⟩ := h.lookup_miss hm
    refine ⟨_, hh, mem_evictOver_last .., fun pr hpr => ?_⟩
    rcases List.mem_append.mp (evictOver_subset _ _ hpr) with hpr | hpr
    · exact .inl (List.eraseP_subset hpr)
    · cases List.mem_singleton.mp hpr
      exact .inr ⟨rfl, hu⟩

theorem lookBack_value (hm : (host, ip) ∈ ps)
    (hc : p.ipnet.contains ip = true) : (p.lookBack ip).1 = some host := by
  simp only [Pool.lookBack, hc]
  exact (h.mirrored.getByIP_hit hm).1

theorem lookBack (ip : Addr) : ∃ qs, Holds (p.lookBack ip).2 b qs ∧ ∀ pr, pr ∈ qs ↔ pr ∈ ps := by
  by_cases hc : p.ipnet.contains ip = true
  · simp only [Pool.lookBack, hc, Store.getByIP]
    by_cases hi : ip ∈ ps.map Prod.snd
    · obtain ⟨⟨host, ip⟩, hm, rfl⟩ := List.mem_map.mp hi
      exact ⟨_, h.of_store (h.mirrored.getByIP_hit hm).2, mem_touch hm⟩
    · rw [h.mirrored.getByIP_miss hi]
      exact ⟨ps, h.of_store h.mirrored, fun _ => .rfl⟩
  · simp only [Pool.lookBack, hc]
    exact ⟨ps, h, fun _ => .rfl⟩

theorem flushFakeIP : Holds p.flushFakeIP.2 b [] :=
  ⟨h.ranged.congr rfl rfl rfl rfl, prev_first_positioned h.ranged, h.mirrored.flush⟩

theorem cloneFrom {o : Pool MemoryStore} {b' : Block}
    (ho : Holds o b' qs) : Holds (p.cloneFrom o) b qs :=
  h.of_store (ho.mirrored.cloneTo h.mirrored)

theorem step (op : Op) :
    ∃ qs, Holds (p.step op) b qs ∧
      ∀ pr ∈ qs, pr ∈ ps ∨ (∃ host, pr.1 = toLower host) ∧ Usable b pr.2 := by
  cases op with
  | lookup host =>
    obtain ⟨qs, hh, _, hnew⟩ := h.lookup host
    refine ⟨qs, hh, fun pr hpr => (hnew pr hpr).imp_right ?_⟩
    rintro ⟨rfl, hu⟩
    exact ⟨⟨host, rfl⟩, hu⟩
  | lookBack ip =>
    obtain ⟨qs, hh, hqs⟩ := h.lookBack ip
    exact ⟨qs, hh, fun pr hpr => .inl ((hqs pr).mp hpr)⟩
  | exist ip => exact ⟨ps, h, fun pr hpr => .inl hpr⟩
  | flushFakeIP => exact ⟨[], h.flushFakeIP, fun pr hpr => by cases hpr⟩

end

theorem run {P : Mapping → Prop} (hP : ∀ host ip, Usable b ip → P (toLower host, ip))
    (h : Holds p b ps) (hps : ∀ pr ∈ ps, P pr) (ops : List Op) :
    ∃ qs, Holds (ops.foldl Pool.step p) b qs ∧ ∀ pr ∈ qs, P pr := by
  induction ops generalizing p ps with
  | nil => exact ⟨ps, h, hps⟩
  | cons op ops ih =>
    obtain ⟨qs, hh, hqs⟩ := h.step op
    refine ih hh fun pr hpr => ?_
    rcases hqs pr hpr with hold | ⟨⟨host, hhost⟩, hu⟩
    · exact hps pr hold
    · have := hP host pr.2 hu
      rwa [← hhost] at this

end Holds

variable {p : Pool MemoryStore}

theorem holds_newMemory {ipnet : Prefix} {size : Int}
    (h : Pool.newMemory ipnet size = some p) : ∃ b, Holds p b [] := by
  obtain ⟨b, hr, ho, hs, _⟩ := ranged_new h
  exact ⟨b, hr, ho, by rw [hs]; exact mirrored_new size⟩

/-- The two caches of an in-memory pool are inverse to each other and share one
recency order, whatever was called before; a lookup then returns a usable address
that maps back to the lowered host. -/
theorem newMemory_inverse {ipnet : Prefix} {size : Int} {p : Pool MemoryStore}
    (hp : Pool.newMemory ipnet size = some p) (ops : List Op) :
    let q := ops.foldl Pool.step p
    q.store.cacheHost.items = q.store.cacheIP.items.map Prod.swap ∧
    (∀ host ip, (q.store.getByHost host).1 = some ip ↔ (q.store.getByIP ip).1 = some host) ∧
    (∀ host host' ip, (q.store.getByHost host).1 = some ip →
      (q.store.getByHost host').1 = some ip → host = host') ∧
    ∀ host, ((q.lookup host).2.lookBack (q.lookup host).1).1 = some (toLower host) ∧
      (q.lookup host).1.less q.first = false ∧ (q.lookup host).1.less q.last = true ∧
      (q.lookup host).1 ≠ q.ipnet.maskedAddr ∧ (q.lookup host).1 ≠ q.gateway ∧
      (q.lookup host).1 ≠ q.last := by
  obtain ⟨b, h0⟩ := holds_newMemory hp
  obtain ⟨ps, h, hps⟩ := h0.run (P := fun pr => Usable b pr.2) (fun _ _ hu => hu)
    (fun pr hpr => by cases hpr) ops
  intro q
  refine ⟨?_, ?_, ?_, ?_⟩
  · rw [h.mirrored.items_host, h.mirrored.items_ip]
  · intro host ip
    rw [h.mirrored.getByHost_iff, h.mirrored.getByIP_iff]
  · intro host host' ip hh hh'
    exact h.mirrored.host_unique (h.mirrored.getByHost_iff.mp hh) (h.mirrored.getByHost_iff.mp hh')
  · intro host
    obtain ⟨qs, hq, hmem, hnew⟩ := h.lookup host
    have hu : Usable b (q.lookup host).1 := by
      rcases hnew _ hmem with hold | ⟨_, hu⟩
      · exact hps _ hold
      · exact hu
    exact ⟨hq.lookBack_value hmem (hu.contains hq.ranged), hu.bounds h.ranged⟩

theorem newMemory_inverse_example : ∃ p, Pool.newMemory net18 1 = some p ∧
    let q := [Op.lookup [0x61], .lookup [0x42]].foldl Pool.step p
    ((q.lookup [0x41]).2.lookBack (q.lookup [0x41]).1).1 = some (toLower [0x41]) :=
  ⟨_, rfl, ((@newMemory_inverse net18 1 _ rfl
    [Op.lookup [0x61], .lookup [0x42]]).2.2.2 [0x41]).1⟩

inductive Built : Pool MemoryStore → Prop
  | new {ipnet : Prefix} {size : Int} {p : Pool MemoryStore} :
      Pool.newMemory ipnet size = some p → Built p
  | step {p : Pool MemoryStore} (op : Op) : Built p → Built (p.step op)
  | cloneFrom {p o : Pool MemoryStore} : Built p → Built o → Built (p.cloneFrom o)

theorem Built.holds (hp : Built p) :
    ∃ b ps, Holds p b ps ∧ ∀ pr ∈ ps, ∃ host, pr.1 = toLower host := by
  induction hp with
  | new h =>
    obtain ⟨b, hb⟩ := holds_newMemory h
    exact ⟨b, [], hb, fun pr hpr => by cases hpr⟩
  | step op _ ih =>
    obtain ⟨b, ps, h, hps⟩ := ih
    obtain ⟨qs, hq, hnew⟩ := h.step op
    refine ⟨b, qs, hq, fun pr hpr => ?_⟩
    rcases hnew pr hpr with hold | ⟨hl, _⟩
    · exact hps pr hold
    · exact hl
  | cloneFrom _ _ ihp iho =>
    obtain ⟨b, ps, h, _⟩ := ihp
    obtain ⟨b', qs, ho, hqs⟩ := iho
    exact ⟨b, qs, h.cloneFrom ho, hqs⟩

def Op.resolves : Op → Bool
  | .lookup _ | .lookBack _ => true
  | .exist _ | .flushFakeIP => false

/-- After a reload every lookup returns an address of the prefix that maps back,
exactly when the prefix contains every address the old pool had handed out and
still remembers. -/
theorem cloneFrom_lookBack_iff {p o : Pool MemoryStore} (hp : Built p) (ho : Built o) :
    (∀ ops : List Op, (∀ op ∈ ops, op.resolves = true) → ∀ host,
      let q := ops.foldl Pool.step (p.cloneFrom o)
      p.ipnet.contains (q.lookup host).1 = true ∧
        ((q.lookup host).2.lookBack (q.lookup host).1).1 = some (toLower host)) ↔
    ∀ pr ∈ o.store.cacheIP.items, p.ipnet.contains pr.2 = true := by
  obtain ⟨b, _, hp, _⟩ := hp.holds
  obtain ⟨_, qs, ho, hlow⟩ := ho.holds
  have h := hp.cloneFrom ho
  rw [ho.mirrored.items_ip]
  constructor
  · -- the host of a remembered mapping gets its old address back at once
    intro hall pr hpr
    obtain ⟨host, hhost⟩ := hlow pr hpr
    have hm : (toLower host, pr.2) ∈ qs := hhost ▸ hpr
    have hc := (hall [] (by simp) host).1
    rwa [List.foldl_nil, (h.lookup_hit hm).1] at hc
  · intro hin ops _ host
    obtain ⟨ps, hq, hps⟩ := h.run (P := fun pr => p.ipnet.contains pr.2 = true)
      (fun _ _ hu => hu.contains hp.ranged) hin ops
    obtain ⟨rs, hr, hmem, hnew⟩ := hq.lookup host
    have hc : p.ipnet.contains ((ops.foldl Pool.step (p.cloneFrom o)).lookup host).1 = true := by
      rcases hnew _ hmem with hold | ⟨_, hu⟩
      · exact hps _ hold
      · exact hu.contains hp.ranged
    refine ⟨hc, hr.lookBack_value hmem ?_⟩
    rw [hr.ranged.contains_iff]
    exact (hp.ranged.contains_iff _).mp hc

/-- The old range was `198.18.0.0/16`, the new one is `198.19.0.0/16`: the host `a`
keeps its old address, which the new pool cannot map back. -/
theorem cloneFrom_foreign_address : ∃ p o, Built p ∧ Built o ∧
    p.ipnet.contains ((p.cloneFrom o).lookup [0x61]).1 = false ∧
    (((p.cloneFrom o).lookup [0x61]).2.lookBack ((p.cloneFrom o).lookup [0x61]).1).1 = none := by
  refine ⟨_, _, @Built.new net19 10 _ rfl, .step (.lookup [0x61]) (@Built.new net18 10 _ rfl), ?_, ?_⟩
  · rfl
  · rfl

theorem cloneFrom_lookBack_example : ∃ p o, Built p ∧ Built o ∧
    o.store.cacheIP.items.length = 1 ∧
    (((p.cloneFrom o).lookup [0x61]).2.lookBack ((p.cloneFrom o).lookup [0x61]).1).1 =
      some (toLower [0x61]) := by
  have hp : Built ((Pool.newMemory net18 4).get rfl) := .new (Option.some_get _).symm
  have ho : Built (((Pool.newMemory net18 10).get rfl).step (.lookup [0x61])) :=
    .step _ (.new (Option.some_get _).symm)
  refine ⟨_, _, hp, ho, rfl, ?_⟩
  refine ((cloneFrom_lookBack_iff hp ho).mpr (fun pr hpr => ?_) [] (by simp) [0x61]).2
  cases List.mem_singleton.mp hpr
  rfl

end Mihomo.FakeIP
