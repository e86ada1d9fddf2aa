import Mihomo.FakeIP.Pool
import Mihomo.Lru.Items

/-!
# The two caches of the memory store

Both caches of a `MemoryStore` hold one list of mappings, least recent first: the host cache as it is,
the address cache with its pairs swapped.
-/

namespace Mihomo.FakeIP
open Go Net Lru List

universe u v

theorem eraseP_eq_erase {α : Type u} {κ : Type v} [BEq α] [LawfulBEq α] [DecidableEq κ]
    {f : α → κ} {l : List α} (hn : (l.map f).Nodup) {a : α} (ha : a ∈ l) :
    (l.eraseP fun x => decide (f x = f a)) = l.erase a := by
  induction l with
  | nil => rfl
  | cons b l ih =>
    rw [map_cons, nodup_cons] at hn
    rcases mem_cons.mp ha with rfl | ha
    · simp
    · have hab : f b ≠ f a := fun hf => hn.1 (hf ▸ mem_map_of_mem ha)
      have hne : b ≠ a := fun he => hab (congrArg f he)
      rw [eraseP_cons_of_neg (by simpa using hab), erase_cons_tail (by simpa using hne), ih hn.2 ha]

abbrev Mapping := Str × Addr

structure Mirrored (m : MemoryStore) (ps : List Mapping) : Prop where
  ageless_ip : Ageless m.cacheIP
  ageless_host : Ageless m.cacheHost
  size_eq : m.cacheHost.maxSize = m.cacheIP.maxSize
  items_ip : m.cacheIP.items = ps
  items_host : m.cacheHost.items = ps.map Prod.swap

def touch (ps : List Mapping) (pr : Mapping) : List Mapping := ps.erase pr ++ [pr]

def unassign (ps : List Mapping) (ip : Addr) : List Mapping :=
  ps.eraseP fun pr => decide (pr.2 = ip)

theorem mem_touch {ps : List Mapping} {pr : Mapping} (h : pr ∈ ps) (q : Mapping) :
    q ∈ touch ps pr ↔ q ∈ ps := by
  have hperm : (touch ps pr).Perm ps :=
    perm_append_comm.trans (perm_cons_erase h).symm
  exact hperm.mem_iff

namespace Mirrored
variable {m : MemoryStore} {ps : List Mapping}

theorem hosts_nodup (h : Mirrored m ps) : (ps.map Prod.fst).Nodup :=
  h.items_ip ▸ h.ageless_ip.keys_nodup

theorem addrs_nodup (h : Mirrored m ps) : (ps.map Prod.snd).Nodup := by
  have hn := h.ageless_host.keys_nodup
  rw [h.items_host, map_map] at hn
  exact hn

variable {ip : Addr} {host : Str}

theorem host_unique (h : Mirrored m ps) {host' : Str} (hm : (host, ip) ∈ ps)
    (hm' : (host', ip) ∈ ps) : host = host' :=
  congrArg Prod.fst (inj_on_of_nodup_map h.addrs_nodup hm hm' rfl)

theorem eraseP_host (h : Mirrored m ps) (hm : (host, ip) ∈ ps) :
    (ps.eraseP fun pr => decide (pr.1 = host)) = ps.erase (host, ip) :=
  eraseP_eq_erase h.hosts_nodup hm

theorem unassign_eq (h : Mirrored m ps) (hm : (host, ip) ∈ ps) :
    unassign ps ip = ps.erase (host, ip) :=
  eraseP_eq_erase h.addrs_nodup hm

theorem eraseP_swap (ps : List Mapping) (ip : Addr) :
    ((ps.map Prod.swap).eraseP fun pr => decide (pr.1 = ip)) = (unassign ps ip).map Prod.swap := by
  rw [eraseP_map]
  rfl

section
variable (h : Mirrored m ps)
include h

theorem mem_items_host : (ip, host) ∈ m.cacheHost.items ↔ (host, ip) ∈ ps := by
  rw [h.items_host]
  simp

theorem not_mem_host_keys (hi : ip ∉ ps.map Prod.snd) : ip ∉ m.cacheHost.items.map Prod.fst := by
  rw [h.items_host, map_map]
  exact hi

theorem touch_both (hm : (host, ip) ∈ ps) :
    Mirrored { cacheIP := (m.cacheIP.get MemoryStore.noClock host).2,
               cacheHost := (m.cacheHost.get MemoryStore.noClock ip).2 }
      (touch ps (host, ip)) := by
  obtain ⟨_, ha, hs, hi⟩ := get_hit h.ageless_ip MemoryStore.noClock (h.items_ip ▸ hm)
  obtain ⟨_, ha', hs', hi'⟩ := get_hit h.ageless_host MemoryStore.noClock (h.mem_items_host.mpr hm)
  refine ⟨ha, ha', (hs'.trans h.size_eq).trans hs.symm, ?_, ?_⟩
  · rw [hi, h.items_ip, h.eraseP_host hm]
    rfl
  · rw [hi', h.items_host, eraseP_swap, h.unassign_eq hm]
    simp [touch]

theorem getByHost_hit (hm : (host, ip) ∈ ps) :
    (m.getByHost host).1 = some ip ∧ Mirrored (m.getByHost host).2 (touch ps (host, ip)) := by
  have hv := (get_hit h.ageless_ip MemoryStore.noClock (h.items_ip ▸ hm)).1
  have ht := h.touch_both hm
  cases hg : m.cacheIP.get MemoryStore.noClock host with
  | mk r c =>
    rw [hg] at hv ht
    cases hv
    simpa [MemoryStore.getByHost, hg] using ht

theorem getByHost_miss (hm : host ∉ ps.map Prod.fst) : m.getByHost host = (none, m) := by
  simp only [MemoryStore.getByHost,
    get_miss h.ageless_ip MemoryStore.noClock (by rw [h.items_ip]; exact hm)]

theorem getByIP_hit (hm : (host, ip) ∈ ps) :
    (m.getByIP ip).1 = some host ∧ Mirrored (m.getByIP ip).2 (touch ps (host, ip)) := by
  have hv := (get_hit h.ageless_host MemoryStore.noClock (h.mem_items_host.mpr hm)).1
  have ht := h.touch_both hm
  cases hg : m.cacheHost.get MemoryStore.noClock ip with
  | mk r c =>
    rw [hg] at hv ht
    cases hv
    simpa [MemoryStore.getByIP, hg] using ht

theorem getByIP_miss (hi : ip ∉ ps.map Prod.snd) : m.getByIP ip = (none, m) := by
  simp [MemoryStore.getByIP, get_miss h.ageless_host MemoryStore.noClock (h.not_mem_host_keys hi)]

theorem getByHost_iff : (m.getByHost host).1 = some ip ↔ (host, ip) ∈ ps := by
  constructor
  · intro hg
    by_cases hm : host ∈ ps.map Prod.fst
    · obtain ⟨⟨host', ip'⟩, hmem, rfl⟩ := mem_map.mp hm
      rw [(h.getByHost_hit hmem).1] at hg
      cases hg
      exact hmem
    · rw [h.getByHost_miss hm] at hg
      cases hg
  · exact fun hm => (h.getByHost_hit hm).1

theorem getByIP_iff : (m.getByIP ip).1 = some host ↔ (host, ip) ∈ ps := by
  constructor
  · intro hg
    by_cases hm : ip ∈ ps.map Prod.snd
    · obtain ⟨⟨host', ip'⟩, hmem, rfl⟩ := mem_map.mp hm
      rw [(h.getByIP_hit hmem).1] at hg
      cases hg
      exact hmem
    · rw [h.getByIP_miss hm] at hg
      cases hg
  · exact fun hm => (h.getByIP_hit hm).1

theorem addr_not_mem_unassign (ip : Addr) : ip ∉ (unassign ps ip).map Prod.snd := by
  have herase : (unassign ps ip).map Prod.snd = (ps.map Prod.snd).erase ip := by
    rw [erase_eq_eraseP', eraseP_map]
    rfl
  rw [herase]
  exact h.addrs_nodup.not_mem_erase

theorem delByIP (ip : Addr) :
    Mirrored (m.delByIP ip) (unassign ps ip) ∧
      (m.delByIP ip).cacheIP.maxSize = m.cacheIP.maxSize := by
  by_cases hi : ip ∈ ps.map Prod.snd
  · obtain ⟨⟨host, ip⟩, hm, rfl⟩ := mem_map.mp hi
    obtain ⟨hv, ha, hs, hit⟩ :=
      get_hit h.ageless_host MemoryStore.noClock (h.mem_items_host.mpr hm)
    cases hg : m.cacheHost.get MemoryStore.noClock ip with
    | mk r c =>
      rw [hg] at hv ha hs hit
      cases hv
      obtain ⟨ha1, hi1⟩ := ageless_delete h.ageless_ip host
      obtain ⟨ha2, hi2⟩ := ageless_delete ha ip
      simp only [MemoryStore.delByIP, hg]
      refine ⟨⟨ha1, ha2, ?_, ?_, ?_⟩, maxSize_delete ..⟩
      · rw [maxSize_delete, maxSize_delete]
        exact hs.trans h.size_eq
      · rw [hi1, h.items_ip, h.eraseP_host hm, h.unassign_eq hm]
      · -- the pair was moved to the end by the lookup and is removed from there
        have hne : ∀ pr ∈ (unassign ps ip).map Prod.swap, ¬ decide (pr.1 = ip) = true := by
          intro pr hpr hd
          obtain ⟨q, hq, rfl⟩ := mem_map.mp hpr
          exact h.addr_not_mem_unassign ip (mem_map.mpr ⟨q, hq, by simpa using hd⟩)
        rw [hi2, hit, h.items_host, eraseP_swap, eraseP_append_right _ hne]
        simp
  · have hg := get_miss h.ageless_host MemoryStore.noClock (h.not_mem_host_keys hi)
    obtain ⟨ha2, hi2⟩ := ageless_delete h.ageless_host ip
    have hun : unassign ps ip = ps := by
      refine eraseP_of_forall_not fun pr hpr hd => ?_
      exact hi (mem_map.mpr ⟨pr, hpr, by simpa using hd⟩)
    simp only [MemoryStore.delByIP, hg]
    refine ⟨⟨h.ageless_ip, ha2, ?_, ?_, ?_⟩, trivial⟩
    · rw [maxSize_delete]
      exact h.size_eq
    · rw [hun]
      exact h.items_ip
    · rw [hi2, h.items_host, eraseP_swap]

theorem putMapping (ip : Addr) (hh : host ∉ ps.map Prod.fst) :
    Mirrored (m.putMapping host ip)
      (evictOver m.cacheIP.maxSize (unassign ps ip ++ [(host, ip)])) := by
  obtain ⟨hd, hds⟩ := h.delByIP ip
  have hsub : ((unassign ps ip).map Prod.fst).Sublist (ps.map Prod.fst) :=
    eraseP_sublist.map _
  have hhost : host ∉ (m.delByIP ip).cacheIP.items.map Prod.fst := by
    rw [hd.items_ip]
    exact fun hm => hh (hsub.subset hm)
  obtain ⟨ha1, hs1, hi1⟩ := set_new hd.ageless_host MemoryStore.noClock host
    (hd.not_mem_host_keys (h.addr_not_mem_unassign ip))
  obtain ⟨ha2, hs2, hi2⟩ := set_new hd.ageless_ip MemoryStore.noClock ip hhost
  refine ⟨ha2, ha1, (hs1.trans hd.size_eq).trans hs2.symm, ?_, ?_⟩
  · exact hi2.trans (by rw [hds, hd.items_ip])
  · refine hi1.trans ?_
    rw [hd.size_eq, hds, hd.items_host, map_evictOver, map_append]
    rfl

theorem flush : Mirrored m.flushFakeIP [] :=
  ⟨ageless_clear h.ageless_ip, ageless_clear h.ageless_host, h.size_eq, rfl, rfl⟩

theorem cloneTo {n : MemoryStore} {qs : List Mapping} (hn : Mirrored n qs) :
    Mirrored (m.cloneTo n) ps := by
  obtain ⟨ha1, hi1⟩ := ageless_cloneTo h.ageless_ip hn.ageless_ip
  obtain ⟨ha2, hi2⟩ := ageless_cloneTo h.ageless_host hn.ageless_host
  exact ⟨ha1, ha2, hn.size_eq, hi1.trans h.items_ip, hi2.trans h.items_host⟩

end

end Mirrored

theorem mirrored_new (size : Int) : Mirrored (.new size) [] :=
  ⟨ageless_new size, ageless_new size, rfl, rfl, rfl⟩

end Mihomo.FakeIP
