import Mihomo.Lru.Cache

/-!
# The cache as a recency list

A cache whose map and list agree and whose entries do not age is a list of key-value pairs, least
recent first.
-/

namespace Mihomo.Lru
open List

universe u v
variable {K : Type u} {V : Type v}

/-- Drops the least recent element of a list that exceeds its capacity; a
capacity that is not positive is no bound. -/
def evictOver {α : Type u} (cap : Int) (l : List α) : List α :=
  if cap > 0 ∧ (l.length : Int) > cap then l.tail else l

variable {α : Type u} {c : LruCache K V} {k : K}

theorem map_evictOver {β : Type u} (f : α → β) (cap : Int) (l : List α) :
    (evictOver cap l).map f = evictOver cap (l.map f) := by
  unfold evictOver
  rw [length_map]
  split
  · exact map_tail
  · rfl

theorem mem_evictOver_last (cap : Int) (l : List α) (a : α) : a ∈ evictOver cap (l ++ [a]) := by
  unfold evictOver
  split
  · cases l with
    | nil =>
      rename_i h
      simp only [nil_append, length_singleton] at h
      omega
    | cons b l => simp
  · simp

theorem evictOver_subset (cap : Int) (l : List α) : evictOver cap l ⊆ l := by
  unfold evictOver
  split
  · exact tail_subset l
  · exact .refl l

def LruCache.items (c : LruCache K V) : List (K × V) := c.lru.map fun e => (e.key, e.value)

structure Ageless (c : LruCache K V) : Prop where
  keys_nodup : (c.items.map Prod.fst).Nodup
  mem_iff : ∀ k, k ∈ c.cache ↔ k ∈ c.items.map Prod.fst
  maxAge_eq : c.maxAge = 0

theorem ageless_new (maxSize : Int) : Ageless (LruCache.new maxSize : LruCache K V) :=
  ⟨nodup_nil, fun _ => by simp [LruCache.new, LruCache.items], rfl⟩

theorem ageless_clear (h : Ageless c) : Ageless c.clear :=
  ⟨nodup_nil, fun _ => by simp [LruCache.clear, LruCache.items], h.maxAge_eq⟩

variable [DecidableEq K]

theorem element_eq_none (h : Ageless c) (hk : k ∉ c.items.map Prod.fst) : c.element k = none := by
  rw [LruCache.element, if_neg fun hm => hk ((h.mem_iff k).mp hm)]

theorem element_eq_some (h : Ageless c) {v : V} (hk : (k, v) ∈ c.items) :
    ∃ e, c.element k = some e ∧ e.key = k ∧ e.value = v := by
  have hm : k ∈ c.cache := (h.mem_iff k).mpr (mem_map_of_mem hk)
  obtain ⟨e, he, heq⟩ := mem_map.mp hk
  cases heq
  rw [LruCache.element, if_pos hm]
  cases hf : c.lru.find? fun e' => decide (e'.key = e.key) with
  | none => exact absurd he (by simpa using find?_eq_none.mp hf e he)
  | some e' =>
    have hk' : e'.key = e.key := by simpa using find?_some hf
    refine ⟨e', rfl, hk', ?_⟩
    have hinj := inj_on_of_nodup_map h.keys_nodup
      (mem_map_of_mem (mem_of_find?_eq_some hf))
      (mem_map_of_mem he) hk'
    exact congrArg Prod.snd hinj

theorem maybeDeleteOldest_eq (h : c.maxAge = 0) (now : Int) : c.maybeDeleteOldest now = c := by
  simp [LruCache.maybeDeleteOldest, h]

theorem items_eraseP (c : LruCache K V) (k : K) :
    (c.lru.eraseP fun e => decide (e.key = k)).map (fun e => (e.key, e.value)) =
      c.items.eraseP fun p => decide (p.1 = k) := by
  rw [LruCache.items, eraseP_map]
  rfl

theorem ageless_deleteElement (h : Ageless c) (k : K) :
    Ageless (c.deleteElement k) ∧
      (c.deleteElement k).items = c.items.eraseP fun p => decide (p.1 = k) := by
  have hi : (c.deleteElement k).items = c.items.eraseP fun p => decide (p.1 = k) := items_eraseP c k
  have hkeys : (c.deleteElement k).items.map Prod.fst = (c.items.map Prod.fst).erase k := by
    rw [hi, erase_eq_eraseP', eraseP_map]
    rfl
  refine ⟨⟨?_, ?_, h.maxAge_eq⟩, hi⟩
  · rw [hkeys]
    exact h.keys_nodup.erase k
  · intro k'
    rw [hkeys, h.keys_nodup.mem_erase_iff, ← h.mem_iff]
    exact Finset.mem_erase

theorem ageless_delete (h : Ageless c) (k : K) :
    Ageless (c.delete k) ∧ (c.delete k).items = c.items.eraseP fun p => decide (p.1 = k) := by
  by_cases hk : k ∈ c.items.map Prod.fst
  · obtain ⟨⟨k', v⟩, hm, rfl⟩ := mem_map.mp hk
    obtain ⟨e, he, _, _⟩ := element_eq_some h hm
    simp only [LruCache.delete, he]
    exact ageless_deleteElement h k'
  · have he := element_eq_none h hk
    simp only [LruCache.delete, he]
    refine ⟨h, (eraseP_of_forall_not ?_).symm⟩
    intro p hp hpk
    exact hk (mem_map.mpr ⟨p, hp, by simpa using hpk⟩)

theorem maxSize_delete (c : LruCache K V) (k : K) : (c.delete k).maxSize = c.maxSize := by
  unfold LruCache.delete
  split <;> rfl

theorem get_miss (h : Ageless c) (now : Int)
    (hk : k ∉ c.items.map Prod.fst) : c.get now k = (none, c) := by
  simp [LruCache.get, element_eq_none h hk]

theorem get_hit (h : Ageless c) (now : Int) {v : V} (hk : (k, v) ∈ c.items) :
    (c.get now k).1 = some v ∧ Ageless (c.get now k).2 ∧
      (c.get now k).2.maxSize = c.maxSize ∧
      (c.get now k).2.items = (c.items.eraseP fun p => decide (p.1 = k)) ++ [(k, v)] := by
  obtain ⟨e, he, rfl, rfl⟩ := element_eq_some h hk
  have hget : c.get now e.key = (some e.value, c.moveToBack e) := by
    simp [LruCache.get, he, h.maxAge_eq]
  have hi : (c.moveToBack e).items =
      (c.items.eraseP fun p => decide (p.1 = e.key)) ++ [(e.key, e.value)] := by
    rw [← items_eraseP]
    simp [LruCache.moveToBack, LruCache.items]
  have hkeys : ((c.moveToBack e).items.map Prod.fst).Perm (c.items.map Prod.fst) := by
    rw [hi, map_append]
    have herase : (c.items.eraseP fun p => decide (p.1 = e.key)).map Prod.fst =
        (c.items.map Prod.fst).erase e.key := by
      rw [erase_eq_eraseP', eraseP_map]
      rfl
    rw [herase]
    refine perm_append_comm.trans ?_
    exact (perm_cons_erase (mem_map_of_mem hk)).symm
  rw [hget]
  refine ⟨rfl, ⟨hkeys.nodup_iff.mpr h.keys_nodup, ?_, h.maxAge_eq⟩, rfl, hi⟩
  intro k'
  rw [hkeys.mem_iff]
  exact h.mem_iff k'

theorem ageless_pushBack (h : Ageless c) {e : Entry K V}
    (he : e.key ∉ c.items.map Prod.fst) : Ageless (c.pushBack e) := by
  have hi : (c.pushBack e).items.map Prod.fst = c.items.map Prod.fst ++ [e.key] := by
    simp [LruCache.pushBack, LruCache.items]
  refine ⟨?_, ?_, h.maxAge_eq⟩
  · rw [hi, ← concat_eq_append]
    exact h.keys_nodup.concat he
  · intro k
    rw [hi, mem_append, mem_singleton, ← h.mem_iff]
    exact Finset.mem_insert.trans or_comm

theorem set_new (h : Ageless c) (now : Int) (v : V) (hk : k ∉ c.items.map Prod.fst) :
    Ageless (c.set now k v) ∧ (c.set now k v).maxSize = c.maxSize ∧
      (c.set now k v).items = evictOver c.maxSize (c.items ++ [(k, v)]) := by
  have hp := ageless_pushBack (e := { key := k, value := v, expires := 0 }) h hk
  have hset : c.set now k v = (c.pushBack { key := k, value := v, expires := 0 }).evictFront := by
    have hc : (c.pushBack { key := k, value := v, expires := 0 }).evictFront.maxAge = 0 := by
      unfold LruCache.evictFront
      split
      · split <;> exact h.maxAge_eq
      · exact h.maxAge_eq
    simp only [LruCache.set, LruCache.setWithExpire, element_eq_none h hk, h.maxAge_eq]
    exact maybeDeleteOldest_eq hc now
  have hi : (c.pushBack { key := k, value := v, expires := 0 }).items = c.items ++ [(k, v)] := by
    simp [LruCache.pushBack, LruCache.items]
  rw [hset, ← hi]
  generalize hd : c.pushBack { key := k, value := v, expires := 0 } = d at hp
  have hsize : d.maxSize = c.maxSize := by rw [← hd]; rfl
  rw [← hsize]
  have hlen : (d.lru.length : Int) = d.items.length := by simp [LruCache.items]
  unfold LruCache.evictFront evictOver
  rw [hlen]
  split
  · cases hl : d.lru with
    | nil => simp [LruCache.items, hl, hp]
    | cons e es =>
      obtain ⟨ha, hit⟩ := ageless_deleteElement hp e.key
      refine ⟨ha, rfl, hit.trans ?_⟩
      simp [LruCache.items, hl]
  · exact ⟨hp, rfl, rfl⟩

theorem ageless_cloneTo {n : LruCache K V} (hc : Ageless c) (hn : Ageless n) :
    Ageless (c.cloneTo n) ∧ (c.cloneTo n).items = c.items := by
  refine ⟨⟨hc.keys_nodup, fun k => ?_, hn.maxAge_eq⟩, rfl⟩
  simp [LruCache.cloneTo, LruCache.items]

end Mihomo.Lru
