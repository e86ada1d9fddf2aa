import Mihomo.Lru.Cache

/-!
# A cache whose entries age

`LruCache` without a size bound, whose entries expire `maxAge` seconds after their last use. Such a
cache is described by the entry it holds for each key.
-/

namespace Mihomo.Lru
open List

universe u v
variable {K : Type u} {V : Type v}

namespace LruCache

/-- `New` with the options `WithAge` and `WithUpdateAgeOnGet`. -/
def newAged (maxAge : Int) : LruCache K V :=
  { maxAge, maxSize := 0, cache := ∅, lru := [], updateAgeOnGet := true, staleReturn := false }

variable [DecidableEq K]

def getOrStore (c : LruCache K V) (now : Int) (key : K) (fresh : V) : V × LruCache K V :=
  match c.get now key with
  | (some value, c) => (value, c)
  | (none, c) => (fresh, c.set now key fresh)

def assign (c : LruCache K V) (key : K) (value : V) : LruCache K V :=
  { c with lru := c.lru.map fun e => if e.key = key then { e with value } else e }

end LruCache

structure Aged (c : LruCache K V) : Prop where
  keys_nodup : (c.lru.map Entry.key).Nodup
  mem_iff : ∀ k, k ∈ c.cache ↔ k ∈ c.lru.map Entry.key
  maxAge_pos : 0 < c.maxAge
  maxSize_eq : c.maxSize = 0
  updateAgeOnGet_eq : c.updateAgeOnGet = true
  staleReturn_eq : c.staleReturn = false

theorem aged_newAged {maxAge : Int} (h : 0 < maxAge) : Aged (LruCache.newAged maxAge : LruCache K V) :=
  ⟨nodup_nil, fun _ => by simp [LruCache.newAged], h, rfl, rfl, rfl⟩

variable [DecidableEq K]

/-! ### The entry of a key -/

def find (es : List (Entry K V)) (k : K) : Option (Entry K V) := es.find? fun e => decide (e.key = k)

def Unexpired (es : List (Entry K V)) (k : K) (now : Int) : Prop :=
  ∀ e, find es k = some e → now < e.expires

variable {es : List (Entry K V)} {k k' : K} {now : Int}

theorem find_cons (e : Entry K V) : find (e :: es) k = if e.key = k then some e else find es k := by
  by_cases h : e.key = k <;> simp [find, h]

theorem find_append (e : Entry K V) : find (es ++ [e]) k = (find es k).or (find [e] k) :=
  find?_append

theorem key_of_find {e : Entry K V} (h : find es k = some e) : e.key = k := by
  simpa using find?_some h

theorem mem_of_find {e : Entry K V} (h : find es k = some e) : e ∈ es := mem_of_find?_eq_some h

theorem find_eq_none_iff : find es k = none ↔ k ∉ es.map Entry.key := by
  simp [find]

theorem keys_eraseP (es : List (Entry K V)) (k : K) :
    (es.eraseP fun e => decide (e.key = k)).map Entry.key = (es.map Entry.key).erase k := by
  rw [erase_eq_eraseP', eraseP_map]
  rfl

theorem find_eraseP_of_ne (h : k' ≠ k) :
    find (es.eraseP fun e => decide (e.key = k)) k' = find es k' := by
  induction es with
  | nil => rfl
  | cons e es ih =>
    by_cases he : e.key = k
    · rw [eraseP_cons_of_pos (by simpa using he), find_cons, if_neg (he ▸ h.symm)]
    · rw [eraseP_cons_of_neg (by simpa using he), find_cons, find_cons, ih]

theorem find_eraseP_self (h : (es.map Entry.key).Nodup) :
    find (es.eraseP fun e => decide (e.key = k)) k = none := by
  rw [find_eq_none_iff, keys_eraseP]
  exact h.not_mem_erase

theorem element_eq_find {c : LruCache K V} (h : Aged c) (k : K) : c.element k = find c.lru k := by
  by_cases hk : k ∈ c.cache
  · rw [LruCache.element, if_pos hk]
    rfl
  · rw [LruCache.element, if_neg hk, eq_comm, find_eq_none_iff, ← h.mem_iff]
    exact hk

/-! ### The parts of the operations -/

section Parts

variable {c : LruCache K V}

theorem Aged.deleteElement (h : Aged c) (k : K) : Aged (c.deleteElement k) := by
  refine ⟨?_, fun k' => ?_, h.maxAge_pos, h.maxSize_eq, h.updateAgeOnGet_eq, h.staleReturn_eq⟩
  · rw [LruCache.deleteElement, keys_eraseP]
    exact h.keys_nodup.erase k
  · rw [LruCache.deleteElement, keys_eraseP, h.keys_nodup.mem_erase_iff, ← h.mem_iff]
    exact Finset.mem_erase

theorem dropExpired_keys (now : Int) {cache : Finset K} (hnodup : (es.map Entry.key).Nodup)
    (hmem : ∀ k, k ∈ cache ↔ k ∈ es.map Entry.key) :
    ((LruCache.dropExpired now es cache).1.map Entry.key).Nodup ∧
      ∀ k, k ∈ (LruCache.dropExpired now es cache).2 ↔
        k ∈ (LruCache.dropExpired now es cache).1.map Entry.key := by
  induction es generalizing cache with
  | nil => exact ⟨nodup_nil, hmem⟩
  | cons e es ih =>
    rw [LruCache.dropExpired]
    split_ifs
    · rw [map_cons, nodup_cons] at hnodup
      refine ih hnodup.2 fun k => ?_
      rw [Finset.mem_erase, hmem, map_cons, mem_cons]
      constructor
      · rintro ⟨hne, heq | hk⟩
        · exact absurd heq hne
        · exact hk
      · intro hk
        exact ⟨fun heq => hnodup.1 (heq ▸ hk), .inr hk⟩
    · exact ⟨hnodup, hmem⟩

theorem dropExpired_subset (cache : Finset K) : (LruCache.dropExpired now es cache).1 ⊆ es := by
  induction es generalizing cache with
  | nil => exact .refl []
  | cons e es ih =>
    rw [LruCache.dropExpired]
    split_ifs
    · exact List.Subset.trans (ih _) (subset_cons_self e es)
    · exact .refl _

theorem find_dropExpired (cache : Finset K) (h : Unexpired es k now) :
    find (LruCache.dropExpired now es cache).1 k = find es k := by
  induction es generalizing cache with
  | nil => rfl
  | cons e es ih =>
    rw [LruCache.dropExpired]
    split_ifs with hexpired
    · have hne : e.key ≠ k := by
        intro heq
        have hlt := h e (by rw [find_cons, if_pos heq])
        omega
      have hfind : find (e :: es) k = find es k := by rw [find_cons, if_neg hne]
      rw [hfind]
      exact ih _ fun e' he' => h e' (hfind.trans he')
    · rfl

theorem maybeDeleteOldest_of_aged (h : Aged c) (now : Int) :
    c.maybeDeleteOldest now =
      { c with
        lru := (LruCache.dropExpired now c.lru c.cache).1
        cache := (LruCache.dropExpired now c.lru c.cache).2 } := by
  have hage := h.maxAge_pos
  rw [LruCache.maybeDeleteOldest, h.staleReturn_eq, if_pos ⟨rfl, hage⟩]

theorem Aged.maybeDeleteOldest (h : Aged c) (now : Int) : Aged (c.maybeDeleteOldest now) := by
  obtain ⟨hnodup, hmem⟩ := dropExpired_keys now h.keys_nodup h.mem_iff
  rw [maybeDeleteOldest_of_aged h]
  exact ⟨hnodup, hmem, h.maxAge_pos, h.maxSize_eq, h.updateAgeOnGet_eq, h.staleReturn_eq⟩

theorem maybeDeleteOldest_subset (h : Aged c) : (c.maybeDeleteOldest now).lru ⊆ c.lru := by
  rw [maybeDeleteOldest_of_aged h]
  exact dropExpired_subset _

theorem find_maybeDeleteOldest (h : Aged c) (hk : Unexpired c.lru k now) :
    find (c.maybeDeleteOldest now).lru k = find c.lru k := by
  rw [maybeDeleteOldest_of_aged h]
  exact find_dropExpired _ hk

variable {e : Entry K V}

theorem Aged.moveToBack (h : Aged c) (he : e.key ∈ c.lru.map Entry.key) :
    Aged (c.moveToBack e) := by
  have hperm : ((c.moveToBack e).lru.map Entry.key).Perm (c.lru.map Entry.key) := by
    rw [LruCache.moveToBack, map_append, keys_eraseP]
    exact perm_append_comm.trans (perm_cons_erase he).symm
  refine ⟨hperm.nodup_iff.mpr h.keys_nodup, fun k => ?_, h.maxAge_pos, h.maxSize_eq, h.updateAgeOnGet_eq,
    h.staleReturn_eq⟩
  rw [hperm.mem_iff]
  exact h.mem_iff k

theorem find_moveToBack_of_ne (hne : k ≠ e.key) : find (c.moveToBack e).lru k = find c.lru k := by
  rw [LruCache.moveToBack, find_append, find_eraseP_of_ne hne, find_cons, if_neg hne.symm]
  exact Option.or_none

theorem find_moveToBack_self (h : Aged c) (e : Entry K V) :
    find (c.moveToBack e).lru e.key = some e := by
  rw [LruCache.moveToBack, find_append, find_eraseP_self h.keys_nodup, find_cons, if_pos rfl,
    Option.none_or]

theorem Aged.pushBack (h : Aged c) (he : find c.lru e.key = none) : Aged (c.pushBack e) := by
  have hkeys : (c.pushBack e).lru.map Entry.key = c.lru.map Entry.key ++ [e.key] := by
    rw [LruCache.pushBack, map_append]
    rfl
  have hnew := find_eq_none_iff.mp he
  refine ⟨?_, fun k => ?_, h.maxAge_pos, h.maxSize_eq, h.updateAgeOnGet_eq, h.staleReturn_eq⟩
  · rw [hkeys, ← concat_eq_append]
    exact h.keys_nodup.concat hnew
  · rw [hkeys, mem_append, mem_singleton, ← h.mem_iff]
    exact Finset.mem_insert.trans or_comm

theorem find_pushBack_of_ne (hne : k ≠ e.key) : find (c.pushBack e).lru k = find c.lru k := by
  rw [LruCache.pushBack, find_append, find_cons, if_neg hne.symm]
  exact Option.or_none

theorem find_pushBack_self (he : find c.lru e.key = none) :
    find (c.pushBack e).lru e.key = some e := by
  rw [LruCache.pushBack, find_append, he, find_cons, if_pos rfl, Option.none_or]

theorem Aged.assign (h : Aged c) (k : K) (v : V) : Aged (c.assign k v) := by
  have hkeys : (c.assign k v).lru.map Entry.key = c.lru.map Entry.key := by
    rw [LruCache.assign, map_map]
    refine map_congr_left fun e _ => ?_
    rw [Function.comp_apply]
    split_ifs <;> rfl
  refine ⟨by rw [hkeys]; exact h.keys_nodup, fun k' => ?_, h.maxAge_pos, h.maxSize_eq,
    h.updateAgeOnGet_eq,
    h.staleReturn_eq⟩
  rw [hkeys]
  exact h.mem_iff k'

theorem find_assign (v : V) :
    find (c.assign k' v).lru k =
      (find c.lru k).map fun e => if k = k' then { e with value := v } else e := by
  rw [LruCache.assign]
  induction c.lru with
  | nil => rfl
  | cons e es ih =>
    have hkey : (if e.key = k' then { e with value := v } else e).key = e.key := by
      split_ifs <;> rfl
    rw [map_cons, find_cons, find_cons, hkey]
    by_cases hk : e.key = k
    · rw [if_pos hk, if_pos hk, Option.map_some, hk]
    · rw [if_neg hk, if_neg hk]
      exact ih

theorem Aged.delete (h : Aged c) (k : K) : Aged (c.delete k) := by
  unfold LruCache.delete
  split
  · exact h.deleteElement k
  · exact h

theorem find_delete (h : Aged c) : find (c.delete k').lru k = if k = k' then none else find c.lru k := by
  unfold LruCache.delete
  rw [element_eq_find h]
  cases hfind : find c.lru k' with
  | some e =>
    split_ifs with hk
    · rw [hk]
      exact find_eraseP_self h.keys_nodup
    · exact find_eraseP_of_ne hk
  | none =>
    split_ifs with hk
    · rw [hk, hfind]
    · rfl

theorem delete_subset (c : LruCache K V) (k : K) : (c.delete k).lru ⊆ c.lru := by
  unfold LruCache.delete
  split
  · exact eraseP_subset
  · exact .refl _

end Parts

/-! ### `GetOrStore` -/

section GetOrStore

variable {c : LruCache K V} {fresh : V}

theorem set_of_absent (h : Aged c) (hk : find c.lru k = none) :
    c.set now k fresh = (c.pushBack ⟨k, fresh, now + c.maxAge⟩).maybeDeleteOldest now := by
  have hage := h.maxAge_pos
  have hsize :
      (c.pushBack ⟨k, fresh, now + c.maxAge⟩).evictFront = c.pushBack ⟨k, fresh, now + c.maxAge⟩ := by
    have hbound : ¬ (c.pushBack ⟨k, fresh, now + c.maxAge⟩).maxSize > 0 := by
      change ¬ c.maxSize > 0
      rw [h.maxSize_eq]
      exact lt_irrefl 0
    rw [LruCache.evictFront, if_neg fun hc => hbound hc.1]
  rw [LruCache.set, if_pos hage, LruCache.setWithExpire, element_eq_find h, hk]
  exact congrArg (LruCache.maybeDeleteOldest · now) hsize

inductive Fetched (c : LruCache K V) (now : Int) (k : K) (fresh : V) : V × LruCache K V → Prop where
  | hit {e : Entry K V} (he : find c.lru k = some e) (hlive : now < e.expires) :
    Fetched c now k fresh (e.value, c.moveToBack { e with expires := now + c.maxAge })
  | miss (he : find c.lru k = none) : Fetched c now k fresh (fresh, c.set now k fresh)
  | expired {e : Entry K V} (he : find c.lru k = some e) (hdead : e.expires ≤ now) :
    Fetched c now k fresh (fresh, ((c.deleteElement k).maybeDeleteOldest now).set now k fresh)

section
variable (h : Aged c)
include h

theorem fetched_getOrStore (now : Int) (k : K) (fresh : V) :
    Fetched c now k fresh (c.getOrStore now k fresh) := by
  have hage := h.maxAge_pos
  unfold LruCache.getOrStore LruCache.get
  rw [element_eq_find h]
  cases hfind : find c.lru k with
  | none => exact .miss hfind
  | some e =>
    by_cases hdead : e.expires ≤ now
    · simp only [h.staleReturn_eq, hage, hdead]
      exact .expired hfind hdead
    · simp only [h.updateAgeOnGet_eq, hage, hdead, and_false, and_self, if_true]
      exact .hit hfind (not_le.mp hdead)

theorem Aged.set_of_absent (hk : find c.lru k = none) : Aged (c.set now k fresh) := by
  rw [Lru.set_of_absent h hk]
  exact (h.pushBack hk).maybeDeleteOldest now

theorem find_set_of_ne (hk : find c.lru k = none) (hne : k' ≠ k)
    (hlive : Unexpired c.lru k' now) : find (c.set now k fresh).lru k' = find c.lru k' := by
  have hpush := find_pushBack_of_ne (c := c) (e := ⟨k, fresh, now + c.maxAge⟩) hne
  rw [set_of_absent h hk, find_maybeDeleteOldest (h.pushBack hk), hpush]
  intro e he
  exact hlive e (hpush ▸ he)

theorem find_set_self (hk : find c.lru k = none) :
    find (c.set now k fresh).lru k = some ⟨k, fresh, now + c.maxAge⟩ := by
  have hpush := find_pushBack_self (e := ⟨k, fresh, now + c.maxAge⟩) hk
  have hage := h.maxAge_pos
  rw [set_of_absent h hk, find_maybeDeleteOldest (h.pushBack hk), hpush]
  intro e he
  rw [hpush, Option.some.injEq] at he
  rw [← he]
  exact Int.lt_add_of_pos_right now hage

theorem find_purged : find ((c.deleteElement k).maybeDeleteOldest now).lru k = none := by
  have hdel : find (c.deleteElement k).lru k = none := find_eraseP_self h.keys_nodup
  rw [find_maybeDeleteOldest (h.deleteElement k), hdel]
  intro e he
  rw [hdel] at he
  cases he

theorem find_purged_of_ne (hne : k' ≠ k) (hlive : Unexpired c.lru k' now) :
    find ((c.deleteElement k).maybeDeleteOldest now).lru k' = find c.lru k' := by
  have hdel : find (c.deleteElement k).lru k' = find c.lru k' := find_eraseP_of_ne hne
  rw [find_maybeDeleteOldest (h.deleteElement k), hdel]
  intro e he
  exact hlive e (hdel ▸ he)

theorem Aged.getOrStore (now : Int) (k : K) (fresh : V) : Aged (c.getOrStore now k fresh).2 := by
  have hcase := fetched_getOrStore h now k fresh
  generalize c.getOrStore now k fresh = r at hcase
  cases hcase with
  | hit he hlive =>
    exact h.moveToBack (mem_map.mpr ⟨_, mem_of_find he, rfl⟩)
  | miss he => exact h.set_of_absent he
  | expired he hdead => exact ((h.deleteElement k).maybeDeleteOldest now).set_of_absent (find_purged h)

theorem find_getOrStore_of_ne (fresh : V) (hne : k' ≠ k) (hlive : Unexpired c.lru k' now) :
    find (c.getOrStore now k fresh).2.lru k' = find c.lru k' := by
  have hcase := fetched_getOrStore h now k fresh
  generalize c.getOrStore now k fresh = r at hcase
  cases hcase with
  | hit he _ => exact find_moveToBack_of_ne (by rwa [key_of_find he])
  | miss he => exact find_set_of_ne h he hne hlive
  | expired he _ =>
    have hpurged := find_purged_of_ne h hne hlive
    refine (find_set_of_ne ((h.deleteElement k).maybeDeleteOldest now) (find_purged h) hne ?_).trans
      hpurged
    intro e he'
    exact hlive e (hpurged ▸ he')

theorem getOrStore_hit (fresh : V) {e : Entry K V} (he : find c.lru k = some e)
    (hlive : now < e.expires) :
    (c.getOrStore now k fresh).1 = e.value ∧
      find (c.getOrStore now k fresh).2.lru k = some { e with expires := now + c.maxAge } := by
  have hcase := fetched_getOrStore h now k fresh
  generalize c.getOrStore now k fresh = r at hcase
  cases hcase with
  | @hit e' he' hlive' =>
    obtain rfl : e' = e := Option.some.inj (he'.symm.trans he)
    obtain rfl := key_of_find he
    exact ⟨rfl, find_moveToBack_self h { e' with expires := now + c.maxAge }⟩
  | miss he' => rw [he] at he'; cases he'
  | @expired e' he' hdead =>
    obtain rfl : e' = e := Option.some.inj (he'.symm.trans he)
    omega

theorem getOrStore_miss (now : Int) (fresh : V) (he : find c.lru k = none) :
    (c.getOrStore now k fresh).1 = fresh ∧
      find (c.getOrStore now k fresh).2.lru k = some ⟨k, fresh, now + c.maxAge⟩ := by
  have hcase := fetched_getOrStore h now k fresh
  generalize c.getOrStore now k fresh = r at hcase
  cases hcase with
  | hit he' _ | expired he' _ => rw [he] at he'; cases he'
  | miss he' => exact ⟨rfl, find_set_self h he'⟩

end

end GetOrStore

/-! ### All entries -/

section Entries

variable {c : LruCache K V} {fresh : V} {P : K → V → Prop}

def EachEntry (P : K → V → Prop) (c : LruCache K V) : Prop := ∀ e ∈ c.lru, P e.key e.value

theorem EachEntry.set (h : Aged c) (hc : EachEntry P c) (hk : find c.lru k = none) (hfresh : P k fresh) :
    EachEntry P (c.set now k fresh) := by
  intro e he
  rw [set_of_absent h hk] at he
  obtain hmem | hmem := mem_append.mp (maybeDeleteOldest_subset (h.pushBack hk) he)
  · exact hc e hmem
  · rw [mem_singleton.mp hmem]
    exact hfresh

theorem EachEntry.getOrStore (h : Aged c) (hc : EachEntry P c) (hfresh : P k fresh) :
    EachEntry P (c.getOrStore now k fresh).2 ∧ P k (c.getOrStore now k fresh).1 := by
  have hcase := fetched_getOrStore h now k fresh
  generalize c.getOrStore now k fresh = r at hcase
  cases hcase with
  | @hit e he _ =>
    have hP : P k e.value := key_of_find he ▸ hc e (mem_of_find he)
    refine ⟨fun e' he' => ?_, hP⟩
    obtain hmem | hmem := mem_append.mp he'
    · exact hc e' (eraseP_subset hmem)
    · rw [mem_singleton.mp hmem, key_of_find he]
      exact hP
  | miss he => exact ⟨hc.set h he hfresh, hfresh⟩
  | expired he _ =>
    have hpurged : EachEntry P ((c.deleteElement k).maybeDeleteOldest now) := fun e he =>
      hc e (eraseP_subset (maybeDeleteOldest_subset (h.deleteElement k) he))
    exact ⟨hpurged.set ((h.deleteElement k).maybeDeleteOldest now) (find_purged h) hfresh, hfresh⟩

theorem EachEntry.assign (hc : EachEntry P c) {v : V} (hv : P k v) : EachEntry P (c.assign k v) := by
  intro e he
  obtain ⟨e₀, he₀, rfl⟩ := mem_map.mp he
  split_ifs with hk
  · exact hk ▸ hv
  · exact hc e₀ he₀

theorem EachEntry.delete (hc : EachEntry P c) (k : K) : EachEntry P (c.delete k) := fun e he =>
  hc e (delete_subset c k he)

end Entries

end Mihomo.Lru
