import Mihomo.DevCache.Cache
import Mihomo.Lib.Run

/-!
# Flights

The flight table holds exactly the open flights, each under its key. A flight is closed once, with its
result written once. A worker that finds another flight, or none, under its key only returns.
-/

namespace Mihomo.DevCache
open Lib AList

universe u
variable {K V E B : Type u}

section
variable [Inhabited V]

def invalidatedResult : Result V E := { value := default, err := some .invalidated }

/-- An open flight has no result and a running worker; a closed one has a result
that was written once and that is its worker's unless it was invalidated. -/
structure Flight.Sound (f : Flight K V E) : Prop where
  opened : f.closed = false → f.writes = 0 ∧ f.result = none ∧ f.outcome = none
  ended : f.closed = true → f.writes = 1 ∧ ∃ r, f.result = some r ∧
    (r = invalidatedResult ∨ f.outcome = some (r.value, r.err))

end

def Later (t t' : Table K V E) : Prop :=
  ∀ (i : Nat) (f : Flight K V E), t.heap[i]? = some f →
    ∃ f' : Flight K V E, t'.heap[i]? = some f' ∧ f'.key = f.key ∧
      (f.closed = true → f'.closed = true ∧ f'.result = f.result)

theorem Later.refl (t : Table K V E) : Later t t := fun _ f h => ⟨f, h, rfl, fun hc => ⟨hc, rfl⟩⟩

theorem Later.trans {t₁ t₂ t₃ : Table K V E} (h : Later t₁ t₂) (h' : Later t₂ t₃) : Later t₁ t₃ := by
  intro i f hf
  obtain ⟨g, hg, hk, hc⟩ := h i f hf
  obtain ⟨g', hg', hk', hc'⟩ := h' i g hg
  refine ⟨g', hg', hk'.trans hk, fun hf' => ?_⟩
  obtain ⟨h1, h2⟩ := hc hf'
  obtain ⟨h3, h4⟩ := hc' h1
  exact ⟨h3, h4.trans h2⟩

theorem settle_eq (t : Table K V E) {i : Nat} {f : Flight K V E} (hf : t.heap[i]? = some f)
    (ho : f.closed = false) (r : Result V E) : t.settle i r = .ok { t with
      heap := t.heap.set i { f with result := some r, writes := f.writes + 1, closed := true } } := by
  simp [Table.settle, hf, ho]

theorem getElem?_set_of_some {α : Type u} {l : List α} {i : Nat} {a : α} (h : l[i]? = some a) (b : α)
    (j : Nat) : (l.set i b)[j]? = if j = i then some b else l[j]? := by
  obtain ⟨hi, _⟩ := List.getElem?_eq_some_iff.mp h
  by_cases hj : j = i
  · subst hj
    simp [hi]
  · rw [if_neg hj, List.getElem?_set_ne (.symm hj)]

variable [DecidableEq K] [Inhabited V]

structure Table.Sound (t : Table K V E) : Prop where
  lookup_iff : ∀ (k : K) (i : Nat), t.flights.lookup k = some i ↔
    ∃ f : Flight K V E, t.heap[i]? = some f ∧ f.key = k ∧ f.closed = false
  flight : ∀ (i : Nat) (f : Flight K V E), t.heap[i]? = some f → f.Sound

namespace Table.Sound
variable {t : Table K V E}

theorem empty : Table.Sound ({ flights := ∅, heap := [] } : Table K V E) where
  lookup_iff k i := by simp
  flight i f h := by simp at h

variable {f f' : Flight K V E} {i : Nat}

theorem closed_of_lookup_none (h : t.Sound) {k : K} (hk : t.flights.lookup k = none)
    (hf : t.heap[i]? = some f) (hkey : f.key = k) : f.closed = true := by
  by_contra hc
  have := (h.lookup_iff k i).mpr ⟨f, hf, hkey, Bool.eq_false_iff.mpr hc⟩
  rw [hk] at this
  cases this

theorem index_unique (h : t.Sound) {j : Nat} {g : Flight K V E} (hf : t.heap[i]? = some f)
    (hg : t.heap[j]? = some g) (hfo : f.closed = false) (hgo : g.closed = false)
    (hkey : f.key = g.key) : i = j := by
  have h1 := (h.lookup_iff f.key i).mpr ⟨f, hf, rfl, hfo⟩
  have h2 := (h.lookup_iff f.key j).mpr ⟨g, hg, hkey.symm, hgo⟩
  rw [h1] at h2
  exact Option.some.inj h2

omit [DecidableEq K] [Inhabited V] in
theorem open_set_iff {j : Nat} (hf : t.heap[i]? = some f) (hc : f'.closed = true) (k : K) :
    (∃ g, (t.heap.set i f')[j]? = some g ∧ g.key = k ∧ g.closed = false) ↔
      j ≠ i ∧ ∃ g, t.heap[j]? = some g ∧ g.key = k ∧ g.closed = false := by
  rw [getElem?_set_of_some hf f']
  by_cases hj : j = i
  · rw [if_pos hj]
    constructor
    · rintro ⟨g, hg, _, ho⟩
      cases hg
      rw [hc] at ho
      cases ho
    · rintro ⟨hne, _⟩
      exact absurd hj hne
  · rw [if_neg hj]
    exact (and_iff_right hj).symm

theorem flight_set (h : t.Sound) (hf : t.heap[i]? = some f) (hs : f'.Sound) (j : Nat)
    (g : Flight K V E) (hg : (t.heap.set i f')[j]? = some g) : g.Sound := by
  rw [getElem?_set_of_some hf f'] at hg
  split at hg
  · cases hg
    exact hs
  · exact h.flight j g hg

omit [DecidableEq K] [Inhabited V] in
theorem later_set {t' : Table K V E} (hheap : t'.heap = t.heap.set i f')
    (hf : t.heap[i]? = some f) (hk : f'.key = f.key)
    (hkeep : f.closed = true → f'.closed = true ∧ f'.result = f.result) : Later t t' := by
  intro j g hg
  rw [hheap, getElem?_set_of_some hf f']
  by_cases hj : j = i
  · subst hj
    cases hf.symm.trans hg
    exact ⟨f', if_pos rfl, hk, hkeep⟩
  · exact ⟨g, (if_neg hj).trans hg, rfl, fun hgc => ⟨hgc, rfl⟩⟩

theorem close (h : t.Sound) (hf : t.heap[i]? = some f)
    (ho : f.closed = false) (hs : f'.Sound) (hk : f'.key = f.key) (hc : f'.closed = true) :
    let t' : Table K V E := { flights := t.flights.erase f.key, heap := t.heap.set i f' }
    t'.Sound ∧ Later t t' := by
  refine ⟨⟨fun k j => ?_, h.flight_set hf hs⟩, later_set rfl hf hk fun hfc => ?_⟩
  · rw [open_set_iff hf hc]
    by_cases hkey : k = f.key
    · -- the only open flight under this key was the one just closed
      subst hkey
      rw [lookup_erase]
      refine ⟨fun hnone => (by cases hnone), ?_⟩
      rintro ⟨hj, g, hg, hgk, hgo⟩
      exact absurd (h.index_unique hg hf hgo ho hgk) hj
    · rw [lookup_erase_ne hkey, h.lookup_iff]
      refine ⟨fun hopen => ⟨?_, hopen⟩, fun hopen => hopen.2⟩
      rintro rfl
      obtain ⟨g, hg, hgk, _⟩ := hopen
      cases hf.symm.trans hg
      exact hkey hgk.symm
  · rw [ho] at hfc
    cases hfc

theorem recordOutcome (h : t.Sound) (hf : t.heap[i]? = some f) (hc : f.closed = true)
    (hs : f'.Sound) (hk : f'.key = f.key) (hc' : f'.closed = true) (hr : f'.result = f.result) :
    let t' : Table K V E := { t with heap := t.heap.set i f' }
    t'.Sound ∧ Later t t' := by
  refine ⟨⟨fun k j => ?_, h.flight_set hf hs⟩, later_set rfl hf hk fun _ => ⟨hc', hr⟩⟩
  rw [open_set_iff hf hc', h.lookup_iff]
  refine ⟨fun hopen => ⟨?_, hopen⟩, fun hopen => hopen.2⟩
  rintro rfl
  obtain ⟨g, hg, _, hgo⟩ := hopen
  cases hf.symm.trans hg
  rw [hc] at hgo
  cases hgo

theorem invalidateFlight (h : t.Sound) (key : K) :
    ∃ t', t.invalidateFlight key = .ok t' ∧ t'.Sound ∧ Later t t' ∧
      ∀ k, t'.flights.lookup k = if k = key then none else t.flights.lookup k := by
  unfold Table.invalidateFlight
  cases hl : t.flights.lookup key with
  | none =>
    refine ⟨t, rfl, h, .refl t, fun k => ?_⟩
    split
    next hk =>
      rw [hk]
      exact hl
    · rfl
  | some i =>
    obtain ⟨f, hf, rfl, ho⟩ := (h.lookup_iff key i).mp hl
    obtain ⟨hw, _, _⟩ := (h.flight i f hf).opened ho
    have hsound : Flight.Sound ({ f with
        result := some invalidatedResult, writes := f.writes + 1, closed := true } : Flight K V E) :=
      ⟨fun hc => (by cases hc), fun _ => ⟨by simp [hw], _, rfl, .inl rfl⟩⟩
    obtain ⟨hs, hlater⟩ := h.close hf ho hsound rfl rfl
    refine ⟨_, settle_eq { t with flights := t.flights.erase f.key } hf ho _, hs, hlater, fun k => ?_⟩
    split
    next hk =>
      rw [hk]
      exact lookup_erase ..
    next hk =>
      exact lookup_erase_ne hk

theorem invalidateFlights (h : t.Sound) (keys : List K) :
    ∃ t', t.invalidateFlights keys = .ok t' ∧ t'.Sound ∧ Later t t' ∧
      ∀ k, t'.flights.lookup k = if k ∈ keys then none else t.flights.lookup k := by
  induction keys generalizing t with
  | nil => exact ⟨t, rfl, h, .refl t, fun k => by simp⟩
  | cons key keys ih =>
    obtain ⟨t₁, h1, hs1, hl1, hk1⟩ := h.invalidateFlight key
    obtain ⟨t₂, h2, hs2, hl2, hk2⟩ := ih hs1
    refine ⟨t₂, by simp only [Table.invalidateFlights, h1, h2], hs2, hl1.trans hl2, fun k => ?_⟩
    rw [hk2, hk1]
    by_cases hm : k ∈ keys
    · simp [hm]
    · by_cases hk : k = key <;> simp [hm]

theorem start (h : t.Sound) {key : K} (hk : t.flights.lookup key = none) :
    (t.start key).Sound ∧ Later t (t.start key) := by
  have hget : ∀ i (f : Flight K V E), (t.start key).heap[i]? = some f ↔
      t.heap[i]? = some f ∨ i = t.heap.length ∧
        f = { key, result := none, writes := 0, closed := false, outcome := none } := by
    intro i f
    simp only [Table.start]
    rcases Nat.lt_trichotomy i t.heap.length with hi | hi | hi
    · simp [List.getElem?_append_left hi, Nat.ne_of_lt hi]
    · subst hi
      simp [eq_comm]
    · have h1 : t.heap.length ≤ i := by omega
      have h2 : i - t.heap.length ≠ 0 := by omega
      simp [List.getElem?_append_right h1, List.getElem?_eq_none h1, h2, Nat.ne_of_gt hi]
  refine ⟨⟨?_, ?_⟩, fun i f hf => ⟨f, (hget i f).mpr (.inl hf), rfl, fun hc => ⟨hc, rfl⟩⟩⟩
  · intro k i
    by_cases hkey : k = key
    · subst hkey
      have hl : (t.start k).flights.lookup k = some t.heap.length := lookup_insert _
      rw [hl, Option.some.injEq]
      constructor
      · rintro rfl
        exact ⟨_, (hget ..).mpr (.inr ⟨rfl, rfl⟩), rfl, rfl⟩
      · rintro ⟨f, hf, hfk, ho⟩
        rcases (hget i f).mp hf with hf | ⟨rfl, _⟩
        · rw [h.closed_of_lookup_none hk hf hfk] at ho
          cases ho
        · rfl
    · have hl : (t.start key).flights.lookup k = t.flights.lookup k := lookup_insert_ne hkey
      rw [hl, h.lookup_iff]
      constructor
      · rintro ⟨f, hf, hfk, ho⟩
        exact ⟨f, (hget i f).mpr (.inl hf), hfk, ho⟩
      · rintro ⟨f, hf, hfk, ho⟩
        rcases (hget i f).mp hf with hf | ⟨_, rfl⟩
        · exact ⟨f, hf, hfk, ho⟩
        · exact absurd hfk.symm hkey
  · intro i f hf
    rcases (hget i f).mp hf with hf | ⟨_, rfl⟩
    · exact h.flight i f hf
    · exact ⟨fun _ => ⟨rfl, rfl, rfl⟩, fun hc => by cases hc⟩

end Table.Sound

end Mihomo.DevCache
