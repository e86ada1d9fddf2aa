import Mihomo.Arc.Cache
import Mihomo.Lib.Run

/-!
# The list invariant of the adaptive replacement cache

`Shape` ties the map to the four lists: every list is duplicate free and holds exactly the keys whose
entry points back to it. `Bounds` is the size invariant of the replacement policy. Both survive every
operation; what `Delete` breaks is that evictions only happen when the resident lists are full.
-/

namespace Mihomo.Arc
open List

universe u v
variable {K : Type u} {V : Type v}

structure Shape [DecidableEq K] (a : ARC K V) : Prop where
  nodup : ∀ l, (a.lists l).Nodup
  mem_iff : ∀ k l, k ∈ a.lists l ↔ ∃ e, a.cache.lookup k = some e ∧ e.ll = some l
  key_eq : ∀ {k e}, a.cache.lookup k = some e → e.key = k
  placed : ∀ {k e}, a.cache.lookup k = some e → e.ll ≠ none

structure Bounds (a : ARC K V) : Prop where
  one_le : 1 ≤ a.c
  p_nonneg : 0 ≤ a.p
  p_le : a.p ≤ a.c
  t1_b1 : a.size .t1 + a.size .b1 ≤ a.c
  t1_t2 : a.size .t1 + a.size .t2 ≤ a.c
  total : a.size .t1 + a.size .t2 + a.size .b1 + a.size .b2 ≤ 2 * a.c

theorem Loc.all {P : Loc → Prop} (h : ∀ l, P l) : P .t1 ∧ P .t2 ∧ P .b1 ∧ P .b2 :=
  ⟨h .t1, h .t2, h .b1, h .b2⟩

theorem size_nonneg (a : ARC K V) (l : Loc) : 0 ≤ a.size l := Int.natCast_nonneg _

theorem size_pos_iff (a : ARC K V) (l : Loc) : 0 < a.size l ↔ a.lists l ≠ [] := by
  simp [ARC.size, length_pos_iff]

variable [DecidableEq K]

def Agrees (a : ARC K V) (e : Entry K V) : Prop := ∀ l, e.key ∈ a.lists l ↔ e.ll = some l

variable {e ent : Entry K V} {k : K} {a b : ARC K V} {l : Loc}

theorem Shape.agrees (hs : Shape a) (h : a.cache.lookup k = some e) : Agrees a e := by
  intro l
  rw [hs.key_eq h, hs.mem_iff]
  simp [h]

omit [DecidableEq K] in
theorem Agrees.congr {e' : Entry K V} (he : Agrees a e) (hk : e'.key = e.key)
    (hl : e'.ll = e.ll) : Agrees a e' := by
  intro l
  rw [hk, hl]
  exact he l

theorem Shape.not_mem (hs : Shape a) (h : a.cache.lookup k = none) (l : Loc) : k ∉ a.lists l := by
  rw [hs.mem_iff]
  simp [h]

theorem Shape.agrees_new (hs : Shape a)
    (h : a.cache.lookup e.key = none) (hl : e.ll = none) : Agrees a e := by
  intro l
  simp [hs.not_mem h l, hl]

/-- `setMRU` followed by the write of the moved entry to the map. -/
def ARC.place (a : ARC K V) (e : Entry K V) (l : Loc) : ARC K V :=
  { (a.setMRU e l).1 with cache := a.cache.insert e.key (a.setMRU e l).2 }

def ARC.drop (a : ARC K V) (e : Entry K V) : ARC K V :=
  { a.detach e with cache := a.cache.erase e.key }

theorem detach_lists (he : Agrees a e) (x : Loc) :
    (a.detach e).lists x = (a.lists x).erase e.key := by
  unfold ARC.detach
  cases hl : e.ll with
  | none => exact (erase_of_not_mem fun hm => by simpa [hl] using (he x).mp hm).symm
  | some l =>
    by_cases hx : x = l
    · subst x
      simp
    · have hne : e.key ∉ a.lists x := by
        rw [he x, hl, Option.some.injEq]
        exact Ne.symm hx
      simp [hx, erase_of_not_mem hne]

@[simp] theorem detach_cache (a : ARC K V) (e : Entry K V) : (a.detach e).cache = a.cache := by
  unfold ARC.detach
  split <;> rfl

@[simp] theorem detach_c (a : ARC K V) (e : Entry K V) : (a.detach e).c = a.c := by
  unfold ARC.detach
  split <;> rfl

@[simp] theorem detach_p (a : ARC K V) (e : Entry K V) : (a.detach e).p = a.p := by
  unfold ARC.detach
  split <;> rfl

@[simp] theorem detach_len (a : ARC K V) (e : Entry K V) : (a.detach e).len = a.len := by
  unfold ARC.detach
  split <;> rfl

theorem place_lists (he : Agrees a e) (l x : Loc) :
    (a.place e l).lists x =
      if x = l then e.key :: (a.lists x).erase e.key else (a.lists x).erase e.key := by
  by_cases hx : x = l
  · subst x
    simp [ARC.place, ARC.setMRU, detach_lists he]
  · simp [ARC.place, ARC.setMRU, detach_lists he, hx]

theorem detach_size (he : Agrees a e) (x : Loc) :
    (a.detach e).size x = a.size x - if e.ll = some x then 1 else 0 := by
  unfold ARC.size
  rw [detach_lists he]
  by_cases hx : e.ll = some x
  · have hm := (he x).mpr hx
    have := length_pos_of_mem hm
    rw [length_erase_of_mem hm, if_pos hx]
    omega
  · rw [erase_of_not_mem fun hm => hx ((he x).mp hm), if_neg hx]
    omega

theorem place_size (he : Agrees a e) (l x : Loc) :
    (a.place e l).size x =
      a.size x - (if e.ll = some x then 1 else 0) + if x = l then 1 else 0 := by
  rw [← detach_size he, ARC.size, place_lists he, ARC.size, detach_lists he]
  split <;> simp

theorem place_frame (a : ARC K V) (e : Entry K V) (l : Loc) :
    (a.place e l).c = a.c ∧ (a.place e l).p = a.p ∧ (a.place e l).len = a.len := by
  simp [ARC.place, ARC.setMRU]

theorem place_lookup (a : ARC K V) (e : Entry K V) (l : Loc) (k : K) :
    (a.place e l).cache.lookup k =
      if k = e.key then some { e with ll := some l } else a.cache.lookup k := by
  by_cases hk : k = e.key
  · subst k
    simp [ARC.place, ARC.setMRU]
  · simp [ARC.place, hk]

theorem drop_lookup (a : ARC K V) (e : Entry K V) (k : K) :
    (a.drop e).cache.lookup k = if k = e.key then none else a.cache.lookup k := by
  by_cases hk : k = e.key
  · subst k
    simp [ARC.drop]
  · simp [ARC.drop, hk]

theorem Shape.place (hs : Shape a) (he : Agrees a e) (l : Loc) : Shape (a.place e l) := by
  refine ⟨?_, ?_, ?_, ?_⟩
  · intro x
    rw [place_lists he]
    have hn := (hs.nodup x).erase e.key
    split
    · exact nodup_cons.mpr ⟨(hs.nodup x).not_mem_erase, hn⟩
    · exact hn
  · intro k x
    rw [place_lists he, place_lookup]
    by_cases hk : k = e.key
    · subst k
      by_cases hx : x = l
      · subst x
        simp
      · simp [hx, (hs.nodup x).not_mem_erase, Ne.symm hx]
    · have hm : k ∈ (a.lists x).erase e.key ↔ k ∈ a.lists x := mem_erase_of_ne hk
      rw [if_neg hk, ← hs.mem_iff, ← hm]
      split
      · exact mem_cons.trans (or_iff_right hk)
      · rfl
  · intro k e' h
    rw [place_lookup] at h
    split at h
    · cases h
      rename_i hk
      exact hk.symm
    · exact hs.key_eq h
  · intro k e' h
    rw [place_lookup] at h
    split at h
    · cases h
      simp
    · exact hs.placed h

theorem Shape.drop (hs : Shape a) (he : Agrees a e) : Shape (a.drop e) := by
  refine ⟨?_, ?_, ?_, ?_⟩
  · intro x
    change ((a.detach e).lists x).Nodup
    rw [detach_lists he]
    exact (hs.nodup x).erase e.key
  · intro k x
    change k ∈ (a.detach e).lists x ↔ _
    rw [detach_lists he, drop_lookup]
    by_cases hk : k = e.key
    · subst k
      simp [(hs.nodup x).not_mem_erase]
    · simp [hk, hs.mem_iff]
  · intro k e' h
    rw [drop_lookup] at h
    split at h
    · cases h
    · exact hs.key_eq h
  · intro k e' h
    rw [drop_lookup] at h
    split at h
    · cases h
    · exact hs.placed h

theorem Agrees.place_other (hent : Agrees a ent)
    (he : Agrees a e) (hne : ent.key ≠ e.key) (l : Loc) : Agrees (a.place e l) ent := by
  intro x
  have hm := mem_erase_of_ne (l := a.lists x) hne
  rw [place_lists he, ← hent x]
  split
  · exact (mem_cons.trans (or_iff_right hne)).trans hm
  · exact hm

theorem Agrees.drop_other (hent : Agrees a ent)
    (he : Agrees a e) (hne : ent.key ≠ e.key) : Agrees (a.drop e) ent := by
  intro x
  change ent.key ∈ (a.detach e).lists x ↔ _
  rw [detach_lists he, ← hent x]
  exact mem_erase_of_ne hne

omit [DecidableEq K] in
theorem Agrees.key_ne (hent : Agrees a ent) (he : Agrees a e)
    (hl : e.ll = some l) (hne : ent.ll ≠ some l) : ent.key ≠ e.key := by
  intro heq
  apply hne
  rw [← hent l, heq, he l, hl]

def Dropped (a : ARC K V) (l : Loc) (b : ARC K V) : Prop :=
  ∃ e, a.cache.lookup e.key = some e ∧ e.ll = some l ∧ b = { a.drop e with len := a.len - 1 }

theorem Shape.last_entry (hs : Shape a) (hk : (a.lists l).getLast? = some k) :
    ∃ e, a.cache.lookup k = some e ∧ e.ll = some l ∧ e.key = k := by
  obtain ⟨e, he, hl⟩ := (hs.mem_iff k l).mp (mem_of_getLast? hk)
  exact ⟨e, he, hl, hs.key_eq he⟩

theorem delLRU_cases (hs : Shape a) (l : Loc) :
    (a.lists l = [] ∧ a.delLRU l = .error .nilDereference) ∨
      ∃ b, a.delLRU l = .ok b ∧ Dropped a l b := by
  cases hk : (a.lists l).getLast? with
  | none => exact .inl ⟨getLast?_eq_none_iff.mp hk, by simp [ARC.delLRU, hk]⟩
  | some k =>
    obtain ⟨e, he, hl, rfl⟩ := hs.last_entry hk
    refine .inr ⟨_, ?_, e, he, hl, rfl⟩
    simp [ARC.delLRU, hk, ARC.drop, ARC.detach, hl]

theorem Dropped.shape (hs : Shape a) (h : Dropped a l b) : Shape b := by
  obtain ⟨e, he, _, rfl⟩ := h
  have hd := hs.drop (hs.agrees he)
  exact { hd with }

theorem Dropped.agrees (hs : Shape a)
    (h : Dropped a l b) (hent : Agrees a ent) (hl : ent.ll ≠ some l) : Agrees b ent := by
  obtain ⟨e, he, hel, rfl⟩ := h
  exact hent.drop_other (hs.agrees he) (hent.key_ne (hs.agrees he) hel hl)

theorem Dropped.size (hs : Shape a) (h : Dropped a l b) (x : Loc) :
    b.size x = a.size x - if x = l then 1 else 0 := by
  obtain ⟨e, he, hl, rfl⟩ := h
  have hd := detach_size (hs.agrees he) x
  simp only [hl, Option.some.injEq, eq_comm (a := l)] at hd
  exact hd

theorem Dropped.frame (h : Dropped a l b) : b.c = a.c ∧ b.p = a.p ∧ b.len = a.len - 1 := by
  obtain ⟨e, _, _, rfl⟩ := h
  simp [ARC.drop]

variable [Inhabited V]

def Demoted (a : ARC K V) (src dst : Loc) (b : ARC K V) : Prop :=
  ∃ e, a.cache.lookup e.key = some e ∧ e.ll = some src ∧
    b = { a.place { e with value := default, ghost := true } dst with len := a.len - 1 }

theorem demote_cases (hs : Shape a) (src dst : Loc) :
    (a.lists src = [] ∧ a.demote src dst = .error .nilDereference) ∨
      ∃ b, a.demote src dst = .ok b ∧ Demoted a src dst b := by
  cases hk : (a.lists src).getLast? with
  | none => exact .inl ⟨getLast?_eq_none_iff.mp hk, by simp [ARC.demote, hk]⟩
  | some k =>
    obtain ⟨e, he, hl, rfl⟩ := hs.last_entry hk
    refine .inr ⟨_, ?_, e, he, hl, rfl⟩
    simp [ARC.demote, hk, he, ARC.place, ARC.setMRU]

section Demoted
variable {a b : ARC K V} {src dst : Loc}

theorem Demoted.shape (hs : Shape a) (h : Demoted a src dst b) : Shape b := by
  obtain ⟨e, he, _, rfl⟩ := h
  have ha : Agrees a { e with value := default, ghost := true } := (hs.agrees he).congr rfl rfl
  have hd := hs.place ha dst
  exact { hd with }

theorem Demoted.agrees {ent : Entry K V} (hs : Shape a) (h : Demoted a src dst b)
    (hent : Agrees a ent) (hl : ent.ll ≠ some src) : Agrees b ent := by
  obtain ⟨e, he, hel, rfl⟩ := h
  have ha : Agrees a { e with value := default, ghost := true } := (hs.agrees he).congr rfl rfl
  have hne : ent.key ≠ e.key := hent.key_ne (hs.agrees he) hel hl
  exact hent.place_other ha hne dst

theorem Demoted.size (hs : Shape a) (h : Demoted a src dst b) (x : Loc) :
    b.size x = a.size x - (if x = src then 1 else 0) + if x = dst then 1 else 0 := by
  obtain ⟨e, he, hl, rfl⟩ := h
  have ha : Agrees a { e with value := default, ghost := true } := (hs.agrees he).congr rfl rfl
  refine (place_size ha dst x).trans ?_
  simp [hl, eq_comm]

theorem Demoted.frame (h : Demoted a src dst b) : b.c = a.c ∧ b.p = a.p ∧ b.len = a.len - 1 := by
  obtain ⟨e, _, _, rfl⟩ := h
  simp [ARC.place, ARC.setMRU]

end Demoted

/-- `replace` finds an entry to evict: `t1` exceeds the target `p` (or just reaches
it while a `b2` ghost is requested), or else `t2` is not empty. -/
def Victim (a : ARC K V) (p : Int) (ll : Option Loc) : Prop :=
  (0 < a.size .t1 ∧ (p < a.size .t1 ∨ (ll = some .b2 ∧ a.size .t1 = p))) ∨ 0 < a.size .t2

def Replaced (a b : ARC K V) : Prop := Demoted a .t1 .b1 b ∨ Demoted a .t2 .b2 b

theorem replace_cases (hs : Shape a) (ent : Entry K V) :
    (¬ Victim a a.p ent.ll ∧ a.replace ent = .error .nilDereference) ∨
      (Victim a a.p ent.ll ∧ ∃ b, a.replace ent = .ok b ∧ Replaced a b) := by
  unfold ARC.replace
  split
  next h =>
    rcases demote_cases hs .t1 .b1 with ⟨he, _⟩ | ⟨b, hb, hd⟩
    · exact absurd he ((size_pos_iff a .t1).mp h.1)
    · exact .inr ⟨.inl h, b, hb, .inl hd⟩
  next h =>
    rcases demote_cases hs .t2 .b2 with ⟨he, hb⟩ | ⟨b, hb, hd⟩
    · refine .inl ⟨?_, hb⟩
      rintro (hv | hv)
      · exact h hv
      · exact (size_pos_iff a .t2).mp hv he
    · have hne : 0 < a.size .t2 := by
        obtain ⟨e, he, hl, _⟩ := hd
        have hm := (hs.mem_iff e.key .t2).mpr ⟨e, he, hl⟩
        exact (size_pos_iff a .t2).mpr (ne_nil_of_mem hm)
      exact .inr ⟨.inr hne, b, hb, .inr hd⟩

section Replaced
variable {a b : ARC K V}

theorem Replaced.shape (hs : Shape a) (h : Replaced a b) : Shape b := by
  rcases h with h | h <;> exact h.shape hs

theorem Replaced.agrees {ent : Entry K V} (hs : Shape a) (h : Replaced a b) (hent : Agrees a ent)
    (h1 : ent.ll ≠ some .t1) (h2 : ent.ll ≠ some .t2) : Agrees b ent := by
  rcases h with h | h
  · exact h.agrees hs hent h1
  · exact h.agrees hs hent h2

theorem Replaced.frame (h : Replaced a b) : b.c = a.c ∧ b.p = a.p ∧ b.len = a.len - 1 := by
  rcases h with h | h <;> exact h.frame

theorem Replaced.sizes (hs : Shape a) (h : Replaced a b) :
    b.size .t1 + b.size .t2 = a.size .t1 + a.size .t2 - 1 ∧
    b.size .b1 + b.size .b2 = a.size .b1 + a.size .b2 + 1 ∧
    b.size .t1 + b.size .b1 = a.size .t1 + a.size .b1 := by
  rcases h with h | h
  all_goals
    obtain ⟨h1, h2, h3, h4⟩ := Loc.all (h.size hs)
    simp at h1 h2 h3 h4
    omega

end Replaced

end Mihomo.Arc
