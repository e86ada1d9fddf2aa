import Mihomo.Arc.Runs

/-!
# The entry counter of the cache

`Len` is meant to count the live entries. The counter is right as long as `delLRU` is applied to
resident entries only and no ghost is made resident without being revived. `excess` measures the error,
`Tagged` says that ghosts are where ghosts belong.
-/

namespace Mihomo.Arc
open Lib List

universe u v
variable {K : Type u} {V : Type v} [DecidableEq K]

/-- The counter is the number of live entries in the map, live entries are
resident, ghosts are on the ghost lists, and `Snapshot` can allocate its result. -/
structure Accounted (a : ARC K V) : Prop where
  len_eq : a.len = a.live.length
  live_resident : ∀ k e, a.cache.lookup k = some e → e.ghost = false →
    k ∈ a.lists .t1 ∨ k ∈ a.lists .t2
  ghost_listed : ∀ k e, a.cache.lookup k = some e → e.ghost = true →
    k ∈ a.lists .b1 ∨ k ∈ a.lists .b2
  len_nonneg : 0 ≤ a.len
  len_le : a.len ≤ a.c
  snapshot_ok : a.snapshot ≠ .error .makeSlice

def Accounts (a : ARC K V) : Op K V → Prop
  | .set key _ | .setWithExpire key _ _ =>
    a.cache.lookup key = none → ¬ Trims a .b1 ∧ ¬ Trims a .b2
  | .get key | .getWithExpire key => ∀ e, a.cache.lookup key = some e → e.ghost = false
  | .delete _ | .clear | .snapshot => True

def Tagged (a : ARC K V) : Prop :=
  ∀ k e, a.cache.lookup k = some e → (e.ghost = true ↔ e.ll = some .b1 ∨ e.ll = some .b2)

omit [DecidableEq K] in
def ARC.excess (a : ARC K V) : Int := a.len - (a.size .t1 + a.size .t2)

theorem mem_live_iff (a : ARC K V) (e : Entry K V) :
    e ∈ a.live ↔ ∃ k, a.cache.lookup k = some e ∧ e.ghost = false := by
  simp [ARC.live, ← AList.mem_lookup_iff]

variable {a : ARC K V}

theorem Shape.live_keys_nodup (hs : Shape a) : (a.live.map (·.key)).Nodup := by
  have hkeys : a.cache.entries.map (fun s => s.2.key) = a.cache.keys := by
    apply map_congr_left
    intro s hm
    exact hs.key_eq (AList.mem_lookup_iff.mpr hm)
  have hsub : (a.live.map (·.key)).Sublist (a.cache.entries.map fun s => s.2.key) := by
    have hf : a.live.Sublist (a.cache.entries.map Sigma.snd) := filter_sublist
    have hm := hf.map (·.key)
    rwa [map_map] at hm
  rw [hkeys] at hsub
  exact a.cache.keys_nodup.sublist hsub

theorem Shape.live_length (hs : Shape a) (ht : Tagged a) :
    (a.live.length : Int) = a.size .t1 + a.size .t2 := by
  have hdisj : (a.lists .t1).Disjoint (a.lists .t2) := by
    intro k h1 h2
    obtain ⟨e, he, hl⟩ := (hs.mem_iff k .t1).mp h1
    obtain ⟨e', he', hl'⟩ := (hs.mem_iff k .t2).mp h2
    rw [he] at he'
    cases he'
    simp [hl] at hl'
  have hperm : (a.live.map (·.key)).Perm (a.lists .t1 ++ a.lists .t2) := by
    apply (perm_ext_iff_of_nodup hs.live_keys_nodup
      (.append (hs.nodup .t1) (hs.nodup .t2) hdisj)).mpr
    intro k
    rw [mem_append, hs.mem_iff, hs.mem_iff, mem_map]
    constructor
    · rintro ⟨e, he, rfl⟩
      obtain ⟨k, hk, hg⟩ := (mem_live_iff a e).mp he
      obtain rfl := hs.key_eq hk
      have hll := (ht _ e hk).not.mp (by simp [hg])
      have hpl := hs.placed hk
      rcases h : e.ll with _ | _ | _ | _ | _ <;> simp_all
    · rintro (⟨e, he, hl⟩ | ⟨e, he, hl⟩) <;>
        exact ⟨e, (mem_live_iff a e).mpr ⟨k, he, by
          have := (ht k e he).not
          simpa [hl] using this⟩, hs.key_eq he⟩
  have := hperm.length_eq
  simp only [length_map, length_append] at this
  simp only [ARC.size]
  omega

variable {e : Entry K V} {k : K} {b : ARC K V}

theorem Shape.mem_pair_iff (hs : Shape a) (he : a.cache.lookup k = some e)
    (l l' : Loc) : k ∈ a.lists l ∨ k ∈ a.lists l' ↔ e.ll = some l ∨ e.ll = some l' := by
  simp [hs.mem_iff, he]

theorem Shape.ghost_or_resident (hs : Shape a)
    (he : a.cache.lookup k = some e) :
    ¬ (e.ll = some .b1 ∨ e.ll = some .b2) ↔ e.ll = some .t1 ∨ e.ll = some .t2 := by
  have hp := hs.placed he
  rcases h : e.ll with _ | _ | _ | _ | _ <;> simp_all

theorem accounted_iff (hw : WF a) : Accounted a ↔ Tagged a ∧ a.excess = 0 := by
  have hs := hw.shape
  constructor
  · intro h
    have ht : Tagged a := by
      intro k e he
      constructor
      · exact fun hg => (hs.mem_pair_iff he ..).mp (h.ghost_listed k e he hg)
      · intro hl
        by_contra hg
        have hr := (hs.mem_pair_iff he ..).mp (h.live_resident k e he (by simpa using hg))
        exact (hs.ghost_or_resident he).mpr hr hl
    have hlen := hs.live_length ht
    have := h.len_eq
    exact ⟨ht, by unfold ARC.excess; omega⟩
  · rintro ⟨ht, hx⟩
    have hlen := hs.live_length ht
    have hb := hw.bounds.t1_t2
    have hn : 0 ≤ a.len := by unfold ARC.excess at hx; omega
    unfold ARC.excess at hx
    refine ⟨by omega, ?_, ?_, hn, by omega, ?_⟩
    · intro k e he hg
      refine (hs.mem_pair_iff he ..).mpr ((hs.ghost_or_resident he).mp ?_)
      rw [← ht k e he, hg]
      simp
    · intro k e he hg
      exact (hs.mem_pair_iff he ..).mpr ((ht k e he).mp hg)
    · simp [ARC.snapshot, Int.not_lt.mpr hn]

theorem Tagged.drop (ht : Tagged a) (e : Entry K V) : Tagged (a.drop e) := by
  intro k e' h
  rw [drop_lookup] at h
  split at h
  · cases h
  · exact ht k e' h

theorem Dropped.tagged {l : Loc} (ht : Tagged a) (h : Dropped a l b) : Tagged b := by
  obtain ⟨e, _, _, rfl⟩ := h
  exact ht.drop e

theorem tagged_place_iff (ht : Tagged a) (e : Entry K V) (l : Loc) :
    Tagged (a.place e l) ↔ (e.ghost = true ↔ l = .b1 ∨ l = .b2) := by
  constructor
  · intro h
    have := h e.key { e with ll := some l } (by simp [place_lookup])
    simpa using this
  · intro hg k e' h
    rw [place_lookup] at h
    split at h
    · cases h
      simpa using hg
    · exact ht k e' h

theorem Replaced.tagged [Inhabited V] (ht : Tagged a) (h : Replaced a b) : Tagged b := by
  rcases h with ⟨e, _, _, rfl⟩ | ⟨e, _, _, rfl⟩
  · exact (tagged_place_iff ht _ .b1).mpr (by simp)
  · exact (tagged_place_iff ht _ .b2).mpr (by simp)

section Path
variable [Inhabited V] {a b : ARC K V} {ent : Entry K V} {dst : Loc}

theorem Path.tagged (ht : Tagged a) (h : Path a ent b dst) : Tagged b := by
  cases h with
  | hit | room => exact ht
  | ghost _ hr => exact hr.tagged (a := { a with p := a.adapted ent.ll }) ht
  | trim _ _ hd hr => exact hr.tagged (hd.tagged ht)
  | full _ _ hd => exact hd.tagged ht
  | evict _ _ _ _ hr => exact hr.tagged ht

theorem Path.tagged_place_iff (ht : Tagged a) (h : Path a ent b dst) :
    Tagged (b.place ent dst) ↔ ent.ghost = false := by
  rw [Arc.tagged_place_iff (h.tagged ht)]
  cases h <;> simp

theorem Replaced.excess (hs : Shape a) (h : Replaced a b) : b.excess = a.excess := by
  obtain ⟨hsz, _, _⟩ := h.sizes hs
  obtain ⟨_, _, hlen⟩ := h.frame
  unfold ARC.excess
  omega

omit [Inhabited V] in
theorem Dropped.excess {l : Loc} (hs : Shape a) (h : Dropped a l b) :
    b.excess = a.excess - if l = .b1 ∨ l = .b2 then 1 else 0 := by
  have h1 := h.size hs .t1
  have h2 := h.size hs .t2
  obtain ⟨_, _, hlen⟩ := h.frame
  unfold ARC.excess
  cases l with
  | t1 | t2 | b1 | b2 =>
    simp at h1 h2 ⊢
    omega

omit [Inhabited V] in
theorem place_excess (he : Agrees b ent) (hdst : dst = .t1 ∨ dst = .t2) :
    (b.place ent dst).excess = b.excess - if ent.ll = some .t1 ∨ ent.ll = some .t2 then 0 else 1 := by
  have h1 := place_size he dst .t1
  have h2 := place_size he dst .t2
  obtain ⟨_, _, hlen⟩ := place_frame b ent dst
  have hplaced : (b.place ent dst).size .t1 + (b.place ent dst).size .t2 =
      b.size .t1 + b.size .t2 + if ent.ll = some .t1 ∨ ent.ll = some .t2 then 0 else 1 := by
    rcases hdst with rfl | rfl
    all_goals
      rcases hll : ent.ll with _ | _ | _ | _ | _
      all_goals
        simp [hll] at h1 h2 ⊢
        omega
  unfold ARC.excess
  omega

omit [DecidableEq K] [Inhabited V] in
theorem not_trims_of_full (hfull : a.size .t1 = a.c) : ¬ (Trims a .b1 ∨ Trims a .b2) := by
  have hb1 := size_nonneg a .b1
  rintro (⟨_, ht⟩ | ⟨ht, _⟩) <;> omega

omit [DecidableEq K] [Inhabited V] in
theorem not_trims_of_room (hroom : a.total < a.c) : ¬ (Trims a .b1 ∨ Trims a .b2) := by
  obtain ⟨ht1, ht2, hb1, hb2⟩ := Loc.all (size_nonneg a)
  unfold ARC.total at hroom
  rintro (⟨ht, _⟩ | ⟨_, ht⟩)
  · omega
  · unfold ARC.total at ht
    omega

theorem Path.excess_before (hs : Shape a) (h : Path a ent b dst) :
    b.excess = a.excess - if ent.ll = none ∧ (Trims a .b1 ∨ Trims a .b2) then 1 else 0 := by
  cases h with
  | hit hl =>
    rw [if_neg (by rcases hl with hl | hl <;> simp [hl])]
    omega
  | ghost hl hr =>
    have hadapted := hr.excess (hs.retarget _)
    rw [if_neg (by rcases hl with hl | hl <;> simp [hl]), hadapted]
    exact (Int.sub_zero _).symm
  | @trim l b₀ b hl ht hd hr =>
    rw [hr.excess (hd.shape hs), hd.excess hs]
    cases l with
    | t1 | t2 => exact ht.elim
    | b1 => rw [if_pos (.inl rfl), if_pos ⟨hl, .inl ht⟩]
    | b2 => rw [if_pos (.inr rfl), if_pos ⟨hl, .inr ht⟩]
  | full hl hf hd =>
    rw [hd.excess hs, if_neg (by simp), if_neg fun htrim => not_trims_of_full hf htrim.2]
  | evict hl hB htot h2c hr =>
    have hn : ¬ (Trims a .b1 ∨ Trims a .b2) := by
      rintro (⟨ht, _⟩ | ⟨_, ht⟩) <;> omega
    rw [hr.excess hs, if_neg fun htrim => hn htrim.2]
    omega
  | room hl hroom =>
    rw [if_neg fun htrim => not_trims_of_room hroom htrim.2]
    omega

/-- The counter error after a request: a resident entry is not counted again, a new
one is not yet counted, and trimming a ghost list uncounts an entry once more. -/
theorem Path.excess (hs : Shape a) (he : Agrees a ent) (h : Path a ent b dst) :
    (b.place ent dst).excess = a.excess -
      (if ent.ll = some .t1 ∨ ent.ll = some .t2 then 0 else 1) -
      if ent.ll = none ∧ (Trims a .b1 ∨ Trims a .b2) then 1 else 0 := by
  have hdst : dst = .t1 ∨ dst = .t2 := by cases h <;> simp
  have hbefore := h.excess_before hs
  rw [place_excess (h.agrees hs he) hdst]
  omega

end Path

section Steps
variable [Inhabited V] {a t : ARC K V} {ent : Entry K V}

theorem accounted_serve_iff (hw : WF a) (ht : Tagged a) (he : Agrees a ent)
    (h : a.serve ent = .ok t) :
    Accounted t ↔ ent.ghost = false ∧ a.excess =
      (if ent.ll = some .t1 ∨ ent.ll = some .t2 then 0 else 1) +
      if ent.ll = none ∧ (Trims a .b1 ∨ Trims a .b2) then 1 else 0 := by
  rcases serve_cases hw ent with ⟨_, _, hr⟩ | ⟨_, b, dst, hr, hp⟩
  · rw [hr] at h
    cases h
  · rw [hr] at h
    cases h
    have hwt : WF (b.place ent dst) := ⟨(hp.shape hw.shape).place (hp.agrees hw.shape he) dst,
      hp.bounds hw.shape hw.bounds he⟩
    rw [accounted_iff hwt, hp.tagged_place_iff ht, hp.excess hw.shape he]
    exact and_congr_right fun _ => ⟨fun h => by omega, fun h => by omega⟩

variable {key : K}

theorem accounted_set_iff (hw : WF a) (ha : Accounted a) {value : V} {expires : Int}
    (h : a.setWithExpire key value expires = .ok t) :
    Accounted t ↔ (a.cache.lookup key = none → ¬ Trims a .b1 ∧ ¬ Trims a .b2) := by
  obtain ⟨ht, hx⟩ := (accounted_iff hw).mp ha
  rw [setWithExpire_eq hw.shape] at h
  have hwc : WF (a.counted key) := hw.setLen _
  have hag : Agrees (a.counted key) (a.entryFor key value expires) :=
    agrees_entryFor hw.shape key value expires
  rw [accounted_serve_iff hwc ht hag h]
  have hxc : (a.counted key).excess =
      if (a.cache.lookup key).any (!·.ghost) then 0 else 1 := by
    unfold ARC.excess at hx
    simp only [ARC.excess, ARC.counted]
    change (_ : Int) - (a.size .t1 + a.size .t2) = _
    split <;> omega
  have htr : ∀ l, Trims (a.counted key) l ↔ Trims a l := fun l => by cases l <;> rfl
  rw [hxc]
  simp only [htr]
  cases hk : a.cache.lookup key with
  | none =>
    rw [← not_or]
    by_cases htrim : Trims a .b1 ∨ Trims a .b2 <;> simp [ARC.entryFor, hk, htrim]
  | some ent =>
    have hg := ht key ent hk
    have hr := hw.shape.ghost_or_resident hk
    have hp := hw.shape.placed hk
    cases hgh : ent.ghost <;> simp_all [ARC.entryFor]

theorem accounted_get_iff (hw : WF a) (ha : Accounted a)
    (hk : a.cache.lookup key = some ent) (h : a.serve ent = .ok t) :
    Accounted t ↔ ent.ghost = false := by
  obtain ⟨ht, hx⟩ := (accounted_iff hw).mp ha
  rw [accounted_serve_iff hw ht (hw.shape.agrees hk) h]
  have hg := ht key ent hk
  have hr := hw.shape.ghost_or_resident hk
  have hp := hw.shape.placed hk
  cases hgh : ent.ghost <;> simp_all

theorem accounted_lookup_iff (hw : WF a) (ha : Accounted a) (h : Prod.fst <$> a.get key = .ok t) :
    Accounted t ↔ ∀ e, a.cache.lookup key = some e → e.ghost = false := by
  cases hk : a.cache.lookup key with
  | none =>
    simp only [ARC.get, hk] at h
    cases h
    exact iff_of_true ha (by simp)
  | some ent =>
    rw [get_eq hw.shape hk] at h
    simpa using accounted_get_iff hw ha hk h

omit [Inhabited V] in
theorem accounted_clear (hc : 1 ≤ a.c) : Accounted a.clear := by
  rw [accounted_iff (.clear hc)]
  exact ⟨by simp [Tagged, ARC.clear], by simp [ARC.excess, ARC.clear, ARC.size]⟩

omit [Inhabited V] in
theorem accounted_delete (hw : WF a) (ha : Accounted a) (key : K) : Accounted (a.delete key) := by
  obtain ⟨ht, hx⟩ := (accounted_iff hw).mp ha
  cases hk : a.cache.lookup key with
  | none => simpa [ARC.delete, hk] using ha
  | some ent =>
    obtain rfl := hw.shape.key_eq hk
    have hag := hw.shape.agrees hk
    have hdel : a.delete ent.key =
        { a.drop ent with len := if ent.ghost then a.len else a.len - 1 } := by
      simp [ARC.delete, hk, ARC.drop, detach_len]
    rw [hdel, accounted_iff ((hw.drop hk).setLen _)]
    refine ⟨ht.drop ent, ?_⟩
    have h1 := detach_size hag .t1
    have h2 := detach_size hag .t2
    have hg := ht _ ent hk
    have hr := hw.shape.ghost_or_resident hk
    unfold ARC.excess at hx ⊢
    change (if ent.ghost then a.len else a.len - 1) -
      ((a.detach ent).size .t1 + (a.detach ent).size .t2) = 0
    rw [h1, h2]
    rcases hl : ent.ll with _ | _ | _ | _ | _ <;> simp [hl] at hg hr ⊢ <;> simp [hg] <;> omega

theorem accounted_step_iff {op : Op K V} (hw : WF a) (ha : Accounted a) (h : step a op = .ok t) :
    Accounted t ↔ Accounts a op := by
  cases op with
  | set | setWithExpire => exact accounted_set_iff hw ha h
  | get | getWithExpire => exact accounted_lookup_iff hw ha h
  | delete key =>
    cases h
    exact iff_of_true (accounted_delete hw ha key) trivial
  | clear =>
    cases h
    exact iff_of_true (accounted_clear hw.bounds.one_le) trivial
  | snapshot =>
    have hn : ¬ a.len < 0 := Int.not_lt.mpr ha.len_nonneg
    simp only [step, ARC.snapshot, hn] at h
    cases h
    exact iff_of_true ha trivial

end Steps

/-- In a run that completes, the counter and the tags are right in every state
exactly when no lookup hits a ghost and no new key trims a ghost list. -/
theorem always_accounted_iff [Inhabited V] {c : Int} (hc : 1 ≤ c) (ops : List (Op K V))
    {t : ARC K V} (hrun : exec step (ARC.new c) ops = .ok t) :
    Always step Accounted (ARC.new c) ops ↔ Along step Accounts (ARC.new c) ops := by
  have ha : Accounted (ARC.new c : ARC K V) := accounted_clear (a := ARC.new c) hc
  exact always_iff_along wf_step accounted_step_iff (WF.new hc) ha ops hrun

/-- On a cache of capacity two the fourth new key finds `b1` full and drops a ghost
that is no longer counted: two live entries remain and `Len` is one. -/
theorem not_always_accounted : ¬ ∀ c : Int, 1 ≤ c → ∀ (ops : List (Op ℕ ℕ)) (t : ARC ℕ ℕ),
    exec step (ARC.new c) ops = .ok t → Always step Accounted (ARC.new c) ops := by
  intro h
  have hruns := h 2 (by decide) [.set 0 0, .get 0, .set 1 0, .set 2 0, .set 3 0] _ rfl
  have hlast := ((((hruns.2 _ rfl).2 _ rfl).2 _ rfl).2 _ rfl).2 _ rfl
  exact absurd hlast.len_eq (by decide)

theorem always_accounted_example : Always step Accounted (ARC.new 2 : ARC ℕ ℕ)
    [.set 0 0, .get 0, .set 1 0, .set 2 0, .set 1 0, .delete 0] := by
  refine (always_accounted_iff (by decide) _ rfl).mpr ?_
  refine ⟨fun _ => by decide, fun _ h => ?_⟩
  cases h
  refine ⟨fun e he => ?_, fun _ h => ?_⟩
  · cases he
    rfl
  cases h
  refine ⟨fun _ => by decide, fun _ h => ?_⟩
  cases h
  refine ⟨fun _ => by decide, fun _ h => ?_⟩
  cases h
  refine ⟨fun hn => absurd hn (by decide), fun _ h => ?_⟩
  cases h
  exact ⟨trivial, fun _ _ => trivial⟩

end Mihomo.Arc
