import Mihomo.DevCache.Flights

/-!
# Runs of the refreshing cache

Every operation moves the flight table as one of its primitives does, whatever the backend stores; so
the table stays sound in every interleaving of callers and workers.
-/

namespace Mihomo.DevCache
open Lib

universe u
variable {K V E B : Type u} [DecidableEq K]

section Data
variable [Backend K V B] (c : Cache K V E B)

@[simp] theorem get_table (now : Int) (key : K) : (c.get now key).2.table = c.table := by
  unfold Cache.get
  split
  · split <;> rfl
  · rfl

theorem getWithExpireValidated_table (now : Int) (key : K) (accept : V → Bool) :
    (c.getWithExpireValidated now key accept).2.table = c.table := by
  have hg := get_table c now key
  unfold Cache.getWithExpireValidated
  split <;> rename_i heq <;> rw [heq] at hg
  · split <;> exact hg
  · exact hg

theorem restore_table (now now' : Int) (key : K) (value : V) (due updatedAt : Int) :
    (c.restore now now' key value due updatedAt).table = c.table := by
  have hg := get_table c now' key
  unfold Cache.restore
  split
  · split <;> rename_i heq <;> rw [heq] at hg <;> exact hg
  · rfl

theorem snapshot_table (now : Int) : (c.snapshot now).2.table = c.table := by
  have hfold : ∀ (items : List (K × Stored V × Int))
      (acc : List (K × Stored V × Int) × Cache K V E B),
      (items.foldl (Cache.addItem now) acc).2.table = acc.2.table := by
    intro items
    induction items with
    | nil => exact fun _ => rfl
    | cons item items ih =>
      intro acc
      rw [List.foldl_cons, ih]
      unfold Cache.addItem
      split <;> rfl
  exact hfold _ _

theorem markItems_table (items : List (K × Stored V × Int)) :
    (items.foldl Cache.markItem c).table = c.table := by
  induction items generalizing c with
  | nil => rfl
  | cons item items ih =>
    rw [List.foldl_cons, ih]
    rfl

theorem publish_table (now now' : Int) (key : K) (v : V) (due : Int) (err : Option (Err E)) :
    (c.publish now now' key v due err).table = c.table := by
  have hg := get_table c now key
  unfold Cache.publish
  split
  · rfl
  · split <;> rename_i heq <;> rw [heq] at hg <;> exact hg

end Data

variable [Inhabited V] [Backend K V B]

def Op.invalidates : Op K V E → K → Bool
  | .delete key => fun k => k = key
  | .deleteMatching _ matching | .markStale _ matching => matching
  | .clear => fun _ => true
  | _ => fun _ => false

structure Moves (t t' : Table K V E) : Prop where
  sound : t'.Sound
  later : Later t t'

theorem Moves.refl {t : Table K V E} (h : t.Sound) : Moves t t := ⟨h, .refl t⟩

theorem Moves.trans {t₁ t₂ t₃ : Table K V E} (h : Moves t₁ t₂) (h' : Moves t₂ t₃) : Moves t₁ t₃ :=
  ⟨h'.sound, h.later.trans h'.later⟩

variable {c : Cache K V E B}

theorem delete_moves (h : c.table.Sound) (key : K) :
    ∃ c', c.delete key = .ok c' ∧ Moves c.table c'.table ∧
      ∀ k, c'.table.flights.lookup k = if k = key then none else c.table.flights.lookup k := by
  obtain ⟨t', ht, hs, hl, hk⟩ := h.invalidateFlight key
  exact ⟨{ c.expire key with table := t' }, by simp only [Cache.delete, ht], ⟨hs, hl⟩, hk⟩

theorem deleteAll_moves (h : c.table.Sound) (keys : List K) :
    ∃ c', c.deleteAll keys = .ok c' ∧ Moves c.table c'.table := by
  induction keys generalizing c with
  | nil => exact ⟨c, rfl, .refl h⟩
  | cons key keys ih =>
    obtain ⟨c₁, h1, hm1, _⟩ := delete_moves h key
    obtain ⟨c₂, h2, hm2⟩ := ih hm1.sound
    exact ⟨c₂, by simp only [Cache.deleteAll, h1, h2], hm1.trans hm2⟩

omit [Backend K V B] in
theorem invalidateMatching_moves (h : c.table.Sound) (matching : K → Bool) :
    ∃ c', c.invalidateMatching matching = .ok c' ∧ Moves c.table c'.table ∧
      ∀ k, matching k = true → c'.table.flights.lookup k = none := by
  obtain ⟨t', ht, hs, hl, hk⟩ := h.invalidateFlights (c.table.flights.keys.filter matching)
  refine ⟨{ c with table := t' }, by simp only [Cache.invalidateMatching, ht], ⟨hs, hl⟩,
    fun k hm => ?_⟩
  rw [hk]
  split
  · rfl
  next hn =>
    -- a key outside the table has no entry to begin with
    rw [AList.lookup_eq_none]
    exact fun hmem => hn (List.mem_filter.mpr ⟨hmem, hm⟩)

theorem clear_moves (h : c.table.Sound) :
    ∃ c', c.clear = .ok c' ∧ Moves c.table c'.table ∧ ∀ k, c'.table.flights.lookup k = none := by
  obtain ⟨t', ht, hs, hl, hk⟩ := h.invalidateFlights c.table.flights.keys
  refine ⟨{ data := Backend.clear K V c.data, retry := ∅, table := t' },
    by simp only [Cache.clear, ht], ⟨hs, hl⟩, fun k => ?_⟩
  rw [hk]
  split
  · rfl
  next hn =>
    rw [AList.lookup_eq_none]
    exact hn

theorem deleteMatching_moves (h : c.table.Sound) (now : Int) (matching : K → Bool) :
    ∃ r, c.deleteMatching now matching = .ok r ∧ Moves c.table r.2.table ∧
      ∀ k, matching k = true → r.2.table.flights.lookup k = none := by
  have hsnap := snapshot_table c now
  rcases hs : c.snapshot now with ⟨items, c₀⟩
  rw [hs] at hsnap
  obtain ⟨c₁, h1, hm1⟩ := deleteAll_moves (hsnap ▸ h)
    ((Cache.matchingItems matching items).map (·.1))
  obtain ⟨c₂, h2, hm2, hk⟩ := invalidateMatching_moves hm1.sound matching
  refine ⟨((Cache.matchingItems matching items).length, c₂),
    by simp only [Cache.deleteMatching, hs, h1, h2], ?_, hk⟩
  rw [← hsnap]
  exact hm1.trans hm2

theorem markStale_moves (h : c.table.Sound) (now : Int) (matching : K → Bool) :
    ∃ c', c.markStale now matching = .ok c' ∧ Moves c.table c'.table ∧
      ∀ k, matching k = true → c'.table.flights.lookup k = none := by
  have hsnap := snapshot_table c now
  rcases hs : c.snapshot now with ⟨items, c₀⟩
  rw [hs] at hsnap
  have ht := markItems_table c₀ (Cache.matchingItems matching items)
  obtain ⟨c₁, h1, hm1, hk⟩ := invalidateMatching_moves
    (ht ▸ hsnap ▸ h) matching
  refine ⟨c₁, by simp only [Cache.markStale, hs]; exact h1, ?_, hk⟩
  rw [ht, hsnap] at hm1
  exact hm1

theorem computeWithExpire_moves (h : c.table.Sound) (now now' : Int) (key : K)
    (f : V → Int → Bool → V × Int × Bool) :
    ∃ c', c.computeWithExpire now now' key f = .ok c' ∧ Moves c.table c'.table := by
  have hg := get_table c now key
  rcases hs : c.get now key with ⟨stored, c₀⟩
  rw [hs] at hg
  have hboth : ∀ (remove : Bool) (data : B), ∃ c', (if remove then c₀.delete key
      else .ok { c₀ with data }) = .ok c' ∧ Moves c.table c'.table := by
    intro remove data
    cases remove with
    | true =>
      obtain ⟨c', h1, hm, _⟩ := delete_moves (hg ▸ h) key
      exact ⟨c', h1, hg ▸ hm⟩
    | false => exact ⟨{ c₀ with data }, rfl, hg ▸ .refl (hg ▸ h)⟩
  simp only [Cache.computeWithExpire, hs]
  split <;> exact hboth _ _

theorem refresh_moves (h : c.table.Sound) (now now' : Int) (key : K) :
    Moves c.table (c.refresh now now' key).2.table := by
  have hg := get_table c now' key
  unfold Cache.refresh
  cases hl : c.table.flights.lookup key with
  | some i => exact .refl h
  | none =>
    have hstart : ∀ c' : Cache K V E B, c'.table = c.table →
        Moves c.table (c'.startFlight key).2.table := by
      intro c' hc
      obtain ⟨hs, hlater⟩ := h.start hl
      simp only [Cache.startFlight, hc]
      exact ⟨hs, hlater⟩
    simp only
    split
    · split <;> rename_i heq <;> rw [heq] at hg
      · rw [hg]
        exact .refl h
      · exact hstart _ hg
    · exact hstart c rfl

variable {f : Flight K V E} {i : Nat} {c' : Cache K V E B}

omit [Inhabited V] in
theorem complete_stale (hf : c.table.heap[i]? = some f)
    (hout : f.outcome = none) (hl : c.table.flights.lookup f.key ≠ some i) (now now' : Int) (v : V)
    (due : Int) (err : Option (Err E)) :
    c.complete now now' i v due err = .ok { c with table :=
      { c.table with heap := c.table.heap.set i { f with outcome := some (v, err) } } } := by
  simp [Cache.complete, hf, hout, hl]

omit [Backend K V B] in
theorem complete_stale_moves (h : c.table.Sound)
    (hf : c.table.heap[i]? = some f) (hc : f.closed = true) (hout : f.outcome = none)
    (outcome : V × Option (Err E)) :
    Moves c.table { c.table with heap := c.table.heap.set i { f with outcome := some outcome } } := by
  obtain ⟨hw, r, hr, hcause⟩ := (h.flight i f hf).ended hc
  -- the worker had not returned, so the result is the invalidation
  have hinv : r = invalidatedResult := by
    rcases hcause with hinv | hworker
    · exact hinv
    · rw [hout] at hworker
      cases hworker
  have hsound : Flight.Sound ({ f with outcome := some outcome } : Flight K V E) :=
    ⟨fun ho => absurd (hc.symm.trans ho) (by decide), fun _ => ⟨hw, r, hr, .inl hinv⟩⟩
  obtain ⟨hs, hl⟩ := h.recordOutcome hf hc hsound rfl hc rfl
  exact ⟨hs, hl⟩

omit [Backend K V B] in
theorem lookup_ne_of_closed (h : c.table.Sound) (hf : c.table.heap[i]? = some f)
    (hc : f.closed = true) : c.table.flights.lookup f.key ≠ some i := by
  intro hl
  obtain ⟨g, hg, _, hgo⟩ := (h.lookup_iff ..).mp hl
  cases hf.symm.trans hg
  rw [hc] at hgo
  cases hgo

theorem complete_live (h : c.table.Sound)
    (hf : c.table.heap[i]? = some f) (ho : f.closed = false) (now now' : Int) (v : V) (due : Int)
    (err : Option (Err E)) :
    ∃ c', c.complete now now' i v due err = .ok c' ∧ Moves c.table c'.table := by
  have hl := (h.lookup_iff f.key i).mpr ⟨f, hf, rfl, ho⟩
  obtain ⟨hw, _, hout⟩ := (h.flight i f hf).opened ho
  obtain ⟨t, ht⟩ : ∃ t, { c.table with
      flights := c.table.flights.erase f.key
      heap := c.table.heap.set i { f with outcome := some (v, err) } } = t := ⟨_, rfl⟩
  have hheap : t.heap[i]? = some { f with outcome := some (v, err) } := by
    rw [← ht]
    exact (getElem?_set_of_some hf _ i).trans (if_pos rfl)
  have hsettle := settle_eq t hheap ho { value := v, err }
  have hcomplete : ∀ table, t.settle i { value := v, err } = .ok table →
      c.complete now now' i v due err =
        .ok { ({ c with table := t } : Cache K V E B).publish now now' f.key v due err with table } := by
    intro table htable
    simp only [Cache.complete, hf, hout, hl, publish_table, ht, htable]
    rfl
  refine ⟨_, hcomplete _ hsettle, ?_⟩
  have hsound : Flight.Sound ({ f with
      outcome := some (v, err)
      result := some { value := v, err }
      writes := f.writes + 1
      closed := true } : Flight K V E) :=
    ⟨fun hc => (by cases hc), fun _ => ⟨by simp [hw], _, rfl, .inr rfl⟩⟩
  obtain ⟨hs, hlater⟩ := h.close hf ho hsound rfl rfl
  subst ht
  simp only [List.set_set]
  exact ⟨hs, hlater⟩

theorem complete_moves (h : c.table.Sound) (now now' : Int) (i : Nat) (v : V) (due : Int)
    (err : Option (Err E)) : c.complete now now' i v due err = .error .blocked ∨
      ∃ c', c.complete now now' i v due err = .ok c' ∧ Moves c.table c'.table := by
  cases hf : c.table.heap[i]? with
  | none => exact .inl (by simp only [Cache.complete, hf])
  | some f =>
    cases hout : f.outcome with
    | some o => exact .inl (by simp [Cache.complete, hf, hout])
    | none =>
      right
      by_cases hc : f.closed = true
      · have hl := lookup_ne_of_closed h hf hc
        exact ⟨_, complete_stale hf hout hl now now' v due err, complete_stale_moves h hf hc hout _⟩
      · exact complete_live h hf (Bool.eq_false_iff.mpr hc) now now' v due err

/-- Every operation either waits or moves the table soundly; afterwards no flight is
left for a key it invalidates. -/
theorem step_moves (h : c.table.Sound) (op : Op K V E) : c.step op = .error .blocked ∨
    ∃ c', c.step op = .ok c' ∧ Moves c.table c'.table ∧
      ∀ k, op.invalidates k = true → c'.table.flights.lookup k = none := by
  have hkeep : ∀ c' : Cache K V E B, c'.table = c.table → Moves c.table c'.table := by
    intro c' hc
    rw [hc]
    exact .refl h
  have hno : ∀ {P : K → Prop} (k : K), false = true → P k := fun _ hf => by cases hf
  cases op with
  | refresh now now' key => exact .inr ⟨_, rfl, refresh_moves h now now' key, hno⟩
  | complete now now' i v due err =>
    rcases complete_moves h now now' i v due err with hb | ⟨c', hc, hm⟩
    · exact .inl hb
    · exact .inr ⟨c', hc, hm, hno⟩
  | delete key =>
    obtain ⟨c', hc, hm, hk⟩ := delete_moves h key
    refine .inr ⟨c', hc, hm, fun k hkey => ?_⟩
    rw [hk, if_pos (by simpa [Op.invalidates] using hkey)]
  | deleteMatching now matching =>
    obtain ⟨r, hr, hm, hk⟩ := deleteMatching_moves h now matching
    exact .inr ⟨r.2, by simp only [Cache.step, hr]; rfl, hm, hk⟩
  | markStale now matching =>
    obtain ⟨c', hc, hm, hk⟩ := markStale_moves h now matching
    exact .inr ⟨c', hc, hm, hk⟩
  | clear =>
    obtain ⟨c', hc, hm, hk⟩ := clear_moves h
    exact .inr ⟨c', hc, hm, fun k _ => hk k⟩
  | setWithExpire now key value due => exact .inr ⟨_, rfl, hkeep _ rfl, hno⟩
  | get now key => exact .inr ⟨_, rfl, hkeep _ (get_table c now key), hno⟩
  | getWithExpireValidated now key accept =>
    exact .inr ⟨_, rfl, hkeep _ (getWithExpireValidated_table c now key accept), hno⟩
  | computeWithExpire now now' key f =>
    obtain ⟨c', hc, hm⟩ := computeWithExpire_moves h now now' key f
    exact .inr ⟨c', hc, hm, hno⟩
  | restore now now' key value due updatedAt =>
    exact .inr ⟨_, rfl, hkeep _ (restore_table c now now' key value due updatedAt), hno⟩
  | snapshot now => exact .inr ⟨_, rfl, hkeep _ (snapshot_table c now), hno⟩

theorem step_sound {op : Op K V E} (h : c.table.Sound)
    (hs : c.step op = .ok c') : Moves c.table c'.table ∧
      ∀ k, op.invalidates k = true → c'.table.flights.lookup k = none := by
  rcases step_moves h op with hb | ⟨c₁, hc, hm⟩
  · rw [hb] at hs
    cases hs
  · cases hc.symm.trans hs
    exact hm

theorem exec_moves (h : c.table.Sound) {ops : List (Op K V E)}
    (hrun : exec Cache.step c ops = .ok c') : Moves c.table c'.table :=
  (always_of_invariant (fun d => Moves c.table d.table)
    (fun hm hs => hm.trans (step_sound hm.sound hs).1) (fun hm => hm) (.refl h) ops).last hrun

structure Coalesced (c : Cache K V E B) : Prop where
  one_open : ∀ (i j : Nat) (f g : Flight K V E), c.table.heap[i]? = some f →
    c.table.heap[j]? = some g → f.closed = false → g.closed = false → f.key = g.key → i = j
  /-- A result is written once, when the flight is closed, and the flight is closed
  when its worker has returned. -/
  written_once : ∀ (i : Nat) (f : Flight K V E), c.table.heap[i]? = some f →
    (f.closed = false ∧ f.writes = 0 ∧ f.outcome = none) ∨ (f.closed = true ∧ f.writes = 1)
  /-- A waiter reads the invalidation or what the worker returned. -/
  observed : ∀ (i : Nat) (r : Result V E), c.table.observe i = some r → r = invalidatedResult ∨
    ∃ f : Flight K V E, c.table.heap[i]? = some f ∧ f.outcome = some (r.value, r.err)
  /-- An operation that invalidates a key closes its flights. -/
  invalidated : ∀ (op : Op K V E) (c' : Cache K V E B), c.step op = .ok c' →
    ∀ (i : Nat) (f : Flight K V E), c.table.heap[i]? = some f → op.invalidates f.key = true →
      ∃ f' : Flight K V E, c'.table.heap[i]? = some f' ∧ f'.closed = true
  /-- Closed flights keep their results, whatever happens later. -/
  lasting : ∀ (ops : List (Op K V E)) (c' : Cache K V E B), exec Cache.step c ops = .ok c' →
    Later c.table c'.table
  /-- The worker of a closed flight changes neither data, retry times nor the table. -/
  inert : ∀ (i : Nat) (f : Flight K V E), c.table.heap[i]? = some f → f.closed = true →
    ∀ (now now' : Int) (v : V) (due : Int) (err : Option (Err E)) (c' : Cache K V E B),
      c.complete now now' i v due err = .ok c' →
        c'.data = c.data ∧ c'.retry = c.retry ∧ c'.table.flights = c.table.flights

theorem Table.Sound.coalesced (h : c.table.Sound) : Coalesced c where
  one_open _ _ _ _ hf hg hfo hgo hk := h.index_unique hf hg hfo hgo hk
  written_once i f hf := by
    cases hc : f.closed with
    | false =>
      obtain ⟨hw, _, hout⟩ := (h.flight i f hf).opened hc
      exact .inl ⟨rfl, hw, hout⟩
    | true => exact .inr ⟨rfl, ((h.flight i f hf).ended hc).1⟩
  observed i r hr := by
    unfold Table.observe at hr
    split at hr
    · rename_i f hf
      split at hr
      · rename_i hc
        obtain ⟨_, r', hr', hcause⟩ := (h.flight i f hf).ended hc
        cases hr.symm.trans hr'
        exact hcause.imp_right fun hout => ⟨f, hf, hout⟩
      · cases hr
    · cases hr
  invalidated op c' hs i f hf hinv := by
    obtain ⟨hm, hnone⟩ := step_sound h hs
    obtain ⟨f', hf', hk, _⟩ := hm.later i f hf
    exact ⟨f', hf', hm.sound.closed_of_lookup_none (hnone f.key hinv) hf' hk⟩
  lasting _ _ hrun := (exec_moves h hrun).later
  inert i f hf hc now now' v due err c' hs := by
    have hl := lookup_ne_of_closed h hf hc
    cases hout : f.outcome with
    | some o => simp [Cache.complete, hf, hout] at hs
    | none =>
      rw [complete_stale hf hout hl now now' v due err] at hs
      cases hs
      exact ⟨rfl, rfl, rfl⟩

/-- In every interleaving of callers and workers no channel is closed twice, and at
every moment flights are coalesced, end once and are inert once they have ended. -/
theorem flights_coalesced (data : B) (ops : List (Op K V E)) :
    exec Cache.step (Cache.new data : Cache K V E B) ops ≠ .error .closeOfClosedChannel ∧
    exec Cache.step (Cache.new data : Cache K V E B) ops ≠ .error .nilDereference ∧
    Always Cache.step Coalesced (Cache.new data : Cache K V E B) ops := by
  have hinit : (Cache.new data : Cache K V E B).table.Sound := .empty
  have hkeep : ∀ {c : Cache K V E B} {op : Op K V E} {c' : Cache K V E B}, c.table.Sound →
      c.step op = .ok c' → c'.table.Sound := fun h hs => (step_sound h hs).1.sound
  have hnever : ∀ {stop : Stop}, stop ≠ .blocked → ∀ {c : Cache K V E B} {op : Op K V E},
      c.table.Sound → c.step op ≠ .error stop := by
    intro stop hne c op h hs
    rcases step_moves h op with hb | ⟨c', hc, _⟩
    · exact hne (Except.error.inj (hs.symm.trans hb))
    · cases hc.symm.trans hs
  refine ⟨?_, ?_, ?_⟩
  · exact exec_ne_error (fun c : Cache K V E B => c.table.Sound) hkeep
      (hnever (by decide)) hinit ops
  · exact exec_ne_error (fun c : Cache K V E B => c.table.Sound) hkeep
      (hnever (by decide)) hinit ops
  · exact always_of_invariant (fun c : Cache K V E B => c.table.Sound) hkeep
      (fun h => h.coalesced) hinit ops

end Mihomo.DevCache
