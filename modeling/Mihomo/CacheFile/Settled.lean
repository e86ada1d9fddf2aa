import Mihomo.CacheFile.Runs

/-!
# Stores whose commits do not fail

Between mutations such a store remembers nothing, and a mutation either has its
effect on the contents or is refused and changes nothing.
-/

namespace Mihomo.CacheFile
open Go Net Lib AList

structure Settled (s : FakeIpStore) : Prop where
  before_eq : s.before = ∅
  flight_eq : s.flight = none

theorem repair_noop {es : List (Sigma fun _ : Str => Option Str)} {b : Bucket}
    (h : ∀ k v, ⟨k, v⟩ ∈ es → contents (some b) k = bytes v) : repair es b = .ok b := by
  induction es with
  | nil => rfl
  | cons e es ih =>
    obtain ⟨key, value⟩ := e
    have hkey : bytesEqual (b.lookup key) value = true :=
      bytesEqual_iff.mpr (h key value List.mem_cons_self)
    simp only [repair, hkey]
    exact ih fun k v hm => h k v (List.mem_cons_of_mem _ hm)

theorem eq_empty_of_lookup {o : Overlay} (h : ∀ k, o.lookup k = none) : o = ∅ := by
  apply ext
  cases he : o.entries with
  | nil => rfl
  | cons e es =>
    have hmem : e.2 ∈ o.lookup e.1 := mem_lookup_iff.mpr (by simp [he])
    rw [h e.1] at hmem
    cases hmem

namespace Settled
variable {s : FakeIpStore} {m : Mutation}

section
variable (h : Settled s)
include h

theorem getByHost_eq (host : Str) : s.getByHost host = Addr.fromSlice (contents s.db host) := by
  simp only [FakeIpStore.getByHost, h.before_eq, contents]
  cases get s.db host <;> rfl

theorem getByIP_eq {ip : Addr} {host : Str} (hne : host ≠ [])
    (hc : contents s.db ip.asSlice = host) : s.getByIP ip = some host := by
  simp only [FakeIpStore.getByIP, h.before_eq]
  unfold contents at hc
  cases hg : get s.db ip.asSlice with
  | none => exact absurd (by rw [← hc, hg]; rfl) hne
  | some v =>
    rw [hg] at hc
    exact congrArg some hc

theorem lookup_prepare {k : Str} {v : Option Str}
    (hv : (m.prepare s.db s.before).lookup k = some v) : contents s.db k = bytes v := by
  rcases extends_prepare m s.db s.before k with heq | ⟨_, hs⟩
  · rw [heq, h.before_eq] at hv
    cases hv
  · cases hs.symm.trans hv
    rfl

theorem transaction_eq : (s.begin m).transaction m = m.change (s.db.getD ∅) := by
  have hrep : repair (s.begin m).before.entries ((s.begin m).db.getD ∅) = .ok (s.db.getD ∅) := by
    refine repair_noop fun k v hm => ?_
    rw [contents_getD]
    exact h.lookup_prepare (mem_lookup_iff.mpr hm)
  simp [FakeIpStore.transaction, hrep]

theorem mutate_accepted (hm : m.Accepted) :
    (s.mutate m).1 = none ∧ Settled (s.mutate m).2 ∧
      contents (s.mutate m).2.db = m.effect (contents s.db) := by
  obtain ⟨b, hb⟩ := Mutation.change_ok hm
  have heff := (Mutation.change_spec hb).2
  rw [show contents (some (s.db.getD ∅)) = contents s.db from funext (contents_getD s.db)] at heff
  simp only [FakeIpStore.mutate, h.transaction_eq, hb]
  exact ⟨trivial, ⟨rfl, rfl⟩, heff⟩

theorem mutate_refused (hm : ¬ m.Accepted) : ∃ err, s.mutate m = (some err, s) := by
  cases hb : m.change (s.db.getD ∅) with
  | ok b => exact absurd (Mutation.change_spec hb).1 hm
  | error err =>
    refine ⟨err, ?_⟩
    have hpend : pending s.db (m.prepare s.db s.before) = ∅ := by
      refine eq_empty_of_lookup fun k => ?_
      rcases lookup_pending s.db (m.prepare s.db s.before) k with heq | ⟨hn, _⟩
      · cases hk : (pending s.db (m.prepare s.db s.before)).lookup k with
        | none => rfl
        | some v =>
          -- a pending value differs from the database, a remembered one does not
          have hmem := mem_lookup_iff.mp hk
          have hdiff := (List.mem_filter.mp hmem).2
          have hsame := h.lookup_prepare (heq.symm.trans hk)
          simp only [Bool.not_eq_true', Bool.eq_false_iff] at hdiff
          exact absurd (bytesEqual_iff.mpr hsame) hdiff
      · exact hn
    have hmut : s.mutate m = (some err, (s.begin m).abandon) := by
      simp [FakeIpStore.mutate, h.transaction_eq, hb]
    rw [hmut]
    obtain ⟨db, before, flight⟩ := s
    obtain ⟨rfl, rfl⟩ := h
    simp [FakeIpStore.abandon, FakeIpStore.begin, hpend]

end

end Settled

end Mihomo.CacheFile
