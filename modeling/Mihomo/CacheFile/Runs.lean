import Mihomo.CacheFile.Confirmed

/-!
# Runs of the fake-IP store

Mutations and their commits, interleaved with reads, beside the confirmed content they are to show.
-/

namespace Mihomo.CacheFile
open Go Net Lib List AList

structure Ledger where
  store : FakeIpStore
  confirmed : Option Bucket

def applied (m : Mutation) (confirmed : Option Bucket) : Option Bucket :=
  match m.change (confirmed.getD ∅) with
  | .ok b => b
  | .error _ => confirmed

def Ledger.step (l : Ledger) (e : Event) : Except Blocked Ledger :=
  match l.store.step e with
  | .error b => .error b
  | .ok store =>
    match e, l.store.flight with
    | .finish true, some ⟨m, _⟩ => .ok { store, confirmed := applied m l.confirmed }
    | _, _ => .ok { l with store }

def Ledger.opened (db : Option Bucket) : Ledger :=
  { store := { db, before := ∅, flight := none }, confirmed := db }

def Ledger.Faithful (l : Ledger) : Prop :=
  (∀ host, l.store.getByHost host = (get l.confirmed host).bind Addr.fromSlice) ∧
    ∀ ip : Addr, l.store.getByIP ip = get l.confirmed ip.asSlice

def Event.Storable : Event → Prop
  | .begin m => m.Storable
  | .publish | .finish _ => True

theorem bytesEqual_iff {a b : Option Str} : bytesEqual a b = true ↔ bytes a = bytes b := by
  simp [bytesEqual]

variable {b r : Bucket} {es : List (Sigma fun _ : Str => Option Str)}

theorem repair_spec (hn : es.NodupKeys)
    (h : repair es b = .ok r) :
    (∀ k v, ⟨k, v⟩ ∈ es → contents (some r) k = bytes v) ∧
      ∀ k, k ∉ es.keys → r.lookup k = b.lookup k := by
  induction es generalizing b with
  | nil =>
    cases h
    exact ⟨fun _ _ hm => (not_mem_nil hm).elim, fun _ _ => rfl⟩
  | cons e es ih =>
    obtain ⟨key, value⟩ := e
    rw [nodupKeys_cons] at hn
    -- after the step for `key` its value is in place, and no later step touches it
    have hstep : ∀ b', repair es b' = .ok r → contents (some b') key = bytes value →
        (∀ k, k ≠ key → b'.lookup k = b.lookup k) →
        (∀ k v, ⟨k, v⟩ ∈ ⟨key, value⟩ :: es → contents (some r) k = bytes v) ∧
          ∀ k, k ∉ keys (⟨key, value⟩ :: es) → r.lookup k = b.lookup k := by
      intro b' hb' hkey hother
      obtain ⟨hin, hout⟩ := ih hn.2 hb'
      constructor
      · intro k v hm
        rcases mem_cons.mp hm with heq | hm
        · cases heq
          rw [← hkey]
          simp [contents, get, hout key hn.1]
        · exact hin k v hm
      · intro k hk
        rw [keys_cons, mem_cons, not_or] at hk
        rw [hout k hk.2, hother k hk.1]
    simp only [repair] at h
    split at h
    next heq =>
      exact hstep b h (bytesEqual_iff.mp heq) fun _ _ => rfl
    · cases value with
      | none =>
        refine hstep _ h ?_ fun k hk => lookup_erase_ne hk
        rw [contents_delete, if_pos rfl]
        rfl
      | some v =>
        simp only at h
        split at h
        next b1 h1 =>
          obtain ⟨_, rfl⟩ := put_ok_iff.mp h1
          refine hstep _ h ?_ fun k hk => lookup_insert_ne hk
          rw [contents_insert, if_pos rfl]
          rfl
        · cases h

theorem solid_repair
    (hes : ∀ k v, ⟨k, v⟩ ∈ es → IsAddrKey k → v ≠ some [])
    (hb : Solid (get (some b))) (h : repair es b = .ok r) : Solid (get (some r)) := by
  induction es generalizing b with
  | nil =>
    cases h
    exact hb
  | cons e es ih =>
    obtain ⟨key, value⟩ := e
    have hrest : ∀ k v, ⟨k, v⟩ ∈ es → IsAddrKey k → v ≠ some [] :=
      fun k v hm => hes k v (mem_cons_of_mem _ hm)
    simp only [repair] at h
    split at h
    · exact ih hrest hb h
    · cases value with
      | none => exact ih hrest (solid_delete hb key) h
      | some v =>
        simp only at h
        split at h
        next b1 h1 =>
          obtain ⟨_, rfl⟩ := put_ok_iff.mp h1
          refine ih hrest (solid_insert hb fun hk hv => ?_) h
          exact hes key (some v) mem_cons_self hk (congrArg some hv)
        · cases h

theorem lookup_pending (db : Option Bucket) (before : Overlay) (k : Str) :
    (pending db before).lookup k = before.lookup k ∨
      (pending db before).lookup k = none ∧
        ∃ v, before.lookup k = some v ∧ contents db k = bytes v := by
  have hmem : ∀ v, (pending db before).lookup k = some v ↔
      before.lookup k = some v ∧ ¬ contents db k = bytes v := by
    intro v
    rw [← Option.mem_def, mem_lookup_iff, ← Option.mem_def, mem_lookup_iff]
    simp [pending, contents, bytesEqual]
  cases hb : before.lookup k with
  | none =>
    left
    cases hp : (pending db before).lookup k with
    | none => rfl
    | some v => exact absurd ((hmem v).mp hp).1 (by simp [hb])
  | some v =>
    by_cases hv : contents db k = bytes v
    · right
      refine ⟨?_, v, rfl, hv⟩
      cases hp : (pending db before).lookup k with
      | none => rfl
      | some w =>
        obtain ⟨hw, hne⟩ := (hmem w).mp hp
        rw [hb] at hw
        cases hw
        exact absurd hv hne
    · exact .inl ((hmem v).mpr ⟨hb, hv⟩)

/-- Up to absent and empty, readers see the confirmed content; the content that a
published mutation is about to confirm is already in the database. -/
structure Consistent (l : Ledger) : Prop where
  seen_eq : ∀ k, bytes (seen l.store k) = contents l.confirmed k
  solid_db : Solid (get l.store.db)
  solid_confirmed : Solid (get l.confirmed)
  solid_before : ∀ k v, l.store.before.lookup k = some v → IsAddrKey k → v ≠ some []
  started : ∀ m, l.store.flight = some ⟨m, false⟩ → m.Storable ∧
    ∀ k, l.store.before.lookup k = none →
      m.effect (contents l.confirmed) k = contents l.confirmed k
  published : ∀ m, l.store.flight = some ⟨m, true⟩ → m.Storable ∧ m.Accepted ∧
    contents l.store.db = m.effect (contents l.confirmed)

theorem applied_spec {m : Mutation} (hm : m.Accepted) (confirmed : Option Bucket) :
    contents (applied m confirmed) = m.effect (contents confirmed) ∧
      (m.Storable → Solid (get confirmed) → Solid (get (applied m confirmed))) := by
  obtain ⟨b, hb⟩ := Mutation.change_ok (b := confirmed.getD ∅) hm
  have hcontents : contents (some (confirmed.getD ∅)) = contents confirmed :=
    funext (contents_getD confirmed)
  have happ : applied m confirmed = b := by simp only [applied, hb]
  rw [happ]
  refine ⟨?_, fun hst hs => Mutation.solid_change hst ?_ hb⟩
  · rw [(Mutation.change_spec hb).2, hcontents]
  · cases confirmed with
    | none => exact fun _ _ => by simp [get]
    | some c => exact hs

namespace Consistent
variable {l : Ledger}

theorem seen_addr (h : Consistent l) {k : Str} (hk : IsAddrKey k) :
    seen l.store k = get l.confirmed k := by
  have hseen : seen l.store k ≠ some [] := by
    cases hb : l.store.before.lookup k with
    | none => rw [seen_of_none hb]; exact h.solid_db k hk
    | some v => rw [seen_of_some hb]; exact h.solid_before k v hb hk
  have heq := h.seen_eq k
  have hconf := h.solid_confirmed k hk
  unfold contents at heq
  cases hs : seen l.store k <;> cases hc : get l.confirmed k <;> simp_all [bytes]

theorem faithful (h : Consistent l) : l.Faithful := by
  constructor
  · -- an address cannot be parsed from an empty value, so the two kinds agree
    intro host
    have hparse : ∀ v, v.bind Addr.fromSlice = Addr.fromSlice (bytes v) := by
      intro v
      cases v <;> rfl
    have hread : l.store.getByHost host = Addr.fromSlice (bytes (seen l.store host)) := by
      unfold FakeIpStore.getByHost
      cases hb : l.store.before.lookup host with
      | none => rw [seen_of_none hb, ← hparse]
      | some v => rw [seen_of_some hb]
    rw [hread, hparse, h.seen_eq]
    rfl
  · intro ip
    have hk := isAddrKey_asSlice ip
    rw [← h.seen_addr hk]
    unfold FakeIpStore.getByIP
    cases hb : l.store.before.lookup ip.asSlice with
    | none => exact (seen_of_none hb).symm
    | some v =>
      rw [seen_of_some hb]
      have hv := h.solid_before _ v hb hk
      cases v with
      | none => simp [bytes]
      | some v =>
        have hne : v ≠ [] := fun hv' => hv (congrArg some hv')
        simp [bytes, length_pos_iff.mpr hne]

variable {db : Option Bucket} {m : Mutation}

theorem opened (h : Solid (get db)) : Consistent (.opened db) where
  seen_eq k := by simp [Ledger.opened, seen, through, contents]
  solid_db := h
  solid_confirmed := h
  solid_before k v hv := by simp [Ledger.opened] at hv
  started m hm := by simp [Ledger.opened] at hm
  published m hm := by simp [Ledger.opened] at hm

section
variable (h : Consistent l)
include h

theorem begin_step (hm : m.Storable) : Consistent { l with store := l.store.begin m } := by
  have hext := extends_prepare m l.store.db l.store.before
  refine ⟨fun k => ?_, h.solid_db, h.solid_confirmed, ?_, ?_, ?_⟩
  · rw [← h.seen_eq k]
    exact congrArg bytes (through_extend hext k)
  · intro k v hv hk
    rcases hext k with heq | ⟨_, hs⟩
    · exact h.solid_before k v (heq ▸ hv) hk
    · cases hs.symm.trans hv
      exact h.solid_db k hk
  · intro m' hf
    cases hf
    refine ⟨hm, fun k hk => ?_⟩
    have heff := effect_of_not_prepared m l.store.db l.store.before hk
    have hseen : (fun k => bytes (through l.store.before.lookup (get l.store.db) k)) =
        contents l.confirmed := funext h.seen_eq
    simp only [hseen] at heff
    rw [heff]
    exact h.seen_eq k
  · intro m' hf
    cases hf

theorem transaction_spec (hm : m.Storable)
    (ht : l.store.transaction m = .ok db) :
    m.Accepted ∧ contents db = m.effect (contents l.confirmed) ∧ Solid (get db) := by
  unfold FakeIpStore.transaction at ht
  split at ht
  next r hr =>
    obtain ⟨hin, hout⟩ := repair_spec l.store.before.nodupKeys hr
    have hrep : contents (some r) = contents l.confirmed := by
      funext k
      rw [← h.seen_eq k]
      refine repaired_eq_through bytes (fun k v hv => hin k v ?_) (fun k hk => ?_) k
      · exact mem_lookup_iff.mp hv
      · have hk' : k ∉ l.store.before.entries.keys := by
          intro hmem
          exact absurd hk (by rw [lookup_eq_none]; exact not_not.mpr hmem)
        have := hout k hk'
        cases hdb : l.store.db <;> simpa [get, hdb] using this
    have hsolid : Solid (get (some r)) := by
      refine solid_repair (fun k v hv => h.solid_before k v (mem_lookup_iff.mpr hv)) ?_ hr
      have := h.solid_db
      cases hdb : l.store.db with
      | none => exact fun _ _ => by simp [get]
      | some b => rwa [hdb] at this
    obtain ⟨hacc, heff⟩ := Mutation.change_spec ht
    rw [hrep] at heff
    exact ⟨hacc, heff, Mutation.solid_change hm hsolid ht⟩
  · cases ht

theorem publish_step (hf : l.store.flight = some ⟨m, false⟩)
    (ht : l.store.transaction m = .ok db) :
    Consistent { l with store := l.store.publish m db } := by
  obtain ⟨hm, hcov⟩ := h.started m hf
  obtain ⟨hacc, heff, hsolid⟩ := h.transaction_spec hm ht
  refine ⟨fun k => ?_, hsolid, h.solid_confirmed, h.solid_before, ?_, ?_⟩
  · rw [← h.seen_eq k]
    -- a key outside the overlay is not touched by the mutation
    refine through_covered bytes (fun k hk => ?_) k
    have hdb : bytes (get l.store.db k) = contents l.confirmed k := by
      rw [← h.seen_eq k, seen_of_none (s := l.store) hk]
    rw [hdb, ← hcov k hk, ← heff]
    rfl
  · intro m' hf'
    cases hf'
  · intro m' hf'
    cases hf'
    exact ⟨hm, hacc, heff⟩

theorem success_step (hf : l.store.flight = some ⟨m, true⟩) :
    Consistent { store := l.store.confirm, confirmed := applied m l.confirmed } := by
  obtain ⟨hm, hacc, heff⟩ := h.published m hf
  obtain ⟨happ, hsolid⟩ := applied_spec hacc l.confirmed
  refine ⟨fun k => ?_, h.solid_db, hsolid hm h.solid_confirmed, ?_, ?_, ?_⟩
  · rw [happ, ← heff]
    simp [seen, through, contents, FakeIpStore.confirm]
  · intro k v hv
    simp [FakeIpStore.confirm] at hv
  · intro m' hf'
    cases hf'
  · intro m' hf'
    cases hf'

theorem failure_step : Consistent { l with store := l.store.abandon } := by
  have hthin := lookup_pending l.store.db l.store.before
  refine ⟨fun k => ?_, h.solid_db, h.solid_confirmed, ?_, ?_, ?_⟩
  · rw [← h.seen_eq k]
    exact through_thinned bytes hthin k
  · intro k v hv
    rcases hthin k with heq | ⟨hn, _⟩
    · exact h.solid_before k v (heq ▸ hv)
    · cases hn.symm.trans hv
  all_goals
    intro m' hf'
    cases hf'

theorem step {e : Event} (he : e.Storable) {l' : Ledger}
    (hs : l.step e = .ok l') : Consistent l' := by
  unfold Ledger.step at hs
  cases e with
  | begin m =>
    cases hf : l.store.flight with
    | none =>
      simp only [FakeIpStore.step, hf] at hs
      cases hs
      exact h.begin_step he
    | some f => simp [FakeIpStore.step, hf] at hs
  | publish =>
    rcases hf : l.store.flight with _ | ⟨m, _ | _⟩
    · simp [FakeIpStore.step, hf] at hs
    · cases ht : l.store.transaction m with
      | ok db =>
        simp only [FakeIpStore.step, hf, ht] at hs
        cases hs
        exact h.publish_step hf ht
      | error err => simp [FakeIpStore.step, hf, ht] at hs
    · simp [FakeIpStore.step, hf] at hs
  | finish success =>
    rcases hf : l.store.flight with _ | ⟨m, published⟩
    · cases success <;> simp [FakeIpStore.step, hf] at hs
    · cases success with
      | false =>
        simp only [FakeIpStore.step, hf] at hs
        cases hs
        exact h.failure_step
      | true =>
        cases published with
        | false => simp [FakeIpStore.step, hf] at hs
        | true =>
          simp only [FakeIpStore.step, hf] at hs
          cases hs
          exact h.success_step hf

end

end Consistent

/-- In every interleaving of mutations, commits of any outcome and reads, every read
returns what the successful mutations produced, as long as no mutation stores an
empty value under the bytes of an address. -/
theorem reads_confirmed {db : Option Bucket} (hdb : Solid (get db)) (events : List Event)
    (hok : Along Ledger.step (fun _ e => e.Storable) (.opened db) events) :
    Always Ledger.step Ledger.Faithful (.opened db) events := by
  have hinit : Consistent (.opened db) := .opened hdb
  exact always_of_along (P := Ledger.Faithful) (fun h he hs => Consistent.step h he hs)
    (fun h => Consistent.faithful h) hinit events hok

def addr1234 : Addr := .at .v4 0x01020304

theorem reads_confirmed_example :
    Always Ledger.step Ledger.Faithful (.opened none)
      [.begin (.putMapping [0x61] addr1234), .publish, .finish false,
       .begin (.putByHost [0x62] addr1234), .publish, .finish true] :=
  reads_confirmed (fun _ _ => by simp [get]) _
    (by simp [Along, Event.Storable, Mutation.Storable])

/-- `PutByIP(1.2.3.4, "")` whose commit fails after it became visible: nothing was
confirmed, and yet `GetByIP(1.2.3.4)` finds a mapping. -/
theorem failed_putByIP_read : ∃ l, exec Ledger.step (.opened none)
      [.begin (.putByIP addr1234 []), .publish, .finish false] = .ok l ∧
    l.store.getByIP addr1234 = some [] ∧ get l.confirmed addr1234.asSlice = none :=
  ⟨_, rfl, rfl, rfl⟩

end Mihomo.CacheFile
