import Mihomo.CacheFile.FakeIpStore
import Mihomo.Lib.Overlay
import Mihomo.Lib.Run

/-!
# What readers of the fake-IP store see

The confirmed content of the store is what the mutations that returned success produce one after the
other. Up to the difference between an absent and an empty value, which `bytes.Equal` does not make,
readers see the confirmed content at every moment.
-/

namespace Mihomo.CacheFile
open Go Net Lib AList

def contents (bucket : Option Bucket) (key : Str) : Str := bytes (get bucket key)

def Mutation.effect (m : Mutation) (f : Str → Str) (key : Str) : Str :=
  match m with
  | putMapping host ip =>
    if key = host then ip.asSlice
    else if key = ip.asSlice then host
    else if (f ip.asSlice).length > 0 ∧ key = f ip.asSlice then []
    else f key
  | putByHost host ip => if key = host then ip.asSlice else f key
  | putByIP ip host => if key = ip.asSlice then host else f key
  | delByIP ip =>
    if key = ip.asSlice then []
    else if (f ip.asSlice).length > 0 ∧ key = f ip.asSlice then []
    else f key
  | flushFakeIP => []

def Fits (key value : Str) : Prop :=
  key.length ≠ 0 ∧ key.length ≤ maxKeySize ∧ value.length ≤ maxValueSize

def Mutation.Accepted : Mutation → Prop
  | putMapping host ip => Fits ip.asSlice host ∧ Fits host ip.asSlice
  | putByHost host ip => Fits host ip.asSlice
  | putByIP ip host => Fits ip.asSlice host
  | delByIP _ => True
  | flushFakeIP => True

variable {key value k : Str} {b : Bucket} {db : Option Bucket}

theorem put_ok_iff {b' : Bucket} :
    b.put key value = .ok b' ↔ Fits key value ∧ b' = b.insert key value := by
  unfold Bucket.put Fits
  by_cases h1 : key.length = 0
  · simp [h1]
  · by_cases h2 : key.length > maxKeySize
    · simp [h1, h2]
    · by_cases h3 : value.length > maxValueSize
      · simp [h1, h2, h3]
      · simp [h1, h2, h3, Nat.not_lt.mp h2, Nat.not_lt.mp h3, eq_comm]

theorem put_eq_ok (h : Fits key value) :
    b.put key value = .ok (b.insert key value) := put_ok_iff.mpr ⟨h, rfl⟩

theorem contents_insert (b : Bucket) (key value k : Str) :
    contents (some (b.insert key value)) k = if k = key then value else contents (some b) k := by
  by_cases h : k = key
  · subst h
    simp [contents, get, bytes]
  · simp [contents, get, h]

theorem contents_delete (b : Bucket) (key k : Str) :
    contents (some (b.delete key)) k = if k = key then [] else contents (some b) k := by
  by_cases h : k = key
  · subst h
    simp [contents, get, bytes, Bucket.delete]
  · simp [contents, get, h, Bucket.delete]

theorem contents_getD (db : Option Bucket) (k : Str) :
    contents (some (db.getD ∅)) k = contents db k := by
  cases db with
  | none | some => rfl

theorem contents_deleteHost (b : Bucket) (old k : Str) :
    contents (some (if old.length > 0 then b.delete old else b)) k =
      if old.length > 0 ∧ k = old then [] else contents (some b) k := by
  by_cases h : old.length > 0
  · simp only [h, true_and]
    exact contents_delete b old k
  · simp [h]

namespace Mutation
variable {m : Mutation} {b : Bucket} {db : Option Bucket} {ip : Addr} {host : Str}

theorem change_ok (h : m.Accepted) : ∃ b', m.change b = .ok b' := by
  cases m with
  | putMapping host ip =>
    simp only [change, put_eq_ok h.1, put_eq_ok h.2]
    exact ⟨_, rfl⟩
  | putByHost | putByIP =>
    simp only [change, put_eq_ok h]
    exact ⟨_, rfl⟩
  | delByIP | flushFakeIP => exact ⟨_, rfl⟩

theorem put_bind_ok {f : Bucket → Except DbError (Option Bucket)}
    (h : (b.put key value >>= f) = .ok db) : Fits key value ∧ f (b.insert key value) = .ok db := by
  cases hput : b.put key value with
  | error e =>
    rw [hput] at h
    cases h
  | ok b' =>
    obtain ⟨hfits, rfl⟩ := put_ok_iff.mp hput
    rw [hput] at h
    exact ⟨hfits, h⟩

theorem change_spec (h : m.change b = .ok db) :
    m.Accepted ∧ contents db = m.effect (contents (some b)) := by
  have hold : ∀ ip : Addr, bytes (b.lookup ip.asSlice) = contents (some b) ip.asSlice := fun _ => rfl
  cases m with
  | putMapping host ip =>
    obtain ⟨haddr, h⟩ := put_bind_ok h
    obtain ⟨hhost, h⟩ := put_bind_ok h
    cases h
    refine ⟨⟨haddr, hhost⟩, funext fun k => ?_⟩
    rw [contents_insert, contents_insert, contents_deleteHost]
    rfl
  | putByHost | putByIP =>
    obtain ⟨hfits, h⟩ := put_bind_ok h
    cases h
    exact ⟨hfits, funext fun k => contents_insert ..⟩
  | delByIP ip =>
    cases h
    refine ⟨trivial, funext fun k => ?_⟩
    rw [contents_deleteHost, contents_delete, hold]
    simp only [effect]
    split_ifs <;> rfl
  | flushFakeIP =>
    cases h
    exact ⟨trivial, rfl⟩

end Mutation

/-! ## The overlay -/

def seen (s : FakeIpStore) (key : Str) : Option Str :=
  through (fun k => s.before.lookup k) (get s.db) key

theorem seen_of_none {s : FakeIpStore} (h : s.before.lookup k = none) :
    seen s k = get s.db k := through_none (o := fun k => s.before.lookup k) h _

theorem seen_of_some {s : FakeIpStore} {v : Option Str}
    (h : s.before.lookup k = some v) : seen s k = v :=
  through_some (o := s.before.lookup) h _

theorem remember_fst (db : Option Bucket) (before : Overlay) (key : Str) :
    (remember db before key).1 = through (fun k => before.lookup k) (get db) key := by
  unfold remember through
  cases h : before.lookup key <;> simp [h]

def Extends (db : Option Bucket) (before before' : Overlay) : Prop :=
  ∀ k, before'.lookup k = before.lookup k ∨
    before.lookup k = none ∧ before'.lookup k = some (get db k)

theorem Extends.refl (db : Option Bucket) (before : Overlay) : Extends db before before :=
  fun _ => .inl rfl

theorem Extends.trans {o₁ o₂ o₃ : Overlay} (h : Extends db o₁ o₂)
    (h' : Extends db o₂ o₃) : Extends db o₁ o₃ := by
  intro k
  rcases h k with h1 | ⟨h1, h2⟩ <;> rcases h' k with h3 | ⟨h3, h4⟩
  · exact .inl (h3.trans h1)
  · exact .inr ⟨h1 ▸ h3, h4⟩
  · exact .inr ⟨h1, h3.trans h2⟩
  · rw [h2] at h3
    cases h3

theorem extends_remember (db : Option Bucket) (before : Overlay) (key : Str) :
    Extends db before (remember db before key).2 := by
  intro k
  unfold remember
  cases hk : before.lookup key with
  | some v => exact .inl rfl
  | none =>
    by_cases h : k = key
    · subst h
      exact .inr ⟨hk, lookup_insert _⟩
    · exact .inl (lookup_insert_ne h)

theorem remember_covers (db : Option Bucket) (before : Overlay) (key : Str) :
    (remember db before key).2.lookup key ≠ none := by
  unfold remember
  cases hk : before.lookup key with
  | some v => simp [hk]
  | none => simp

theorem Extends.covers {o o' : Overlay} (h : Extends db o o')
    (hk : o.lookup k ≠ none) : o'.lookup k ≠ none := by
  rcases h k with heq | ⟨hn, _⟩
  · rwa [heq]
  · exact absurd hn hk

theorem extends_rememberAll (db : Option Bucket) (keys : List Str) (before : Overlay) :
    Extends db before (keys.foldl (fun o k => (remember db o k).2) before) ∧
      ∀ k ∈ keys, (keys.foldl (fun o k => (remember db o k).2) before).lookup k ≠ none := by
  induction keys generalizing before with
  | nil => exact ⟨.refl _ _, fun k hk => by cases hk⟩
  | cons key keys ih =>
    obtain ⟨hext, hcov⟩ := ih (remember db before key).2
    refine ⟨(extends_remember db before key).trans hext, fun k hk => ?_⟩
    rcases List.mem_cons.mp hk with rfl | hk
    · exact hext.covers (remember_covers db before k)
    · exact hcov k hk

theorem extends_prepare (m : Mutation) (db : Option Bucket) (before : Overlay) :
    Extends db before (m.prepare db before) := by
  have hr := extends_remember db
  cases m with
  | putMapping host ip =>
    simp only [Mutation.prepare]
    split
    · exact ((hr _ _).trans (hr _ _)).trans (hr _ _)
    · exact (hr _ _).trans (hr _ _)
  | putByHost | putByIP => exact hr _ _
  | delByIP ip =>
    simp only [Mutation.prepare]
    split
    · exact (hr _ _).trans (hr _ _)
    · exact hr _ _
  | flushFakeIP =>
    cases db with
    | none => exact .refl _ _
    | some b => exact (extends_rememberAll ..).1

theorem absent_of_not_prepared {before : Overlay}
    (hk : (Mutation.flushFakeIP.prepare db before).lookup k = none) :
    get db k = none ∧ before.lookup k = none := by
  constructor
  · cases db with
    | none => rfl
    | some b =>
      by_contra hn
      have hmem : k ∈ b.keys := by
        rw [← mem_keys, ← lookup_isSome]
        exact Option.isSome_iff_ne_none.mpr hn
      exact (extends_rememberAll ..).2 k hmem hk
  · by_contra hn
    exact (extends_prepare .flushFakeIP db before).covers hn hk

theorem effect_of_not_prepared (m : Mutation) (db : Option Bucket) (before : Overlay)
    (hk : (m.prepare db before).lookup k = none) :
    let f := fun k => bytes (through (fun k => before.lookup k) (get db) k)
    m.effect f k = f k := by
  have hr := extends_remember db
  have hc := remember_covers db
  intro f
  -- a remembered key differs from `k`
  have hne : ∀ {key o}, Extends db (remember db o key).2 (m.prepare db before) → k ≠ key := by
    rintro key o hext rfl
    exact hext.covers (hc o k) hk
  cases m with
  | putMapping host ip =>
    simp only [Mutation.prepare, remember_fst] at hk hne
    have haddr : k ≠ ip.asSlice := by
      refine hne (o := before) ?_
      split
      · exact (hr _ _).trans (hr _ _)
      · exact hr _ _
    have hhost : k ≠ host := by
      refine hne (o := (remember db before ip.asSlice).2) ?_
      split
      · exact hr _ _
      · exact .refl _ _
    have hold : ¬ ((f ip.asSlice).length > 0 ∧ k = f ip.asSlice) := by
      rintro ⟨hpos, heq⟩
      rw [if_pos hpos] at hne
      exact hne (.refl _ _) heq
    simp [Mutation.effect, if_neg haddr, if_neg hhost, if_neg hold]
  | putByHost | putByIP => exact if_neg (hne (.refl _ _))
  | delByIP ip =>
    simp only [Mutation.prepare, remember_fst] at hk hne
    have haddr : k ≠ ip.asSlice := by
      refine hne (o := before) ?_
      split
      · exact hr _ _
      · exact .refl _ _
    have hold : ¬ ((f ip.asSlice).length > 0 ∧ k = f ip.asSlice) := by
      rintro ⟨hpos, heq⟩
      rw [if_pos hpos] at hne
      exact hne (.refl _ _) heq
    simp [Mutation.effect, if_neg haddr, if_neg hold]
  | flushFakeIP =>
    obtain ⟨hget, hbefore⟩ := absent_of_not_prepared hk
    simp [f, Mutation.effect, through, hbefore, hget, bytes]

def IsAddrKey (key : Str) : Prop := key.length = 0 ∨ key.length = 4 ∨ key.length = 16

theorem isAddrKey_asSlice (ip : Addr) : IsAddrKey ip.asSlice := by
  cases ip with
  | zero => exact .inl rfl
  | ip fam a zone =>
    right
    rw [Addr.asSlice, bytesBE_length]
    cases fam
    · exact .inl rfl
    · exact .inr rfl

def Solid (f : Str → Option Str) : Prop := ∀ k, IsAddrKey k → f k ≠ some []

theorem solid_insert (h : Solid (get (some b)))
    (hv : IsAddrKey key → value ≠ []) : Solid (get (some (b.insert key value))) := by
  intro k hk
  by_cases heq : k = key
  · subst heq
    simpa [get] using hv hk
  · simpa [get, lookup_insert_ne heq] using h k hk

theorem solid_delete (h : Solid (get (some b))) (key : Str) :
    Solid (get (some (b.delete key))) := by
  intro k hk
  by_cases heq : k = key
  · subst heq
    simp [get, Bucket.delete]
  · simpa [get, Bucket.delete, lookup_erase_ne heq] using h k hk

def Mutation.Storable : Mutation → Prop
  | putByIP ip host => ip ≠ .zero → host ≠ []
  | putByHost host ip => host.length = 4 ∨ host.length = 16 → ip ≠ .zero
  | putMapping _ _ | delByIP _ | flushFakeIP => True

theorem asSlice_eq_nil {ip : Addr} : ip.asSlice = [] ↔ ip = .zero := by
  cases ip with
  | zero => simp [Addr.asSlice]
  | ip fam a zone =>
    have := bytesBE_length fam.bytes a.toNat
    simp only [Addr.asSlice, reduceCtorEq, iff_false]
    intro h
    rw [h] at this
    cases fam <;> simp [Family.bytes] at this

theorem Fits.ne_nil (h : Fits key value) : key ≠ [] := by
  rintro rfl
  exact h.1 rfl

theorem Mutation.solid_change {m : Mutation} (hm : m.Storable)
    (hb : Solid (get (some b))) (h : m.change b = .ok db) : Solid (get db) := by
  have hdel : ∀ {b : Bucket} (old : Str), Solid (get (some b)) →
      Solid (get (some (if old.length > 0 then b.delete old else b))) := by
    intro b old hb
    split
    · exact solid_delete hb old
    · exact hb
  cases m with
  | putMapping host ip =>
    obtain ⟨h1, h⟩ := put_bind_ok h
    obtain ⟨h2, h⟩ := put_bind_ok h
    cases h
    exact solid_insert (solid_insert (hdel _ hb) fun _ => h2.ne_nil) fun _ => h1.ne_nil
  | putByHost host ip =>
    obtain ⟨ha, h⟩ := put_bind_ok h
    cases h
    exact solid_insert hb fun hk hn => hm (hk.resolve_left ha.1) (asSlice_eq_nil.mp hn)
  | putByIP ip host =>
    obtain ⟨ha, h⟩ := put_bind_ok h
    cases h
    exact solid_insert hb fun _ => hm fun hz => Fits.ne_nil ha (asSlice_eq_nil.mpr hz)
  | delByIP ip =>
    cases h
    exact hdel _ (solid_delete hb _)
  | flushFakeIP =>
    cases h
    exact fun _ _ => by simp [get]

end Mihomo.CacheFile
