import Mihomo.FakeIP.Persistent
import Mihomo.FakeIP.Range
import Mihomo.CacheFile.Settled

/-!
# Histories of persistent pools

One cache file outlives many pools. The mappings it holds are pairs of entries that point at each
other; they serve the current pool when exactly one side of each pair is the bytes of an address of
that pool.
-/

namespace Mihomo.FakeIP
open Go Net Lib
open CacheFile (FakeIpStore contents Settled Mutation)

def reserved (key : Str) : Bool := key == offsetKey || key == cycleKey

def Pool.spells {σ : Type} (p : Pool σ) (key : Str) : Bool :=
  match Addr.fromSlice key with
  | some ip => !ip.less p.first && ip.less p.last
  | none => false

def Clear {σ : Type} (p : Pool σ) (host : Str) : Prop :=
  reserved (toLower host) = false ∧ p.spells (toLower host) = false

def Pool.flushes (p : Pool FakeIpStore) : Bool :=
  match p.store.getByHost offsetKey with
  | some offset => !p.ipnet.contains offset
  | none => Store.exist p.store p.first

def Pool.Resumes (p : Pool FakeIpStore) : Prop :=
  ∀ offset, p.store.getByHost offsetKey = some offset →
    offset = p.first.prev ∨ offset.less p.first = false ∧ offset.less p.last = true

/-- Every stored entry leads from an address of `[first, last)` to something that is
none, or the other way round. -/
def Pool.Fitting (p : Pool FakeIpStore) : Prop :=
  ∀ key, reserved key = false → contents p.store.db key ≠ [] →
    p.spells key ≠ p.spells (contents p.store.db key)

def Act.Ok {fam : Family} (p : Pool FakeIpStore) : Act fam → Prop
  | .new bits len => ∀ q, Pool.new (.mk fam bits len) p.store = some q →
      q.flushes = true ∨ q.Resumes ∧ q.Fitting
  | .lookup host => Clear p host
  | .storeState => True

section Spelling
variable {σ : Type} {p : Pool σ} {b : Block}

theorem spells_asSlice (h : Ranged p b) {ip : Addr} (hu : Usable b ip) :
    p.spells ip.asSlice = true := by
  obtain ⟨h1, h2, _⟩ := hu.bounds h
  obtain ⟨n, hn1, hn2, rfl⟩ := hu
  have hfits := b.fits
  simp [Pool.spells, Addr.fromSlice_asSlice_at (show n < 2 ^ b.fam.bits by omega), h1, h2]

theorem usable_of_spells (h : Ranged p b) {key : Str} (hs : p.spells key = true) :
    ∃ ip, Usable b ip ∧ Addr.fromSlice key = some ip ∧ key = ip.asSlice := by
  have hfits := b.fits
  have hroom := h.room
  unfold Pool.spells at hs
  split at hs
  next ip hip =>
    obtain ⟨hkey, fam, n, hn, rfl⟩ := Addr.eq_asSlice_of_fromSlice hip
    rw [Bool.and_eq_true, Bool.not_eq_true', h.first_eq, h.last_eq] at hs
    have hfam : fam = b.fam := by
      by_contra hne
      obtain ⟨h1, h2⟩ := hs
      simp only [Addr.at, Addr.less, hne, if_false, decide_eq_false_iff_not, decide_eq_true_eq]
        at h1 h2
      exact h1 h2
    subst hfam
    rw [less_at hn (by omega), less_at hn (by omega)] at hs
    simp only [decide_eq_false_iff_not, decide_eq_true_eq] at hs
    exact ⟨_, ⟨n, by omega, by omega, rfl⟩, hip, hkey⟩
  · cases hs

theorem reserved_asSlice (ip : Addr) : reserved ip.asSlice = false := by
  have hl := CacheFile.isAddrKey_asSlice ip
  have ho : offsetKey.length = 18 := rfl
  have hc : cycleKey.length = 17 := rfl
  simp only [reserved, Bool.or_eq_false_iff, beq_eq_false_iff_ne]
  constructor <;> intro heq <;> rw [heq] at hl <;> rcases hl with hl | hl | hl <;> omega

end Spelling

theorem settled_putByHost {s : FakeIpStore} (h : Settled s) (ip : Addr) {key : Str}
    (hk : reserved key = true) :
    Settled (s.mutate (.putByHost key ip)).2 ∧
      ∀ k, reserved k = false → contents (s.mutate (.putByHost key ip)).2.db k = contents s.db k := by
  by_cases hm : (Mutation.putByHost key ip).Accepted
  · obtain ⟨_, hs, heff⟩ := h.mutate_accepted hm
    refine ⟨hs, fun k hk' => ?_⟩
    rw [heff]
    refine if_neg ?_
    rintro rfl
    rw [hk] at hk'
    cases hk'
  · obtain ⟨err, he⟩ := h.mutate_refused hm
    rw [he]
    exact ⟨h, fun _ _ => rfl⟩

theorem restoreState_eq (q : Pool FakeIpStore) : ∃ cycle, q.restoreState =
    if q.flushes then ({ q with cycle } : Pool FakeIpStore).flushFakeIP.2
    else { q with cycle, offset := (q.store.getByHost offsetKey).getD q.offset } := by
  have hcycle : ∃ cycle, (if (q.store.getByHost cycleKey).isSome then { q with cycle := true } else q) =
      { q with cycle } := by
    split
    · exact ⟨true, rfl⟩
    · exact ⟨q.cycle, rfl⟩
  obtain ⟨cycle, hcycle⟩ := hcycle
  refine ⟨cycle, ?_⟩
  cases hoff : q.store.getByHost offsetKey with
  | none => simp only [Pool.restoreState, hcycle, Pool.flushes, hoff, Option.getD_none]
  | some offset =>
    cases hc : q.ipnet.contains offset <;>
      simp [Pool.restoreState, hcycle, Pool.flushes, hoff, hc]

structure Coherent (p : Pool FakeIpStore) (b : Block) : Prop where
  ranged : Ranged p b
  positioned : Positioned b p.offset
  settled : Settled p.store
  empty_key : contents p.store.db [] = []
  paired : ∀ k, reserved k = false → contents p.store.db k ≠ [] →
    reserved (contents p.store.db k) = false ∧ contents p.store.db (contents p.store.db k) = k
  fitting : p.Fitting

variable {p : Pool FakeIpStore}

theorem coherent_flush {b : Block} (hr : Ranged p b) (hs : Settled p.store) :
    Coherent p.flushFakeIP.2 b := by
  obtain ⟨hok, hset, heff⟩ := hs.mutate_accepted (m := .flushFakeIP) trivial
  have hf : p.flushFakeIP = (none, { p with
      store := (p.store.mutate .flushFakeIP).2, cycle := false, offset := p.first.prev }) := by
    simp only [Pool.flushFakeIP, Store.flushFakeIP]
    generalize p.store.mutate .flushFakeIP = r at hok
    obtain ⟨_, store⟩ := r
    cases hok
    rfl
  have hempty : ∀ k, contents (p.store.mutate .flushFakeIP).2.db k = [] := fun k => by
    rw [heff]
    rfl
  rw [hf]
  refine ⟨hr.congr rfl rfl rfl rfl, prev_first_positioned hr, hset, hempty [], ?_, ?_⟩
  · exact fun k _ hne => absurd (hempty k) hne
  · exact fun k _ hne => absurd (hempty k) hne

namespace Coherent
variable {p : Pool FakeIpStore} {b : Block} {host : Str} {q : Pool FakeIpStore} {ip : Addr}

section

variable (h : Coherent p b) (hc : Clear p host) (he : contents p.store.db (toLower host) ≠ [])
include h hc he

theorem entry : ∃ ip, Usable b ip ∧ p.store.getByHost (toLower host) = some ip ∧
      p.store.getByIP ip = some (toLower host) := by
  obtain ⟨hres, hsp⟩ := hc
  have hside := h.fitting _ hres he
  rw [hsp] at hside
  obtain ⟨ip, hu, hip, heq⟩ := usable_of_spells h.ranged (Bool.eq_true_of_not_eq_false hside.symm)
  refine ⟨ip, hu, by rw [h.settled.getByHost_eq, hip], h.settled.getByIP_eq ?_ ?_⟩
  · intro hnil
    rw [hnil] at he
    exact he h.empty_key
  · rw [← heq]
    exact (h.paired _ hres he).2

theorem lookup_found : ∃ ip, p.lookupWithError host = (.ok ip, p) ∧ Usable b ip ∧
      p.store.getByIP ip = some (toLower host) := by
  obtain ⟨ip, hu, hget, hback⟩ := h.entry hc he
  refine ⟨ip, ?_, hu, hback⟩
  simp [Pool.lookupWithError, Store.getByHost, hget]

end

theorem lookup_fresh (h : Coherent p b) (he : contents p.store.db (toLower host) = []) :
    p.lookupWithError host =
      match p.store.mutate (.putMapping (toLower host) p.get.1) with
      | (some err, store) => (.error err, { p with store })
      | (none, store) => (.ok p.get.1, { p.get.2 with store }) := by
  have hget : p.store.getByHost (toLower host) = none := by
    rw [h.settled.getByHost_eq, he]
    rfl
  have hs := (get_spec h.ranged h.positioned).2.2.1
  simp only [Pool.lookupWithError, Pool.allocate, Store.getByHost, Store.putMapping, hget, hs]
  rcases p.store.mutate (.putMapping (toLower host) p.get.1) with ⟨_ | err, store⟩ <;> rfl

theorem spells_congr (hp : Ranged p b) (hq : Ranged q b) (key : Str) :
    q.spells key = p.spells key := by
  simp [Pool.spells, hp.first_eq, hp.last_eq, hq.first_eq, hq.last_eq]

theorem asSlice_ne (h : Coherent p b) (hu : Usable b ip)
    (hsp : p.spells host = false) : ip.asSlice ≠ host := by
  rintro rfl
  rw [spells_asSlice h.ranged hu] at hsp
  cases hsp

theorem putMapping_cases {g : Str → Str} (hE : g [] = [])
    (hP : ∀ k, reserved k = false → g k ≠ [] → reserved (g k) = false ∧ g (g k) = k)
    (he : g host = []) {k : Str} (hk : reserved k = false)
    (hne : (Mutation.putMapping host ip).effect g k ≠ []) :
    k = host ∨ k = ip.asSlice ∨ (Mutation.putMapping host ip).effect g k = g k ∧
      (Mutation.putMapping host ip).effect g (g k) = g (g k) := by
  by_cases hkh : k = host
  · exact .inl hkh
  by_cases hka : k = ip.asSlice
  · exact .inr (.inl hka)
  have hold : ¬ ((g ip.asSlice).length > 0 ∧ k = g ip.asSlice) := by
    intro hold
    have : (Mutation.putMapping host ip).effect g k = [] :=
      (if_neg hkh).trans ((if_neg hka).trans (if_pos hold))
    exact hne this
  have hfg : (Mutation.putMapping host ip).effect g k = g k :=
    (if_neg hkh).trans ((if_neg hka).trans (if_neg hold))
  rw [hfg] at hne
  obtain ⟨_, hgg⟩ := hP k hk hne
  have hkne : k ≠ [] := by
    rintro rfl
    exact hne hE
  have h1 : g k ≠ host := by
    intro heq
    rw [heq, he] at hgg
    exact hkne hgg.symm
  have h2 : g k ≠ ip.asSlice := by
    intro heq
    rw [heq] at hgg
    exact hold ⟨by rw [hgg]; exact List.length_pos_iff.mpr hkne, hgg.symm⟩
  have h3 : ¬ ((g ip.asSlice).length > 0 ∧ g k = g ip.asSlice) := by
    rintro ⟨hpos, heq⟩
    have := (hP ip.asSlice (reserved_asSlice ip) (List.length_pos_iff.mp hpos)).2
    rw [← heq, hgg] at this
    exact hka this
  exact .inr (.inr ⟨hfg, (if_neg h1).trans ((if_neg h2).trans (if_neg h3))⟩)

section
variable (h : Coherent p b)
include h

theorem putMapping_pairs (hu : Usable b ip) (hres : reserved host = false)
    (hsp : p.spells host = false) (hne : host ≠ []) (he : contents p.store.db host = []) :
    let f := (Mutation.putMapping host ip).effect (contents p.store.db)
    f [] = [] ∧ (∀ k, reserved k = false → f k ≠ [] → reserved (f k) = false ∧ f (f k) = k) ∧
      ∀ k, reserved k = false → f k ≠ [] → p.spells k ≠ p.spells (f k) := by
  have haddr := spells_asSlice h.ranged hu
  have hane : ip.asSlice ≠ [] := by
    intro heq
    rw [heq] at haddr
    simp [Pool.spells] at haddr
  intro f
  have fh : f host = ip.asSlice := if_pos rfl
  have fa : f ip.asSlice = host := (if_neg (h.asSlice_ne hu hsp)).trans (if_pos rfl)
  refine ⟨?_, ?_, ?_⟩
  · refine (if_neg hne.symm).trans ((if_neg hane.symm).trans ?_)
    split_ifs
    · rfl
    · exact h.empty_key
  · intro k hk hfk
    rcases putMapping_cases h.empty_key h.paired he hk hfk with rfl | rfl | ⟨e1, e2⟩
    · rw [fh]
      exact ⟨reserved_asSlice ip, fa⟩
    · rw [fa]
      exact ⟨hres, fh⟩
    · change f k = _ at e1
      change f _ = _ at e2
      rw [e1] at hfk ⊢
      rw [e2]
      exact h.paired k hk hfk
  · intro k hk hfk
    rcases putMapping_cases h.empty_key h.paired he hk hfk with rfl | rfl | ⟨e1, -⟩
    · rw [fh, hsp, haddr]
      exact Bool.false_ne_true
    · rw [fa, hsp, haddr]
      exact Bool.false_ne_true.symm
    · change f k = _ at e1
      rw [e1] at hfk ⊢
      exact h.fitting k hk hfk

theorem of_contents (hr : Ranged q b)
    (ho : Positioned b q.offset) (hs : Settled q.store)
    (hc : ∀ k, reserved k = false → contents q.store.db k = contents p.store.db k) :
    Coherent q b := by
  refine ⟨hr, ho, hs, (hc [] rfl).trans h.empty_key, ?_, ?_⟩
  · intro k hk hne
    rw [hc k hk] at hne ⊢
    obtain ⟨hres, hback⟩ := h.paired k hk hne
    exact ⟨hres, (hc _ hres).trans hback⟩
  · intro k hk hne
    rw [hc k hk] at hne ⊢
    rw [spells_congr h.ranged hr, spells_congr h.ranged hr]
    exact h.fitting k hk hne

theorem lookup (hc : Clear p host) :
    Coherent (p.lookupWithError host).2 b ∧ ∀ ip, (p.lookupWithError host).1 = .ok ip →
      Usable b ip ∧ ((p.lookupWithError host).2.lookBack ip).1 = some (toLower host) := by
  by_cases he : contents p.store.db (toLower host) = []
  · obtain ⟨hu, ho, hs, hr⟩ := get_spec h.ranged h.positioned
    have hl := h.lookup_fresh he
    by_cases hm : (Mutation.putMapping (toLower host) p.get.1).Accepted
    · obtain ⟨hok, hset, heff⟩ := h.settled.mutate_accepted hm
      have hne : toLower host ≠ [] := hm.2.ne_nil
      obtain ⟨h1, h2, h3⟩ := h.putMapping_pairs hu hc.1 hc.2 hne he
      rw [← heff] at h1 h2 h3
      generalize p.store.mutate (.putMapping (toLower host) p.get.1) = r at hl hok hset heff h1 h2 h3
      obtain ⟨err, store⟩ := r
      cases hok
      rw [hl]
      have hrs : Ranged { p.get.2 with store } b := hr.congr rfl rfl rfl rfl
      refine ⟨⟨hrs, by rw [ho]; exact hu.positioned, hset, h1, h2, fun k hk hne => ?_⟩, ?_⟩
      · rw [spells_congr h.ranged hrs, spells_congr h.ranged hrs]
        exact h3 k hk hne
      · rintro ip ⟨⟩
        refine ⟨hu, ?_⟩
        have hcon := hu.contains hrs
        simp only [Pool.lookBack, hcon]
        refine hset.getByIP_eq hne ?_
        rw [heff]
        exact (if_neg (h.asSlice_ne hu hc.2)).trans (if_pos rfl)
    · obtain ⟨err, herr⟩ := h.settled.mutate_refused hm
      rw [herr] at hl
      rw [hl]
      exact ⟨h, fun ip hip => by cases hip⟩
  · obtain ⟨ip, hl, hu, hback⟩ := h.lookup_found hc he
    rw [hl]
    refine ⟨h, ?_⟩
    rintro ip' ⟨⟩
    refine ⟨hu, ?_⟩
    simp only [Pool.lookBack, hu.contains h.ranged]
    exact hback

theorem storeState : Coherent p.storeState b := by
  have hr : Ranged p.storeState b := h.ranged.congr rfl rfl rfl rfl
  obtain ⟨hs1, hc1⟩ := settled_putByHost h.settled p.offset (show reserved offsetKey = true from rfl)
  obtain ⟨hs2, hc2⟩ := settled_putByHost hs1 p.offset (show reserved cycleKey = true from rfl)
  by_cases hcyc : p.cycle = true
  · refine h.of_contents hr h.positioned ?_ ?_ <;> simp only [Pool.storeState, hcyc]
    · exact hs2
    · exact fun k hk => (hc2 k hk).trans (hc1 k hk)
  · refine h.of_contents hr h.positioned ?_ ?_ <;> simp only [Pool.storeState, hcyc]
    · exact hs1
    · exact hc1

theorem restoreState {b' : Block} (hr : Ranged q b')
    (ho : Positioned b' q.offset) (hstore : q.store = p.store)
    (hok : q.flushes = true ∨ q.Resumes ∧ q.Fitting) : Coherent q.restoreState b' := by
  have hs : Settled q.store := hstore ▸ h.settled
  have hrs : ∀ cycle offset, Ranged { q with cycle, offset } b' := fun _ _ =>
    hr.congr rfl rfl rfl rfl
  obtain ⟨cycle, hq⟩ := restoreState_eq q
  rw [hq]
  by_cases hf : q.flushes = true
  · rw [if_pos hf]
    exact coherent_flush (hrs cycle q.offset) hs
  · rw [if_neg hf]
    obtain ⟨hres, hfit⟩ := hok.resolve_left hf
    refine ⟨hrs .., ?_, hs, hstore ▸ h.empty_key, hstore ▸ h.paired, hfit⟩
    cases hoff : q.store.getByHost offsetKey with
    | none => exact ho
    | some offset =>
      rcases hres offset hoff with rfl | ⟨h1, h2⟩
      · exact prev_first_positioned hr
      · rw [hs.getByHost_eq] at hoff
        have hsp : q.spells (contents q.store.db offsetKey) = true := by
          simp [Pool.spells, hoff, h1, h2]
        obtain ⟨ip, hu, hip, _⟩ := usable_of_spells hr hsp
        cases hoff.symm.trans hip
        exact hu.positioned

theorem act {fam : Family} {a : Act fam} (ha : a.Ok p) : ∃ b', Coherent (p.act a) b' := by
  cases a with
  | lookup host => exact ⟨b, (h.lookup ha).1⟩
  | storeState => exact ⟨b, h.storeState⟩
  | new bits len =>
    simp only [Pool.act, Pool.newPersistent]
    cases hn : Pool.new (.mk fam bits len) p.store with
    | none => exact ⟨b, h⟩
    | some q =>
      obtain ⟨b', hr, ho, hstore, _⟩ := ranged_new hn
      exact ⟨b', h.restoreState hr ho hstore (ha q hn)⟩

end

end Coherent

def emptyStore : FakeIpStore := { db := none, before := ∅, flight := none }

theorem coherent_first {ipnet : Prefix}
    (h : Pool.newPersistent ipnet emptyStore = some p) : ∃ b, Coherent p b := by
  obtain ⟨q, hq, rfl⟩ := Option.map_eq_some_iff.mp h
  obtain ⟨b, hr, ho, hstore, _⟩ := ranged_new hq
  have hempty : ∀ k, contents q.store.db k = [] := fun k => by rw [hstore]; rfl
  have hq : Coherent q b :=
    ⟨hr, ho, hstore ▸ ⟨rfl, rfl⟩, hempty [], fun k _ hne => absurd (hempty k) hne,
      fun k _ hne => absurd (hempty k) hne⟩
  refine ⟨b, hq.restoreState hr ho rfl (.inr ⟨fun offset hoff => ?_, hq.fitting⟩)⟩
  rw [hq.settled.getByHost_eq, hempty] at hoff
  cases hoff

def history {fam : Family} (p : Pool FakeIpStore) (a : Act fam) : Except Empty (Pool FakeIpStore) :=
  .ok (p.act a)

/-- Every address that a lookup of a clear host returns lies in `[first, last)` and
maps back to the lowered host. -/
def Serves (p : Pool FakeIpStore) : Prop :=
  ∀ host, Clear p host → ∀ ip, (p.lookupWithError host).1 = .ok ip →
    ip.less p.first = false ∧ ip.less p.last = true ∧
      ((p.lookupWithError host).2.lookBack ip).1 = some (toLower host)

theorem Coherent.serves {b : Block} (h : Coherent p b) : Serves p := by
  intro host hc ip hip
  obtain ⟨hu, hback⟩ := (h.lookup hc).2 ip hip
  obtain ⟨h1, h2, _⟩ := hu.bounds h.ranged
  exact ⟨h1, h2, hback⟩

/-- Over one cache file, lookups are sound in every history in which each `New`
flushes or finds entries that fit its range, and no host is spelled like an address
or a reserved key. -/
theorem history_serves {fam : Family} {bits : BitVec fam.bits} {len : Fin (fam.bits + 1)}
    {p : Pool FakeIpStore} (hp : Pool.newPersistent (.mk fam bits len) emptyStore = some p)
    (acts : List (Act fam)) (hok : Along history (fun q a => a.Ok q) p acts) :
    Always history Serves p acts := by
  have hstep : ∀ {q : Pool FakeIpStore} {a : Act fam} {t : Pool FakeIpStore},
      (∃ b, Coherent q b) → a.Ok q → history q a = .ok t → ∃ b, Coherent t b := by
    rintro q a t ⟨b, hq⟩ ha ht
    cases ht
    exact hq.act ha
  have hserves : ∀ {q : Pool FakeIpStore}, (∃ b, Coherent q b) → Serves q := by
    rintro q ⟨b, hq⟩
    exact hq.serves
  exact always_of_along hstep hserves (coherent_first hp) acts hok

theorem sixteen_lt_bits : 16 < Family.v4.bits + 1 := by decide

def restart19 : Act .v4 := .new (BitVec.ofNat 32 0xC6130000) ⟨16, sixteen_lt_bits⟩

def pool18 : Pool FakeIpStore :=
  { gateway := .at .v4 0xC6120001, first := .at .v4 0xC6120004, last := .at .v4 0xC612FFFF,
    offset := .at .v4 0xC6120003, cycle := false, ipnet := net18, store := emptyStore }

theorem newPersistent_net18 : Pool.newPersistent net18 emptyStore = some pool18 := rfl

theorem history_serves_example : Pool.newPersistent net18 emptyStore = some pool18 ∧
    Always history Serves pool18
      [.lookup (ascii "a"), .storeState, restart19, .lookup (ascii "a")] := by
  refine ⟨newPersistent_net18, @history_serves .v4 (BitVec.ofNat 32 0xC6120000) ⟨16, by decide⟩ pool18
    newPersistent_net18 _ ?_⟩
  refine ⟨⟨rfl, rfl⟩, ?_⟩
  rintro _ ⟨⟩
  refine ⟨trivial, ?_⟩
  rintro _ ⟨⟩
  -- the saved position is outside the new prefix
  refine ⟨fun q hq => .inl ?_, ?_⟩
  · cases hq
    rfl
  rintro _ ⟨⟩
  exact ⟨⟨rfl, rfl⟩, fun _ _ => trivial⟩

/-- The position was not saved before the range changed: the host `a` keeps its
address of the old range, which the new pool cannot map back. -/
theorem history_stale_range : Pool.newPersistent net18 emptyStore = some pool18 ∧
    let q := [.lookup (ascii "a"), restart19].foldl Pool.act pool18
    q.ipnet = net19 ∧ ∃ ip, (q.lookupWithError (ascii "a")).1 = .ok ip ∧
      ip.less q.first = true ∧ ((q.lookupWithError (ascii "a")).2.lookBack ip).1 = none :=
  ⟨newPersistent_net18, rfl, _, rfl, rfl, rfl⟩

end Mihomo.FakeIP
