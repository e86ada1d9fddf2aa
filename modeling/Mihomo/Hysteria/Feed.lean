import Mihomo.Hysteria.Frag

/-!
# Runs of the reassembler

The slot array keeps the length that the first fragment of a message announced, and later fragments
index it with their own number. `Fits` is the condition on a fragment under which that is harmless.
-/

namespace Mihomo.Hysteria
open Go Lib List

structure Session where
  defragger : Defragger
  received : List UdpMessage
  returned : List UdpMessage

def Session.start : Session := ⟨.zero, [], []⟩

def Session.feed (s : Session) (m : UdpMessage) : Except Panic Session := do
  let (d, r) ← s.defragger.feed m
  return ⟨d, m :: s.received, r.toList ++ s.returned⟩

structure Fragments (msgID : UInt16) (frags : List UdpMessage) : Prop where
  number : ∀ i (f : UdpMessage), frags[i]? = some f → f.fragID.toNat = i
  count : ∀ f ∈ frags, f.fragCount.toNat = frags.length
  sameID : ∀ f ∈ frags, f.msgID = msgID

def Assembled (received : List UdpMessage) (r : UdpMessage) : Prop :=
  (r ∈ received ∧ r.fragCount ≤ 1) ∨
    ∃ frags, (∀ f ∈ frags, f ∈ received) ∧ Fragments r.msgID frags ∧
      r.data = frags.flatMap UdpMessage.data

def InRange (s : Session) (m : UdpMessage) : Prop :=
  1 < m.fragCount → m.fragID < m.fragCount → m.msgID = s.defragger.msgID →
    m.fragID.toNat < s.defragger.frags.length

/-- A fragment that continues the current message has a slot, and if the slot is free it
announces as many fragments as there are slots. -/
def Fits (s : Session) (m : UdpMessage) : Prop :=
  1 < m.fragCount → m.fragID < m.fragCount → m.msgID = s.defragger.msgID →
    m.fragID.toNat < s.defragger.frags.length ∧
      (s.defragger.frags[m.fragID.toNat]? = some none →
        m.fragCount.toNat = s.defragger.frags.length)

/-! ### The counter -/

structure Counted (d : Defragger) : Prop where
  count : d.count.toNat = filled d.frags
  short : d.frags.length < 256

theorem counted_zero : Counted .zero := ⟨rfl, by decide⟩

variable {d : Defragger} {m : UdpMessage} {s : Session}

theorem Counted.store (h : Counted d) {i : Nat} (hi : d.frags[i]? = some none) (m : UdpMessage) :
    Counted ⟨d.msgID, d.frags.set i (some m), d.count + 1⟩ where
  count := toNat_succ_eq_filled h.count h.short hi m
  short := by
    rw [length_set]
    exact h.short

theorem Counted.first (hid : m.fragID < m.fragCount) :
    Counted ⟨m.msgID, (replicate m.fragCount.toNat none).set m.fragID.toNat (some m), 1⟩ where
  count := (filled_first (UInt8.lt_iff_toNat_lt.mp hid) m).symm
  short := by
    rw [length_set, length_replicate]
    exact m.fragCount.toNat_lt

/-! ### What one message does -/

def dataOf (frags : List (Option UdpMessage)) : Str :=
  frags.flatMap fun slot => slot.elim [] UdpMessage.data

inductive Fed (d : Defragger) (m : UdpMessage) :
    Except Panic (Defragger × Option UdpMessage) → Prop where
  | unfragmented (h : m.fragCount ≤ 1) : Fed d m (.ok (d, some m))
  | stray (h : m.fragCount ≤ m.fragID) : Fed d m (.ok (d, none))
  | first (h : 1 < m.fragCount) (hid : m.fragID < m.fragCount) (hmsg : m.msgID ≠ d.msgID) :
      Fed d m (.ok
        (⟨m.msgID, (replicate m.fragCount.toNat none).set m.fragID.toNat (some m), 1⟩, none))
  | noSlot (h : 1 < m.fragCount) (hid : m.fragID < m.fragCount) (hmsg : m.msgID = d.msgID)
      (hslot : d.frags.length ≤ m.fragID.toNat) : Fed d m (.error .indexOutOfRange)
  | duplicate (hmsg : m.msgID = d.msgID) (f : UdpMessage)
      (hslot : d.frags[m.fragID.toNat]? = some (some f)) :
      Fed d m (.ok (d, none))
  | stored (h : 1 < m.fragCount) (hid : m.fragID < m.fragCount) (hmsg : m.msgID = d.msgID)
      (hslot : d.frags[m.fragID.toNat]? = some none)
      (hmore : filled (d.frags.set m.fragID.toNat (some m)) ≠ d.frags.length) :
      Fed d m (.ok (⟨d.msgID, d.frags.set m.fragID.toNat (some m), d.count + 1⟩, none))
  | last (h : 1 < m.fragCount) (hid : m.fragID < m.fragCount) (hmsg : m.msgID = d.msgID)
      (hslot : d.frags[m.fragID.toNat]? = some none)
      (hall : filled (d.frags.set m.fragID.toNat (some m)) = d.frags.length) (whole : UdpMessage)
      (hwhole : whole = { m with
        data := dataOf (d.frags.set m.fragID.toNat (some m)), fragID := 0, fragCount := 1 }) :
      Fed d m (.ok (⟨d.msgID,
        (d.frags.set m.fragID.toNat (some m)).set m.fragID.toNat (some whole), d.count + 1⟩, some whole))

theorem fed_feed (hd : Counted d) (m : UdpMessage) : Fed d m (d.feed m) := by
  by_cases hcount : m.fragCount ≤ 1
  · rw [Defragger.feed, if_pos hcount]
    exact .unfragmented hcount
  by_cases hid : m.fragCount ≤ m.fragID
  · rw [Defragger.feed, if_neg hcount, if_pos hid]
    exact .stray hid
  rw [Defragger.feed, if_neg hcount, if_neg hid]
  rw [not_le] at hcount hid
  by_cases hmsg : m.msgID = d.msgID
  · rw [if_neg (not_not_intro hmsg)]
    rcases hslot : d.frags[m.fragID.toNat]? with _ | _ | f
    · exact .noSlot hcount hid hmsg (getElem?_eq_none_iff.mp hslot)
    · have hstore := (hd.store hslot m).count
      simp only [hstore, length_set]
      by_cases hall : filled (d.frags.set m.fragID.toNat (some m)) = d.frags.length
      · have hdata := assemble_of_filled (filled_eq_length_iff.mp (hall.trans length_set.symm))
        rw [if_pos hall, hdata]
        exact .last hcount hid hmsg hslot hall _ rfl
      · rw [if_neg hall]
        exact .stored hcount hid hmsg hslot hall
    · exact .duplicate hmsg f hslot
  · rw [if_pos hmsg]
    exact .first hcount hid hmsg

theorem Counted.feed {d' : Defragger} {r : Option UdpMessage} (hd : Counted d)
    (h : d.feed m = .ok (d', r)) : Counted d' := by
  have hfed := fed_feed hd m
  rw [h] at hfed
  cases hfed with
  | unfragmented | stray | duplicate => exact hd
  | first _ hid _ => exact .first hid
  | stored _ _ _ hslot _ => exact hd.store hslot m
  | last _ _ _ hslot hall whole _ =>
    obtain ⟨hcount, hshort⟩ := hd.store hslot m
    refine ⟨?_, by simpa using hshort⟩
    rw [filled_set_of_filled (by rw [length_set]; exact hall), length_set, ← hall]
    exact hcount

/-! ### Runs -/

variable {r : UdpMessage} {t : Session}

theorem Assembled.cons {received : List UdpMessage} (h : Assembled received r)
    (m : UdpMessage) : Assembled (m :: received) r := by
  rcases h with ⟨hr, hcount⟩ | ⟨frags, hmem, hfrags, hdata⟩
  · exact .inl ⟨mem_cons_of_mem m hr, hcount⟩
  · exact .inr ⟨frags, fun f hf => mem_cons_of_mem m (hmem f hf), hfrags, hdata⟩

def Stored (s : Session) : Prop :=
  ∀ i f, s.defragger.frags[i]? = some (some f) → f ∈ s.received ∧ f.fragID.toNat = i ∧
    f.msgID = s.defragger.msgID ∧ f.fragCount.toNat = s.defragger.frags.length

structure Coherent (s : Session) : Prop where
  counted : Counted s.defragger
  slots : filled s.defragger.frags = s.defragger.frags.length ∨ Stored s
  returned : ∀ r ∈ s.returned, Assembled s.received r

theorem coherent_start : Coherent .start :=
  ⟨counted_zero, .inl rfl, nofun⟩

theorem Stored.cons (h : Stored s) (m : UdpMessage) (returned : List UdpMessage) :
    Stored ⟨s.defragger, m :: s.received, returned⟩ := by
  intro i f hf
  obtain ⟨hmem, hrest⟩ := h i f hf
  exact ⟨mem_cons_of_mem m hmem, hrest⟩

theorem Stored.store (h : Stored s)
    (hmsg : m.msgID = s.defragger.msgID) (hcount : m.fragCount.toNat = s.defragger.frags.length)
    (count : UInt8) (returned : List UdpMessage) :
    Stored ⟨⟨s.defragger.msgID, s.defragger.frags.set m.fragID.toNat (some m), count⟩,
      m :: s.received, returned⟩ := by
  intro i f hf
  rw [length_set]
  rcases slot_of_set hf with ⟨hi, rfl⟩ | hf
  · exact ⟨mem_cons_self, hi, hmsg, hcount⟩
  · obtain ⟨hmem, hrest⟩ := h i f hf
    exact ⟨mem_cons_of_mem m hmem, hrest⟩

theorem stored_first (returned : List UdpMessage) :
    Stored ⟨⟨m.msgID, (replicate m.fragCount.toNat none).set m.fragID.toNat (some m), 1⟩,
      m :: s.received, returned⟩ := by
  have hnone : Stored ⟨⟨m.msgID, replicate m.fragCount.toNat none, 0⟩, s.received, []⟩ := by
    intro i f hf
    have hmem := eq_of_mem_replicate (mem_of_getElem? hf)
    cases hmem
  exact hnone.store rfl length_replicate.symm 1 returned

theorem Stored.assembled (h : Stored s)
    (hall : filled s.defragger.frags = s.defragger.frags.length)
    (hid : r.msgID = s.defragger.msgID) (hdata : r.data = dataOf s.defragger.frags) :
    Assembled s.received r := by
  obtain ⟨frags, hfrags⟩ := exists_map_some hall
  have hslot : ∀ (i : Nat) (f : UdpMessage), frags[i]? = some f →
      s.defragger.frags[i]? = some (some f) := by
    intro i f hf
    rw [hfrags, getElem?_map, hf]
    rfl
  have hmem : ∀ f ∈ frags, ∃ i : Nat, s.defragger.frags[i]? = some (some f) := by
    intro f hf
    obtain ⟨i, hi⟩ := mem_iff_getElem?.mp hf
    exact ⟨i, hslot i f hi⟩
  have hlen : s.defragger.frags.length = frags.length := by rw [hfrags, length_map]
  refine .inr ⟨frags, fun f hf => ?_,
    ⟨fun i f hf => (h i f (hslot i f hf)).2.1, fun f hf => ?_, fun f hf => ?_⟩, ?_⟩
  · obtain ⟨i, hi⟩ := hmem f hf
    exact (h i f hi).1
  · obtain ⟨i, hi⟩ := hmem f hf
    rw [← hlen]
    exact (h i f hi).2.2.2
  · obtain ⟨i, hi⟩ := hmem f hf
    rw [hid]
    exact (h i f hi).2.2.1
  · rw [hdata, hfrags, dataOf, flatMap_map]
    rfl

theorem feed_ok (h : s.feed m = .ok t) :
    ∃ d r, s.defragger.feed m = .ok (d, r) ∧ t = ⟨d, m :: s.received, r.toList ++ s.returned⟩ := by
  unfold Session.feed at h
  cases hf : s.defragger.feed m with
  | error e =>
    rw [hf] at h
    cases h
  | ok p =>
    rw [hf] at h
    cases h
    exact ⟨p.1, p.2, rfl, rfl⟩

theorem Coherent.feed (hs : Coherent s) (hfits : Fits s m) (h : s.feed m = .ok t) : Coherent t := by
  obtain ⟨d, r, hf, rfl⟩ := feed_ok h
  have hcounted := hs.counted.feed hf
  have hold : ∀ r ∈ s.returned, Assembled (m :: s.received) r := fun r hr => (hs.returned r hr).cons m
  have hfed := fed_feed hs.counted m
  rw [hf] at hfed
  cases hfed with
  | unfragmented hcount =>
    refine ⟨hcounted, hs.slots.imp id fun h => h.cons m _, forall_mem_cons.mpr ⟨?_, hold⟩⟩
    exact .inl ⟨mem_cons_self, hcount⟩
  | stray | duplicate => exact ⟨hcounted, hs.slots.imp id fun h => h.cons m _, hold⟩
  | first => exact ⟨hcounted, .inr (stored_first _), hold⟩
  | stored hcount hid hmsg hslot hmore =>
    have hstored := hs.slots.resolve_left (filled_ne_length hslot)
    exact ⟨hcounted, .inr (hstored.store hmsg ((hfits hcount hid hmsg).2 hslot) _ _), hold⟩
  | last hcount hid hmsg hslot hall whole hwhole =>
    have hstored := hs.slots.resolve_left (filled_ne_length hslot)
    have hfull := hstored.store hmsg ((hfits hcount hid hmsg).2 hslot) (s.defragger.count + 1) []
    have hlen : filled (s.defragger.frags.set m.fragID.toNat (some m)) =
        (s.defragger.frags.set m.fragID.toNat (some m)).length := hall.trans length_set.symm
    refine ⟨hcounted, .inl ?_, forall_mem_cons.mpr ⟨?_, hold⟩⟩
    · exact (filled_set_of_filled hlen _ whole).trans length_set.symm
    · have hwid : whole.msgID = s.defragger.msgID := by
        rw [hwhole]
        exact hmsg
      exact hfull.assembled hlen hwid (by rw [hwhole])

theorem feed_error_iff (hs : Counted s.defragger) (m : UdpMessage) :
    s.feed m = .error .indexOutOfRange ↔ ¬ InRange s m := by
  have hfed := fed_feed hs m
  unfold Session.feed
  cases hf : s.defragger.feed m with
  | error e =>
    rw [hf] at hfed
    cases hfed with
    | noSlot hcount hid hmsg hslot =>
      exact iff_of_true rfl fun h => not_lt.mpr hslot (h hcount hid hmsg)
  | ok p =>
    refine iff_of_false (fun h => by cases h) (not_not_intro fun hcount hid hmsg => ?_)
    rw [hf] at hfed
    cases hfed with
    | unfragmented h => exact absurd hcount (not_lt.mpr h)
    | stray h => exact absurd hid (not_lt.mpr h)
    | first _ _ h => exact absurd hmsg h
    | duplicate _ _ hslot | stored _ _ _ hslot _ | last _ _ _ hslot _ _ _ =>
      exact (List.getElem?_eq_some_iff.mp hslot).1

theorem feed_error (hs : Counted s.defragger) {e : Panic}
    (h : s.feed m = .error e) : e = .indexOutOfRange := by
  have hfed := fed_feed hs m
  unfold Session.feed at h
  cases hf : s.defragger.feed m with
  | error e' =>
    rw [hf] at hfed h
    cases h
    cases hfed
    rfl
  | ok p =>
    rw [hf] at h
    cases h

theorem exec_feed_ok (hs : Coherent s) {msgs : List UdpMessage}
    (h : Along Session.feed Fits s msgs) : ∃ t, exec Session.feed s msgs = .ok t := by
  induction msgs generalizing s with
  | nil => exact ⟨s, rfl⟩
  | cons m msgs ih =>
    have hrange : InRange s m := fun hcount hid hmsg => (h.1 hcount hid hmsg).1
    cases hf : s.feed m with
    | error e =>
      rw [feed_error hs.counted hf] at hf
      exact absurd hrange ((feed_error_iff hs.counted m).mp hf)
    | ok t =>
      rw [exec, hf]
      exact ih (hs.feed h.1 hf) (h.2 t hf)

/-- A run of fragments that fit never panics, and what it returns is assembled from the
fragments of one message. -/
theorem feed_assembles (msgs : List UdpMessage) (h : Along Session.feed Fits .start msgs) :
    (∃ t, exec Session.feed .start msgs = .ok t) ∧
      Always Session.feed (fun s => ∀ r ∈ s.returned, Assembled s.received r) .start msgs :=
  ⟨exec_feed_ok coherent_start h,
    always_of_along (fun hs hok ht => hs.feed hok ht) (fun hs => hs.returned)
    coherent_start msgs h⟩

def fragment (msgID : UInt16) (fragID fragCount : UInt8) (data : Str) : UdpMessage :=
  ⟨1, ascii "h", 53, msgID, fragID, fragCount, data⟩

/-- A fragment with message ID 0 finds no slots in a fresh reassembler, and a fragment that
announces more fragments than the first one did may number itself past the slots. -/
theorem feed_no_slot :
    exec Session.feed .start [fragment 0 0 2 [1]] = .error .indexOutOfRange ∧
      exec Session.feed .start [fragment 7 0 2 [1], fragment 7 2 3 [2]] = .error .indexOutOfRange := by
  exact ⟨rfl, rfl⟩

theorem feed_assembles_reversed :
    (∃ t, exec Session.feed .start [fragment 7 1 2 [2], fragment 7 0 2 [1]] = .ok t) ∧
      Always Session.feed (fun s => ∀ r ∈ s.returned, Assembled s.received r) .start
        [fragment 7 1 2 [2], fragment 7 0 2 [1]] := by
  refine feed_assembles _ ⟨fun _ _ h => absurd h (by decide), fun t ht => ⟨?_, fun _ _ => trivial⟩⟩
  cases ht
  exact fun _ _ _ => ⟨by decide, fun _ => rfl⟩

end Mihomo.Hysteria
