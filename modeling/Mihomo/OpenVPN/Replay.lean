import Mihomo.Go.Text
import Mihomo.Lib.Run

/-!
# The replay window of the control channel

A protected control packet carries a packet ID and a time stamp. The window remembers,
for the newest time stamp, when each of the last 64 packet IDs was accepted. A slot holds
0 for an ID that has not been seen, 1 for one that has expired, and the time of acceptance
in nanoseconds otherwise; the clock must not read 0 or 1.
-/

namespace Mihomo.OpenVPN
open Go Lib List UInt32

def controlReplayWindow : Nat := 64

def controlReplayTimeBacktrack : Int := 15000000000

/-- `Time.UnixNano` of the instant `now` nanoseconds after the epoch; the result is a signed
64-bit number. -/
def unixNano (now : Int) : Int := (now + 2 ^ 63) % 2 ^ 64 - 2 ^ 63

structure ReplayState where
  time : UInt32
  highID : UInt32
  slots : List Int
  seen : Bool
  deriving DecidableEq, Repr

def ReplayState.zero : ReplayState := ⟨0, 0, replicate controlReplayWindow 0, false⟩

inductive ReplayError where
  | packetIDZero
  | timestampBacktrack (unixTime time : UInt32)
  | stale (packetID : UInt32)
  | replayedOrExpired (packetID : UInt32)
  deriving DecidableEq, Repr

def ReplayError.text : ReplayError → Str
  | .packetIDZero => ascii "openvpn control replay: packet id 0"
  | .timestampBacktrack unixTime time =>
    ascii ("openvpn control replay: timestamp backtrack " ++ toString unixTime ++ " < " ++ toString time)
  | .stale packetID => ascii ("openvpn control replay: stale packet id " ++ toString packetID)
  | .replayedOrExpired packetID =>
    ascii ("openvpn control replay: replayed or expired packet id " ++ toString packetID)

/-- The loop of `reap`; it stops at the first expired slot. -/
def reapSlots (now : Int) : Bool → List Int → List Int
  | _, [] => []
  | expire, accepted :: slots =>
    if accepted = 1 then accepted :: slots
    else
      let expire :=
        expire || (decide (1 < accepted) && decide (accepted + controlReplayTimeBacktrack < now))
      (if expire then 1 else accepted) :: reapSlots now expire slots

def ReplayState.reap (r : ReplayState) (now : Int) : ReplayState :=
  { r with slots := reapSlots now false r.slots }

def shiftSlots (shift : Nat) (slots : List Int) : List Int :=
  if controlReplayWindow ≤ shift then replicate controlReplayWindow 0
  else replicate shift 0 ++ slots.take (controlReplayWindow - shift)

/-- `checkReplayLocked` with the clock reading `now`. -/
def checkReplay (r : ReplayState) (now : Int) (packetID unixTime : UInt32) :
    ReplayState × Option ReplayError :=
  if packetID = 0 then (r, some .packetIDZero)
  else if !r.seen || r.time < unixTime then
    (⟨unixTime, packetID, (replicate controlReplayWindow 0).set 0 (unixNano now), true⟩, none)
  else if unixTime < r.time then (r, some (.timestampBacktrack unixTime r.time))
  else
    let r := r.reap now
    if r.highID < packetID then
      let shift := (packetID - r.highID).toNat
      ({ r with highID := packetID, slots := (shiftSlots shift r.slots).set 0 (unixNano now) }, none)
    else
      let diff := (r.highID - packetID).toNat
      if controlReplayWindow ≤ diff then (r, some (.stale packetID))
      else if r.slots[diff]? ≠ some 0 then (r, some (.replayedOrExpired packetID))
      else ({ r with slots := r.slots.set diff (unixNano now) }, none)

/-! ### Slots -/

def ExpiredSuffix (slots : List Int) : Prop := slots.Pairwise fun s s' => s = 1 → s' = 1

theorem length_reapSlots (now : Int) (expire : Bool) (slots : List Int) :
    (reapSlots now expire slots).length = slots.length := by
  induction slots generalizing expire with
  | nil => rfl
  | cons s slots ih =>
    rw [reapSlots]
    split
    · rfl
    · simp [ih]

theorem reapSlots_true (now : Int) {slots : List Int} (h : ExpiredSuffix slots) :
    ∀ s ∈ reapSlots now true slots, s = 1 := by
  induction slots with
  | nil => exact nofun
  | cons s slots ih =>
    obtain ⟨hs, hrest⟩ := pairwise_cons.mp h
    rw [reapSlots]
    split_ifs with hone
    · exact forall_mem_cons.mpr ⟨hone, fun s' hs' => hs s' hs' hone⟩
    · exact forall_mem_cons.mpr ⟨rfl, ih hrest⟩

theorem ExpiredSuffix.reapSlots (now : Int) {slots : List Int} (h : ExpiredSuffix slots) :
    ExpiredSuffix (OpenVPN.reapSlots now false slots) := by
  induction slots with
  | nil => exact .nil
  | cons s slots ih =>
    obtain ⟨hs, hrest⟩ := pairwise_cons.mp h
    rw [OpenVPN.reapSlots]
    split_ifs with hone
    · exact h
    · by_cases hexpire : (decide (1 < s) && decide (s + controlReplayTimeBacktrack < now)) = true
      · have hall := reapSlots_true now hrest
        rw [hexpire]
        refine pairwise_cons.mpr ⟨fun s' hs' _ => hall s' hs', ?_⟩
        exact .imp_of_mem (fun _ hb _ _ => hall _ hb)
          (pairwise_of_forall fun _ _ => trivial)
      · rw [Bool.eq_false_iff.mpr hexpire]
        exact pairwise_cons.mpr ⟨fun s' _ heq => absurd heq hone, ih hrest⟩

theorem reapSlots_ne_zero (now : Int) (expire : Bool) {slots : List Int} {i : Nat} {s : Int}
    (h : (reapSlots now expire slots)[i]? = some s) (hslot : ∀ s', slots[i]? = some s' → s' ≠ 0) :
    s ≠ 0 := by
  induction slots generalizing expire i with
  | nil => cases h
  | cons a slots ih =>
    rw [reapSlots] at h
    split_ifs at h with hone
    · exact hslot s h
    · cases i with
      | zero =>
        simp only [getElem?_cons_zero, Option.some.injEq] at h
        rw [← h]
        split_ifs
        · exact one_ne_zero
        · exact hslot a rfl
      | succ i => exact ih _ h hslot

theorem length_shiftSlots {shift : Nat} {slots : List Int} (h : slots.length = controlReplayWindow) :
    (shiftSlots shift slots).length = controlReplayWindow := by
  unfold shiftSlots
  split_ifs
  · exact length_replicate
  · rw [length_append, length_replicate, length_take]
    omega

theorem expiredSuffix_replicate (n : Nat) : ExpiredSuffix (replicate n 0) :=
  pairwise_replicate.mpr (.inr fun h => h)

theorem ExpiredSuffix.shiftSlots {slots : List Int} (h : ExpiredSuffix slots) (shift : Nat) :
    ExpiredSuffix (OpenVPN.shiftSlots shift slots) := by
  unfold OpenVPN.shiftSlots
  split_ifs
  · exact expiredSuffix_replicate _
  · refine pairwise_append.mpr ⟨expiredSuffix_replicate shift,
      .sublist (take_sublist ..) h, ?_⟩
    intro s hs s' _ hone
    rw [eq_of_mem_replicate hs] at hone
    cases hone

theorem ExpiredSuffix.set {slots : List Int} (h : ExpiredSuffix slots) {i : Nat}
    (hfree : slots[i]? = some 0) {s : Int} (hs : s ≠ 1) : ExpiredSuffix (slots.set i s) := by
  unfold ExpiredSuffix at h ⊢
  rw [pairwise_iff_getElem] at h ⊢
  intro j k hj hk hjk hone
  rw [length_set] at hj hk
  rw [getElem_set] at hone ⊢
  split_ifs at hone with hij
  · exact absurd hone hs
  · have hk1 := h j k hj hk hjk hone
    have hik : i ≠ k := by
      rintro rfl
      rw [getElem?_eq_getElem hk, hk1] at hfree
      cases hfree
    rw [if_neg hik]
    exact hk1

theorem shiftSlots_zero {shift : Nat} (hpos : 0 < shift) (slots : List Int) :
    (shiftSlots shift slots)[0]? = some 0 := by
  unfold shiftSlots
  split_ifs
  · rfl
  · rw [getElem?_append_left
      (by rw [length_replicate]; exact hpos), getElem?_replicate, if_pos hpos]

theorem getElem?_shiftSlots {shift i : Nat} {slots : List Int} {s : Int} (hi : shift ≤ i)
    (h : (shiftSlots shift slots)[i]? = some s) : slots[i - shift]? = some s := by
  unfold shiftSlots at h
  split_ifs at h with hall
  · rw [getElem?_eq_none (by rw [length_replicate]; omega)] at h
    cases h
  · rw [getElem?_append_right (by rw [length_replicate]; exact hi), length_replicate,
      getElem?_take] at h
    split_ifs at h
    exact h

/-! ### One packet -/

inductive Checked (r : ReplayState) (now : Int) (packetID unixTime : UInt32) :
    ReplayState × Option ReplayError → Prop where
  | zero (h : packetID = 0) : Checked r now packetID unixTime (r, some .packetIDZero)
  | newer (h : r.seen = false ∨ r.time < unixTime) :
    Checked r now packetID unixTime
      (⟨unixTime, packetID, (replicate controlReplayWindow 0).set 0 (unixNano now), true⟩, none)
  | backtrack (hseen : r.seen = true) (h : unixTime < r.time) :
    Checked r now packetID unixTime (r, some (.timestampBacktrack unixTime r.time))
  | ahead (hseen : r.seen = true) (htime : unixTime = r.time) (h : r.highID < packetID) :
    Checked r now packetID unixTime
      (⟨r.time, packetID,
        (shiftSlots (packetID.toNat - r.highID.toNat) (reapSlots now false r.slots)).set 0
          (unixNano now),
        r.seen⟩, none)
  | stale (hseen : r.seen = true) (htime : unixTime = r.time) :
    Checked r now packetID unixTime (r.reap now, some (.stale packetID))
  | replayed (hseen : r.seen = true) (htime : unixTime = r.time) :
    Checked r now packetID unixTime (r.reap now, some (.replayedOrExpired packetID))
  | filled (hseen : r.seen = true) (htime : unixTime = r.time) (hle : packetID ≤ r.highID)
      (hfree : (reapSlots now false r.slots)[r.highID.toNat - packetID.toNat]? = some 0) :
    Checked r now packetID unixTime
      (⟨r.time, r.highID,
        (reapSlots now false r.slots).set (r.highID.toNat - packetID.toNat) (unixNano now), r.seen⟩,
        none)

theorem checked_checkReplay (r : ReplayState) (now : Int) (packetID unixTime : UInt32) :
    Checked r now packetID unixTime (checkReplay r now packetID unixTime) := by
  unfold checkReplay
  by_cases hzero : packetID = 0
  · rw [if_pos hzero]
    exact .zero hzero
  rw [if_neg hzero]
  by_cases hnewer : r.seen = false ∨ r.time < unixTime
  · rw [if_pos (by simpa using hnewer)]
    exact .newer hnewer
  rw [if_neg (by simpa using hnewer)]
  rw [not_or, Bool.not_eq_false, UInt32.not_lt] at hnewer
  obtain ⟨hseen, hle⟩ := hnewer
  by_cases hback : unixTime < r.time
  · rw [if_pos hback]
    exact .backtrack hseen hback
  rw [if_neg hback]
  have htime : unixTime = r.time := UInt32.le_antisymm hle (UInt32.not_lt.mp hback)
  dsimp only [ReplayState.reap]
  by_cases hahead : r.highID < packetID
  · rw [if_pos hahead, UInt32.toNat_sub_of_le _ _ (UInt32.le_of_lt hahead)]
    exact .ahead hseen htime hahead
  rw [UInt32.toNat_sub_of_le _ _ (UInt32.not_lt.mp hahead)]
  split_ifs with hstale hslot
  · exact .stale hseen htime
  · exact .replayed hseen htime
  · exact .filled hseen htime (UInt32.not_lt.mp hahead) (not_not.mp hslot)

/-! ### Runs -/

structure Presented where
  now : Int
  packetID : UInt32
  unixTime : UInt32

structure Guard where
  replay : ReplayState
  accepted : List (UInt32 × UInt32)

def Guard.start : Guard := ⟨.zero, []⟩

def Guard.present (g : Guard) (p : Presented) : Except Empty Guard :=
  match checkReplay g.replay p.now p.packetID p.unixTime with
  | (r, none) => .ok ⟨r, (p.unixTime, p.packetID) :: g.accepted⟩
  | (r, some _) => .ok ⟨r, g.accepted⟩

def Marked (slots : List Int) (highID packetID : UInt32) : Prop :=
  packetID ≤ highID ∧ ∀ s, slots[highID.toNat - packetID.toNat]? = some s → s ≠ 0

structure Guarded (g : Guard) : Prop where
  length : g.replay.slots.length = controlReplayWindow
  expired : ExpiredSuffix g.replay.slots
  unseen : g.replay.seen = false → g.accepted = []
  times : ∀ a ∈ g.accepted, a.1 ≤ g.replay.time
  marked : ∀ a ∈ g.accepted, a.1 = g.replay.time → Marked g.replay.slots g.replay.highID a.2
  nodup : g.accepted.Nodup

theorem guarded_start : Guarded .start :=
  ⟨length_replicate, expiredSuffix_replicate _, fun _ => rfl, nofun,
    nofun, nodup_nil⟩

section Slots

variable {slots : List Int} {highID packetID : UInt32}

theorem Marked.reap (h : Marked slots highID packetID) (now : Int) :
    Marked (reapSlots now false slots) highID packetID :=
  ⟨h.1, fun _ hs => reapSlots_ne_zero now false hs h.2⟩

theorem Marked.set (h : Marked slots highID packetID) (i : Nat) {s : Int} (hs : s ≠ 0) :
    Marked (slots.set i s) highID packetID := by
  refine ⟨h.1, fun s' hs' => ?_⟩
  rw [getElem?_set] at hs'
  split_ifs at hs'
  · cases hs'
    exact hs
  · exact h.2 s' hs'

theorem Marked.shift (h : Marked slots highID packetID) {newID : UInt32} (hnew : highID < newID) :
    Marked (shiftSlots (newID.toNat - highID.toNat) slots) newID packetID := by
  have hle := le_iff_toNat_le.mp h.1
  have hlt := lt_iff_toNat_lt.mp hnew
  refine ⟨UInt32.le_trans h.1 (UInt32.le_of_lt hnew), fun s hs => h.2 s ?_⟩
  have hslot := getElem?_shiftSlots (by omega) hs
  rwa [show newID.toNat - packetID.toNat - (newID.toNat - highID.toNat) =
    highID.toNat - packetID.toNat by omega] at hslot

theorem marked_set_self (slots : List Int) (hle : packetID ≤ highID) {s : Int} (hs : s ≠ 0) :
    Marked (slots.set (highID.toNat - packetID.toNat) s) highID packetID := by
  refine ⟨hle, fun s' hs' => ?_⟩
  rw [getElem?_set, if_pos rfl] at hs'
  split_ifs at hs'
  cases hs'
  exact hs

end Slots

def Readable (now : Int) : Prop := unixNano now ≠ 0 ∧ unixNano now ≠ 1

theorem Guarded.reap {g : Guard} (h : Guarded g) (now : Int) : Guarded ⟨g.replay.reap now, g.accepted⟩ :=
  ⟨(length_reapSlots now false _).trans h.length, h.expired.reapSlots now, h.unseen, h.times,
    fun a ha htime => (h.marked a ha htime).reap now, h.nodup⟩

theorem Guarded.accept {g : Guard} (h : Guarded g) {slots : List Int}
    {highID packetID unixTime : UInt32} (hlen : slots.length = controlReplayWindow)
    (hexpired : ExpiredSuffix slots) (hseen : g.replay.seen = true)
    (htime : unixTime = g.replay.time) (hnew : (unixTime, packetID) ∉ g.accepted)
    (hmarked : Marked slots highID packetID)
    (hold : ∀ id, Marked g.replay.slots g.replay.highID id → Marked slots highID id) :
    Guarded ⟨⟨g.replay.time, highID, slots, g.replay.seen⟩, (unixTime, packetID) :: g.accepted⟩ := by
  refine ⟨hlen, hexpired, fun hunseen => ?_, ?_, ?_, nodup_cons.mpr ⟨hnew, h.nodup⟩⟩
  · rw [hseen] at hunseen
    cases hunseen
  · exact forall_mem_cons.mpr ⟨htime ▸ UInt32.le_refl _, h.times⟩
  · exact forall_mem_cons.mpr ⟨fun _ => hmarked, fun a ha hta => hold a.2 (h.marked a ha hta)⟩

theorem Guarded.newer {g : Guard} {p : Presented} (h : Guarded g) (hp : Readable p.now)
    (hnewer : g.replay.seen = false ∨ g.replay.time < p.unixTime) :
    Guarded ⟨⟨p.unixTime, p.packetID, (replicate controlReplayWindow 0).set 0 (unixNano p.now),
      true⟩,
      (p.unixTime, p.packetID) :: g.accepted⟩ := by
  have hfree : (replicate controlReplayWindow (0 : Int))[0]? = some 0 := rfl
  have hbelow : ∀ a ∈ g.accepted, a.1 < p.unixTime := by
    intro a ha
    rcases hnewer with hunseen | hlt
    · rw [h.unseen hunseen] at ha
      cases ha
    · exact UInt32.lt_of_le_of_lt (h.times a ha) hlt
  refine ⟨?_, (expiredSuffix_replicate _).set hfree hp.2, fun hunseen => (by cases hunseen), ?_, ?_, ?_⟩
  · rw [length_set, length_replicate]
  · exact forall_mem_cons.mpr ⟨UInt32.le_refl _, fun a ha => UInt32.le_of_lt (hbelow a ha)⟩
  · refine forall_mem_cons.mpr ⟨fun _ => ?_, fun a ha htime => ?_⟩
    · have hself :=
        marked_set_self (replicate controlReplayWindow 0) (UInt32.le_refl p.packetID) hp.1
      rwa [Nat.sub_self] at hself
    · exact absurd (hbelow a ha) (by rw [htime]; exact UInt32.lt_irrefl _)
  · exact nodup_cons.mpr ⟨fun hmem => UInt32.lt_irrefl _ (hbelow _ hmem), h.nodup⟩

theorem Guarded.present {g g' : Guard} {p : Presented} (h : Guarded g) (hp : Readable p.now)
    (hstep : g.present p = .ok g') : Guarded g' := by
  have hreaped := h.reap p.now
  have hcase := checked_checkReplay g.replay p.now p.packetID p.unixTime
  unfold Guard.present at hstep
  generalize checkReplay g.replay p.now p.packetID p.unixTime = x at hcase hstep
  cases hcase with
  | zero | backtrack => cases hstep; exact h
  | stale | replayed => cases hstep; exact hreaped
  | newer hnewer =>
    cases hstep
    exact h.newer hp hnewer
  | ahead hseen htime hahead =>
    cases hstep
    have hlt := lt_iff_toNat_lt.mp hahead
    refine h.accept ?_ ?_ hseen htime ?_ ?_ ?_
    · rw [length_set, length_shiftSlots ((length_reapSlots ..).trans h.length)]
    · exact (hreaped.expired.shiftSlots _).set (shiftSlots_zero (by omega) _) hp.2
    · intro hmem
      exact UInt32.not_lt.mpr (h.marked _ hmem htime).1 hahead
    · have hself := marked_set_self (shiftSlots (p.packetID.toNat - g.replay.highID.toNat)
        (reapSlots p.now false g.replay.slots)) (UInt32.le_refl p.packetID) hp.1
      rwa [Nat.sub_self] at hself
    · exact fun id hid => ((hid.reap p.now).shift hahead).set 0 hp.1
  | filled hseen htime hle hfree =>
    cases hstep
    refine h.accept ?_ (hreaped.expired.set hfree hp.2) hseen htime ?_ (marked_set_self _ hle hp.1) ?_
    · rw [length_set, length_reapSlots, h.length]
    · intro hmem
      exact (hreaped.marked _ hmem htime).2 0 hfree rfl
    · exact fun id hid => (hid.reap p.now).set _ hp.1

theorem Guarded.rejects {g : Guard} (h : Guarded g) {unixTime : UInt32}
    (hbelow : ∃ a ∈ g.accepted, unixTime < a.1) (now : Int) (packetID : UInt32) :
    (checkReplay g.replay now packetID unixTime).2 ≠ none := by
  obtain ⟨a, ha, hlt⟩ := hbelow
  have htime := UInt32.lt_of_lt_of_le hlt (h.times a ha)
  have hcase := checked_checkReplay g.replay now packetID unixTime
  generalize checkReplay g.replay now packetID unixTime = x at hcase
  have hne : unixTime ≠ g.replay.time := fun heq => UInt32.lt_irrefl _ (heq ▸ htime)
  cases hcase with
  | zero | backtrack => exact Option.some_ne_none _
  | newer hnewer =>
    rcases hnewer with hunseen | hlater
    · rw [h.unseen hunseen] at ha
      cases ha
    · exact absurd (UInt32.lt_trans hlater htime) (UInt32.lt_irrefl _)
  | ahead _ heq _ | stale _ heq | replayed _ heq | filled _ heq _ _ => exact absurd heq hne

/-- With clock readings that the slots can hold, no pair is accepted twice, time stamps below an
accepted one are rejected, and the expired slots are the end of the window. -/
theorem replay_window (ps : List Presented) (hps : ∀ p ∈ ps, unixNano p.now ≠ 0 ∧ unixNano p.now ≠ 1) :
    Always Guard.present (fun g => g.accepted.Nodup ∧ ExpiredSuffix g.replay.slots ∧
      ∀ now packetID unixTime, (∃ a ∈ g.accepted, unixTime < a.1) →
        (checkReplay g.replay now packetID unixTime).2 ≠ none) .start ps := by
  refine always_of_along (fun (h : Guarded _) (hp : Readable _) hstep => h.present hp hstep)
    (fun h => ⟨h.nodup, h.expired, fun now packetID unixTime hbelow => h.rejects hbelow now packetID⟩)
    guarded_start ps ?_
  exact along_of_mem (fun p hp _ => hps p hp) Guard.start

/-- One nanosecond after the epoch a fresh slot looks expired; when the clock wraps to 0 a slot
looks free, and the same pair is accepted twice. -/
theorem replay_window_reserved_readings :
    exec Guard.present .start [⟨1, 1, 7⟩, ⟨2, 2, 7⟩] =
        .ok ⟨⟨7, 2, 2 :: 1 :: List.replicate 62 0, true⟩, [(7, 2), (7, 1)]⟩ ∧
      ¬ ExpiredSuffix (2 :: 1 :: List.replicate 62 0) ∧
      exec Guard.present .start [⟨2 ^ 64, 1, 7⟩, ⟨2 ^ 64, 1, 7⟩] =
        .ok ⟨⟨7, 1, List.replicate 64 0, true⟩, [(7, 1), (7, 1)]⟩ := by
  refine ⟨rfl, fun h => ?_, rfl⟩
  exact absurd ((List.pairwise_cons.mp (List.pairwise_cons.mp h).2).1 0 (by decide) rfl) (by decide)

theorem replay_window_two :
    Always Guard.present (fun g => g.accepted.Nodup ∧ ExpiredSuffix g.replay.slots ∧
      ∀ now packetID unixTime, (∃ a ∈ g.accepted, unixTime < a.1) →
        (checkReplay g.replay now packetID unixTime).2 ≠ none) .start
      [⟨1700000000000000000, 5, 7⟩, ⟨1700000016000000000, 7, 7⟩] :=
  replay_window _ (by decide)

end Mihomo.OpenVPN
