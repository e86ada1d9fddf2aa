import Mihomo.Mkcp.Stream

/-!
# How segments leave the window

`processAckLocked` compares numbers on the circle. `processReceivingNextLocked` and
`processSendingNextLocked` compare them as plain integers, which is wrong when the number and the limit
lie on different sides of the wrap.
-/

namespace Mihomo.Mkcp
open Go Lib

/-! ### Single calls -/

namespace Conn

/-- `processReceivingNextLocked` removes exactly the segments before `next` unless a number of the
window and `next` are on different sides of the wrap. -/
theorem processReceivingNextLocked_iff (c : Conn) (next : Nat)
    (hserial : ∀ seg ∈ c.sendWindow, Precedes (serial seg.number) (serial next) ↔ seg.number < next) :
    (c.processReceivingNextLocked next).sendWindow =
      c.sendWindow.filter (fun seg => ¬ seg.number < next) ↔
      ∀ seg ∈ c.sendWindow, Near (serial seg.number).toNat (serial next).toNat := by
  change c.sendWindow.filter (fun seg => ¬ serial seg.number < serial next) = _ ↔ _
  have hagree : ∀ seg ∈ c.sendWindow, (serial seg.number < serial next ↔ seg.number < next) ↔
      Near (serial seg.number).toNat (serial next).toNat := by
    intro seg hseg
    rw [← hserial seg hseg]
    exact lt_iff_precedes_iff ..
  constructor
  · intro heq seg hseg
    rw [← hagree seg hseg, ← not_iff_not]
    have hmem : seg ∈ c.sendWindow.filter (fun seg => ¬ serial seg.number < serial next) ↔
        seg ∈ c.sendWindow.filter (fun seg => ¬ seg.number < next) := by rw [heq]
    simpa [hseg] using hmem
  · intro hnear
    refine List.filter_congr fun seg hseg => ?_
    exact decide_eq_decide.mpr (not_congr ((hagree seg hseg).mpr (hnear seg hseg)))

/-- `processSendingNextLocked` drops only numbers before `next` unless a number is more than 2^31
below `next` as a plain integer. -/
theorem processSendingNextLocked_iff (c : Conn) (next : Nat) :
    (∀ ack ∈ c.ackList, ack ∉ (c.processSendingNextLocked next).ackList →
        Precedes (serial ack.number) (serial next)) ↔
      ∀ ack ∈ c.ackList, (serial next).toNat ≤ (serial ack.number).toNat + 2 ^ 31 := by
  refine forall₂_congr fun ack hack => ?_
  rw [← precedes_of_lt_iff]
  change (ack ∉ c.ackList.filter (fun ack => serial ack.number ≥ serial next) → _) ↔ _
  simp [hack]

end Conn

/-! ### Runs -/

def Segment.Recent (i : Nat) : Segment → Prop
  | .data _ => True
  | .ack s => Close i s.receivingNext ∧ ∀ n ∈ s.numberList, Close i n
  | .cmdOnly s => Close i s.receivingNext

def Segment.OneSide (i : Nat) : Segment → Prop
  | .data _ => True
  | .ack s => Near (serial i).toNat (serial s.receivingNext).toNat
  | .cmdOnly s => Near (serial i).toNat (serial s.receivingNext).toNat

namespace Link

def Timely (x : Side) (l : Link) (a : Side × Event) : Prop :=
  l.Carried a ∧ ∀ seg now, a = (x, .receive seg now) → ∀ p ∈ (l x).conn.window, seg.Recent p.1

def Unwrapped (x : Side) (l : Link) (a : Side × Event) : Prop :=
  ∀ seg now, a = (x, .receive seg now) → ∀ p ∈ (l x).conn.window, seg.OneSide p.1

/-- While the connection of side `x` is open, a segment leaves its window only if the peer has
delivered or cached it. -/
def LeavesHeld (x : Side) (l : Link) (a : Side × Event) : Prop :=
  ∀ l', l.step a = .ok l' → (l' x).conn.state.isOpen = true →
    ∀ p ∈ (l x).conn.window, p ∉ (l' x).conn.window → (l' x.peer).conn.Held p.1

variable {l : Link} {x : Side} {w : Nat} {a : Side × Event}

theorem held_of_takes {seg : Segment} {now : UInt32} {c : Conn} {i : Nat} (hreports : seg.Reports c)
    (hrecent : seg.Recent i) (hside : seg.OneSide i) (htakes : (Event.receive seg now).Takes i) :
    c.Held i := by
  have hbefore : ∀ next, Close i next → Near (serial i).toNat (serial next).toNat →
      serial i < serial next → next ≤ c.recvNext → c.Held i := by
    intro next hclose hnear hlt hle
    rw [(lt_iff_precedes_iff ..).mpr hnear, precedes_serial_iff hclose.near] at hlt
    exact .inl (hlt.trans_le hle)
  cases seg with
  | data s => exact htakes.elim
  | ack s =>
    rcases htakes with hlt | ⟨n, hn, heq⟩
    · exact hbefore _ hrecent.1 hside hlt hreports.1
    · rw [serial_inj (hrecent.2 n hn).near] at heq
      exact heq ▸ hreports.2 n hn
  | cmdOnly s => exact hbefore _ hrecent hside htakes hreports

theorem Flows.leavesHeld (h : Flows w x.peer l) (htimely : l.Timely x a) (hside : l.Unwrapped x a) :
    l.LeavesHeld x a := by
  intro l' hstep hopen p hp hleft
  obtain ⟨y, ev⟩ := a
  cases hstep
  by_cases hyx : y = x
  · subst hyx
    rw [Function.update_self] at hopen hleft
    rw [Function.update_of_ne y.peer_ne]
    have hstepped := (l y).stepped ev
    generalize (l y).step ev = e' at hstepped hopen hleft
    cases hstepped with
    | rests hrests =>
      have htakes := hrests.left hopen p hp hleft
      cases ev with
      | receive seg now =>
        have hsent : seg ∈ (l y.peer).sent := htimely.1.1
        exact held_of_takes (h.receives.sent seg hsent) (htimely.2 seg now rfl p hp)
          (hside seg now rfl p hp) htakes
      | write | attempt | deadline | read | close | terminate | flush => exact htakes.elim
    | accepts hwrite writes =>
      obtain ⟨-, rfl⟩ := Conn.write_accepted hwrite
      refine absurd ?_ hleft
      change p ∈ ((l y).conn.sendWindow ++ _).map _
      rw [List.map_append]
      exact List.mem_append_left _ hp
    | @handles s now hconv hstate =>
      have hsheds := ((l y).conn.frame_lastIncoming now (P := fun _ => False)).toSheds.trans
        (Conn.sheds_inputData now _ s)
      exact (hsheds.left hopen p hp hleft).elim
  · rw [Function.update_of_ne (.symm hyx)] at hleft
    exact absurd hp hleft

end Link

/-- Single calls prune exactly when the numbers are on one side of the wrap, and in every run in
which they are, a segment leaves an open window only if the peer has it. -/
theorem acknowledgements_iff (c : Conn) (next : Nat) (cfg : Side → Config) (l : Link) (x : Side) :
    ((∀ seg ∈ c.sendWindow, Precedes (serial seg.number) (serial next) ↔ seg.number < next) →
      ((c.processReceivingNextLocked next).sendWindow =
          c.sendWindow.filter (fun seg => ¬ seg.number < next) ↔
        ∀ seg ∈ c.sendWindow, Near (serial seg.number).toNat (serial next).toNat)) ∧
    ((∀ ack ∈ c.ackList, ack ∉ (c.processSendingNextLocked next).ackList →
        Precedes (serial ack.number) (serial next)) ↔
      ∀ ack ∈ c.ackList, (serial next).toNat ≤ (serial ack.number).toNat + 2 ^ 31) ∧
    (Link.Opened cfg l → (cfg x.peer).receivingInFlightSize.toNat ≤ 2 ^ 31 + 1 →
      ∀ as, Along Link.step (fun l a => l.Timely x a ∧ l.Unwrapped x a) l as →
        Along Link.step (Link.LeavesHeld x) l as) := by
  refine ⟨c.processReceivingNextLocked_iff next, c.processSendingNextLocked_iff next, ?_⟩
  intro hopened hw as has
  have hpos := (cfg x.peer).receivingInFlightSize_pos
  exact along_of_along (fun hflows hok hstep => (hflows.step ⟨hpos, hw⟩ hok.1.1 hstep).1)
    (fun hflows hok => hflows.leavesHeld hok.1 hok.2) (hopened.flows x.peer) as has

def sample (numbers acks : List Nat) : Option Conn :=
  (newConn {} 1 6).map fun c => { c with
    sendWindow := numbers.map fun number => { number, payload := [] }
    sendNext := 4294967298
    ackList := acks.map fun number => ⟨number, 0, 0⟩ }

theorem acknowledgements_sample : ∃ c, sample [7, 8, 9] [5, 6] = some c ∧
    (c.processReceivingNextLocked 8).sendWindow = c.sendWindow.filter (fun seg => ¬ seg.number < 8) ∧
    (∀ ack ∈ c.ackList, ack ∉ (c.processSendingNextLocked 6).ackList →
      Precedes (serial ack.number) (serial 6)) ∧
    ∃ l, Link.Opened (fun _ => {}) l ∧ Along Link.step (Link.LeavesHeld .dialer) l
      [(.dialer, .write [0]), (.dialer, .attempt 0), (.dialer, .flush 0)] := by
  obtain ⟨c, hc⟩ : ∃ c, newConn {} 1 6 = some c := ⟨_, rfl⟩
  have hall := fun q next => acknowledgements_iff q next (fun _ => {}) (Link.fresh c) .dialer
  refine ⟨_, rfl, ?_, ?_, ?_⟩
  · exact ((hall _ 8).1 (by decide)).mpr (by unfold Near; decide)
  · exact (hall _ 6).2.1.mpr (by decide)
  · refine ⟨Link.fresh c, Link.opened_fresh hc, ?_⟩
    refine (hall c 0).2.2 (Link.opened_fresh hc) (by decide) _ ?_
    refine along_of_mem (fun a ha l => ?_) _
    simp only [List.mem_cons, List.not_mem_nil, or_false] at ha
    rcases ha with rfl | rfl | rfl <;>
      exact ⟨⟨trivial, fun _ _ h => by cases h⟩, fun _ _ h => by cases h⟩

/-- Of a window across the wrap the segments behind it are dropped, although the peer has delivered
only the first one; and an acknowledgement of the first number behind the wrap is dropped. -/
theorem wrapped_window_drops : ∃ c,
    sample [4294967294, 4294967295, 4294967296, 4294967297] [4294967296] = some c ∧
    (∀ seg ∈ c.sendWindow,
      Precedes (serial seg.number) (serial 4294967295) ↔ seg.number < 4294967295) ∧
    (c.processReceivingNextLocked 4294967295).sendWindow.map DataSegment.number = [4294967295] ∧
    (c.processSendingNextLocked 4294967295).ackList = [] ∧
    ¬ Precedes (serial 4294967296) (serial 4294967295) := by
  refine ⟨_, rfl, by decide, by decide, by decide, by decide⟩

end Mihomo.Mkcp
