import Mihomo.Mkcp.Link

/-!
# The stream of one direction

A side sends the payloads that its `Write` accepts under the numbers of their positions, and the other
side appends them to `readBuf` in this order, as long as a copy of a segment that was delivered before
does not pass the window test of `Input`.
-/

namespace Mihomo.Mkcp
open Go Lib List Function

def Copy (accepted : List Str) (i : Nat) (q : DataSegment) : Prop :=
  q.number = i ∧ accepted[i]? = some q.payload

def Conn.Held (c : Conn) (i : Nat) : Prop :=
  i < c.recvNext ∨ ∃ q, c.recvCache.lookup (serial i) = some q ∧ q.number = i

variable {i : Nat} {payload : Str} {P : Nat → Prop} {c c' conn : Conn}

theorem Copy.append {accepted : List Str} {q : DataSegment} (h : Copy accepted i q)
    (payload : Str) : Copy (accepted ++ [payload]) i q :=
  ⟨h.1, List.getElem?_append_left (List.getElem?_eq_some_iff.mp h.2).1 ▸ h.2⟩

/-! ### The receiving side of a connection -/

namespace Conn

structure Waits (accepted : List Str) (w : Nat) (pre : Str) (c : Conn) : Prop where
  recvNext : c.recvNext ≤ accepted.length
  readBuf : pre ++ c.readBuf = (accepted.take c.recvNext).flatten
  cache : Ahead (Copy accepted) c.recvNext w c.recvCache

variable {accepted : List Str} {w : Nat} {pre : Str} {c c' : Conn}

theorem Waits.held_erase (h : Waits accepted w pre c) (hw : w ≤ 2 ^ 32) {i : Nat} (hheld : c.Held i)
    {readBuf : Str} :
    Held { c with
      recvCache := c.recvCache.erase (serial c.recvNext)
      recvNext := c.recvNext + 1
      readBuf } i := by
  rcases hheld with hlt | ⟨q, hq, hi⟩
  · exact .inl (Nat.lt_succ_of_lt hlt)
  · by_cases hkey : serial i = serial c.recvNext
    · obtain ⟨j, hle, hlt, -, hcopy⟩ := h.cache _ q hq
      have hj : j = c.recvNext := by
        rw [hkey] at hq
        exact hcopy.1.symm.trans (h.cache.at_position hw le_rfl (by omega) hq).1
      exact .inl (by rw [← hi, hcopy.1, hj]; exact Nat.lt_succ_self _)
    · exact .inr ⟨q, (AList.lookup_erase_ne hkey).trans hq, hi⟩

theorem Waits.take (h : Waits accepted w pre c) (hw : 0 < w ∧ w ≤ 2 ^ 32) {seg : DataSegment}
    (hseg : c.recvCache.lookup (serial c.recvNext) = some seg) :
    Waits accepted w pre
      { c with
        recvCache := c.recvCache.erase (serial c.recvNext)
        recvNext := c.recvNext + 1
        readBuf := c.readBuf ++ seg.payload } := by
  obtain ⟨-, hpayload⟩ := h.cache.at_position hw.2 le_rfl (by omega) hseg
  refine ⟨(List.getElem?_eq_some_iff.mp hpayload).1, ?_, h.cache.erase⟩
  rw [← append_assoc, h.readBuf, take_add_one, hpayload]
  simp

theorem Waits.deliver (hw : 0 < w ∧ w ≤ 2 ^ 32) (rounds : Nat) (h : Waits accepted w pre c) :
    Waits accepted w pre (c.deliver rounds) ∧ c.recvNext ≤ (c.deliver rounds).recvNext ∧
      ∀ i, c.Held i → (c.deliver rounds).Held i := by
  induction rounds generalizing c with
  | zero => exact ⟨h, le_rfl, fun _ hi => hi⟩
  | succ rounds ih =>
    rw [Conn.deliver]
    cases hseg : c.recvCache.lookup (serial c.recvNext) with
    | none => exact ⟨h, le_rfl, fun _ hi => hi⟩
    | some seg =>
      obtain ⟨hwaits, hnext, hheld⟩ := ih (h.take hw hseg)
      exact ⟨hwaits, (Nat.le_succ _).trans hnext, fun i hi => hheld i (h.held_erase hw.2 hi)⟩

theorem Waits.append (h : Waits accepted w pre c) (payload : Str) :
    Waits (accepted ++ [payload]) w pre c := by
  refine ⟨?_, ?_, h.cache.imp fun i q hq => hq.append payload⟩
  · exact h.recvNext.trans (by rw [length_append]; exact Nat.le_add_right ..)
  · rw [h.readBuf, take_append_of_le_length h.recvNext]

theorem Waits.frame {P : Nat → Prop} (h : Waits accepted w pre c) (hframe : Frame P c c') :
    Waits accepted w pre c' ∧ ∀ i, c.Held i → c'.Held i := by
  have hinbound := hframe.inbound
  simp only [inbound, Prod.mk.injEq] at hinbound
  obtain ⟨-, -, -, hreadBuf, hrecvCache, hrecvNext⟩ := hinbound
  constructor
  · refine ⟨hrecvNext ▸ h.recvNext, ?_, ?_⟩
    · rw [hreadBuf, hrecvNext]
      exact h.readBuf
    · rw [hrecvNext, hrecvCache]
      exact h.cache
  · intro i hi
    rw [Held, hrecvNext, hrecvCache]
    exact hi

variable {s : DataSegment}

theorem Waits.store (h : Waits accepted w pre c) (hw : w ≤ 2 ^ 32)
    (hs : Copy accepted s.number s) (hle : c.recvNext ≤ s.number) (hlt : s.number < c.recvNext + w)
    (ackList : List AckItem) (ackDirty : Bool) :
    let c' := { c with
      ackList, ackDirty
      recvCache := match c.recvCache.lookup (serial s.number) with
        | none => c.recvCache.insert (serial s.number) s
        | some _ => c.recvCache }
    Waits accepted w pre c' ∧ c'.Held s.number ∧ ∀ i, c.Held i → c'.Held i := by
  cases hlookup : c.recvCache.lookup (serial s.number) with
  | some q =>
    refine ⟨{ h with }, ?_, fun _ hi => hi⟩
    exact .inr ⟨q, hlookup, (h.cache.at_position hw hle hlt hlookup).1⟩
  | none =>
    refine ⟨⟨h.recvNext, h.readBuf, h.cache.insert hle hlt hs⟩, ?_, fun i hi => ?_⟩
    · exact .inr ⟨s, AList.lookup_insert _, rfl⟩
    · refine hi.imp_right fun ⟨q, hq, hi⟩ => ⟨q, ?_, hi⟩
      have hne : serial i ≠ serial s.number := by
        intro heq
        rw [heq, hlookup] at hq
        cases hq
      exact (AList.lookup_insert_ne hne).trans hq

structure Handles (accepted : List Str) (w : Nat) (pre : Str) (s : DataSegment) (c c' : Conn) :
    Prop where
  waits : Waits accepted w pre c'
  cfg : c'.cfg = c.cfg
  recvNext : c.recvNext ≤ c'.recvNext
  held : ∀ i, c.Held i → c'.Held i
  acks : ∃ kept added, c'.acks = kept ++ added ∧ kept.Sublist c.acks ∧
    ∀ n ∈ added, n = s.number ∧ c'.Held n

theorem Waits.inputData (h : Waits accepted w pre c) (hw : 0 < w ∧ w ≤ 2 ^ 31 + 1)
    (hcfg : c.cfg.receivingInFlightSize.toNat = w) (hs : Copy accepted s.number s)
    (hclose : Close s.number c.recvNext) (now : UInt32) :
    Handles accepted w pre s c (c.inputData now s) := by
  have hframe : Frame (fun _ => False) c
      ((c.handleOptionLocked now s.option).processSendingNextLocked s.sendingNext) :=
    (c.frame_handleOptionLocked now s.option).trans (frame_processSendingNextLocked _ s.sendingNext)
  obtain ⟨hwaits, hkeep⟩ := h.frame hframe
  have hcfg' := congrArg Prod.fst hframe.inbound
  have hacks := hframe.acks
  have hnext := hframe.recvNext
  unfold Conn.inputData
  dsimp only
  generalize Conn.processSendingNextLocked _ s.sendingNext = c₁ at *
  have hw' : 0 < w ∧ w ≤ 2 ^ 32 := ⟨hw.1, by omega⟩
  split_ifs with hlt
  · have hahead : c₁.recvNext ≤ s.number ∧ s.number < c₁.recvNext + w := by
      rw [UInt32.lt_iff_toNat_lt, show c₁.cfg = c.cfg from hcfg', hcfg] at hlt
      exact serial_ahead (hnext ▸ hclose) hw.2 hlt
    obtain ⟨hstored, hheld, hkeep'⟩ := hwaits.store hw'.2 hs hahead.1 hahead.2
      (c₁.ackList ++ [{ number := s.number, timestamp := s.timestamp, nextFlush := 0 }]) true
    obtain ⟨hdelivered, hmoved, hkeep''⟩ := hstored.deliver hw' _
    obtain ⟨readBuf, recvCache, recvNext, heq⟩ := deliver_eq ..
    rw [deliverLocked]
    refine ⟨hdelivered, ?_, hnext.symm.le.trans hmoved,
      fun i hi => hkeep'' i (hkeep' i (hkeep i hi)), c₁.acks, [s.number], ?_, hacks, ?_⟩
    · rw [heq]
      exact hcfg'
    · rw [heq]
      exact map_append
    · intro n hn
      rw [mem_singleton.mp hn]
      exact ⟨rfl, hkeep'' _ hheld⟩
  · obtain ⟨hdelivered, hmoved, hkeep'⟩ := hwaits.deliver hw' c₁.recvCache.entries.length
    obtain ⟨readBuf, recvCache, recvNext, heq⟩ := deliver_eq c₁.recvCache.entries.length c₁
    rw [deliverLocked]
    refine ⟨hdelivered, ?_, hnext.symm.le.trans hmoved,
      fun i hi => hkeep' i (hkeep i hi), c₁.acks, [], ?_, hacks, ?_⟩
    · rw [heq]
      exact hcfg'
    · rw [heq]
      exact (append_nil _).symm
    · exact forall_mem_nil _

end Conn

/-! ### The two sides -/

structure Sends (e : Endpoint) : Prop where
  sendNext : e.conn.sendNext = e.accepted.length
  window : ∀ p ∈ e.conn.window, e.accepted[p.1]? = some p.2
  sent : ∀ s, .data s ∈ e.sent → e.accepted[s.number]? = some s.payload

def Segment.Reports (c : Conn) : Segment → Prop
  | .data _ => True
  | .ack s => s.receivingNext ≤ c.recvNext ∧ ∀ n ∈ s.numberList, c.Held n
  | .cmdOnly s => s.receivingNext ≤ c.recvNext

structure Receives (accepted : List Str) (w : Nat) (e : Endpoint) : Prop where
  window : e.conn.cfg.receivingInFlightSize.toNat = w
  waits : e.conn.Waits accepted w e.returned
  acks : ∀ n ∈ e.conn.acks, e.conn.Held n
  sent : ∀ seg ∈ e.sent, seg.Reports e.conn

variable {accepted : List Str} {w : Nat} {e e' : Endpoint} {ev : Event}

theorem getElem?_append_of_some {accepted : List Str} {p : Str}
    (h : accepted[i]? = some p) : (accepted ++ [payload])[i]? = some p := by
  rw [List.getElem?_append_left (List.getElem?_eq_some_iff.mp h).1, h]

theorem Sends.rests (h : Sends e) (hrests : Rests P e e') : Sends e' := by
  obtain ⟨segs, hsent, hfrom⟩ := hrests.sent
  refine ⟨?_, fun p hp => ?_, fun s hs => ?_⟩
  · rw [hrests.sendNext, hrests.accepted, h.sendNext]
  · rw [hrests.accepted]
    exact h.window p (hrests.kept.subset hp)
  · rw [hrests.accepted]
    rw [hsent] at hs
    rcases mem_append.mp hs with hs | hs
    · exact h.sent s hs
    · exact h.window _ (hfrom _ hs)

theorem Conn.write_accepted (h : c.write payload = .accepted c') :
    c.state = .active ∧ c' = { c with
      sendNext := c.sendNext + 1
      sendWindow := c.sendWindow ++ [{ number := c.sendNext, payload }] } := by
  unfold Conn.write at h
  split_ifs at h with hstate hroom
  · cases h
    exact ⟨not_not.mp hstate, rfl⟩

theorem Sends.accepts (h : Sends e)
    (hwrite : e.conn.write payload = .accepted conn) (writes : List WriteCall) :
    Sends { e with conn, accepted := e.accepted ++ [payload], writes } := by
  obtain ⟨-, rfl⟩ := Conn.write_accepted hwrite
  refine ⟨?_, fun p hp => ?_, fun s hs => getElem?_append_of_some (h.sent s hs)⟩
  · rw [h.sendNext, length_append, length_singleton]
  · change p ∈ (e.conn.sendWindow ++ [_]).map _ at hp
    rw [map_append, mem_append] at hp
    rcases hp with hp | hp
    · exact getElem?_append_of_some (h.window p hp)
    · rw [mem_singleton.mp hp, h.sendNext]
      exact getElem?_concat_length

theorem Sends.stepped (h : Sends e) (hstep : e.Stepped ev e') : Sends e' := by
  cases hstep with
  | rests hrests => exact h.rests hrests
  | accepts hwrite writes => exact h.accepts hwrite writes
  | @handles s now hconv hstate =>
    have hsheds := (e.conn.frame_lastIncoming now (P := fun _ => False)).toSheds.trans
      (Conn.sheds_inputData now _ s)
    refine ⟨hsheds.sendNext.trans h.sendNext, fun p hp => ?_, h.sent⟩
    exact h.window p (hsheds.kept.subset hp)

theorem Segment.Reports.mono {seg : Segment} (h : seg.Reports c)
    (hnext : c.recvNext ≤ c'.recvNext) (hheld : ∀ i, c.Held i → c'.Held i) : seg.Reports c' := by
  cases seg with
  | data s => trivial
  | ack s => exact ⟨h.1.trans hnext, fun n hn => hheld n (h.2 n hn)⟩
  | cmdOnly s => exact Nat.le_trans h hnext

theorem Receives.rests (h : Receives accepted w e) (hrests : Rests P e e') :
    Receives accepted w e' := by
  have hheld : ∀ i, e.conn.Held i → e'.conn.Held i := by
    intro i hi
    rw [Conn.Held, hrests.recvNext, hrests.recvCache]
    exact hi
  obtain ⟨segs, hsent, hfrom⟩ := hrests.sent
  refine ⟨by rw [hrests.cfg]; exact h.window, ⟨?_, ?_, ?_⟩, fun n hn => ?_, fun seg hseg => ?_⟩
  · rw [hrests.recvNext]
    exact h.waits.recvNext
  · have happended := hrests.appended
    rw [Endpoint.appended, Endpoint.appended, h.waits.readBuf] at happended
    rw [happended, hrests.recvNext]
  · rw [hrests.recvNext, hrests.recvCache]
    exact h.waits.cache
  · exact hheld n (h.acks n (hrests.acks.subset hn))
  · rw [hsent] at hseg
    rcases mem_append.mp hseg with hseg | hseg
    · exact (h.sent seg hseg).mono hrests.recvNext.ge hheld
    · have hnew := hfrom seg hseg
      cases seg with
      | data s => trivial
      | ack s =>
        exact ⟨(hnew.1.trans hrests.recvNext.symm).le, fun n hn => hheld n (h.acks n (hnew.2 n hn))⟩
      | cmdOnly s => exact (Eq.trans hnew hrests.recvNext.symm).le

theorem Receives.handled (h : Receives accepted w e) {s : DataSegment}
    (hhandles : Conn.Handles accepted w e.returned s e.conn conn) :
    Receives accepted w { e with conn } := by
  refine ⟨by rw [hhandles.cfg]; exact h.window, hhandles.waits, ?_, fun seg hseg => ?_⟩
  · obtain ⟨kept, added, heq, hkept, hadded⟩ := hhandles.acks
    rw [heq]
    refine forall_mem_append.mpr ⟨fun n hn => ?_, fun n hn => (hadded n hn).2⟩
    exact hhandles.held n (h.acks n (hkept.subset hn))
  · exact (h.sent seg hseg).mono hhandles.recvNext hhandles.held

theorem Receives.append (h : Receives accepted w e) (payload : Str) :
    Receives (accepted ++ [payload]) w e :=
  ⟨h.window, h.waits.append payload, h.acks, h.sent⟩

/-- A number that is newly in `ackList` belongs to a segment less than 2^31 numbers away that was
delivered or is in the cache. -/
def AcksHeld (e e' : Endpoint) : Prop :=
  ∃ kept added, e'.conn.acks = kept ++ added ∧ kept.Sublist e.conn.acks ∧
    ∀ n ∈ added, Close n e.conn.recvNext ∧ e'.conn.Held n

theorem Receives.stepped (hw : 0 < w ∧ w ≤ 2 ^ 31 + 1) (h : Receives accepted w e)
    (hstep : e.Stepped ev e')
    (hdata : ∀ s now, ev = .receive (.data s) now →
      accepted[s.number]? = some s.payload ∧ Close s.number e.conn.recvNext) :
    Receives accepted w e' ∧ AcksHeld e e' := by
  cases hstep with
  | rests hrests =>
    exact ⟨h.rests hrests, e'.conn.acks, [], (append_nil _).symm, hrests.acks,
      nofun⟩
  | accepts hwrite writes =>
    obtain ⟨-, rfl⟩ := Conn.write_accepted hwrite
    refine ⟨⟨h.window, { h.waits with }, h.acks, h.sent⟩, ?_⟩
    exact ⟨e.conn.acks, [], (append_nil _).symm, .refl _,
      nofun⟩
  | @handles s now hconv hstate =>
    obtain ⟨hpayload, hclose⟩ := hdata s now rfl
    have hwaits : Conn.Waits accepted w e.returned { e.conn with lastIncoming := now } :=
      { h.waits with }
    have hhandles := hwaits.inputData hw h.window ⟨rfl, hpayload⟩ hclose now
    have hhandles' : Conn.Handles accepted w e.returned s e.conn
        ({ e.conn with lastIncoming := now }.inputData now s) :=
      { hhandles with }
    obtain ⟨kept, added, heq, hkept, hadded⟩ := hhandles.acks
    refine ⟨h.handled hhandles', kept, added, heq, hkept, fun n hn => ?_⟩
    exact ⟨(hadded n hn).1 ▸ hclose, (hadded n hn).2⟩

/-! ### Runs -/

namespace Link

structure Flows (w : Nat) (x : Side) (l : Link) : Prop where
  sends : Sends (l x.peer)
  receives : Receives (l x.peer).accepted w (l x)

def Safe (x : Side) (l : Link) : Prop := (l x).appended <+: (l x.peer).accepted.flatten

def AcksHeld (x : Side) (l : Link) (a : Side × Event) : Prop :=
  ∀ l', l.step a = .ok l' → Mkcp.AcksHeld (l x) (l' x)

variable {x : Side} {l l' : Link} {a : Side × Event}

theorem Flows.safe (h : Flows w x l) : Safe x l := by
  rw [Safe, Endpoint.appended, h.receives.waits.readBuf]
  have hsplit := congrArg flatten (take_append_drop (l x).conn.recvNext (l x.peer).accepted)
  rw [flatten_append] at hsplit
  exact ⟨_, hsplit⟩

theorem Flows.step (hw : 0 < w ∧ w ≤ 2 ^ 31 + 1) (h : Flows w x l) (hcarried : l.Carried a)
    (hstep : l.step a = .ok l') : Flows w x l' ∧ Mkcp.AcksHeld (l x) (l' x) := by
  obtain ⟨y, ev⟩ := a
  cases hstep
  have hstepped := (l y).stepped ev
  by_cases hyx : y = x
  · subst hyx
    have hdata : ∀ s now, ev = .receive (.data s) now →
        (l y.peer).accepted[s.number]? = some s.payload ∧ Close s.number (l y).conn.recvNext := by
      rintro s now rfl
      exact ⟨h.sends.sent s hcarried.1, hcarried.2 s rfl⟩
    obtain ⟨hreceives, hacks⟩ := h.receives.stepped hw hstepped hdata
    refine ⟨⟨?_, ?_⟩, ?_⟩
    · rw [update_of_ne y.peer_ne]
      exact h.sends
    · rw [update_self, update_of_ne y.peer_ne]
      exact hreceives
    · rw [update_self]
      exact hacks
  · have hy : y = x.peer := by cases x <;> cases y <;> first | rfl | exact absurd rfl hyx
    subst hy
    refine ⟨⟨?_, ?_⟩, ?_⟩
    · rw [update_self]
      exact h.sends.stepped hstepped
    · rw [update_self, update_of_ne x.peer_ne.symm]
      generalize (l x.peer).step ev = e' at hstepped
      cases hstepped with
      | rests hrests =>
        rw [hrests.accepted]
        exact h.receives
      | accepts hwrite writes => exact h.receives.append _
      | handles hconv hstate => exact h.receives
    · rw [update_of_ne x.peer_ne.symm]
      exact ⟨(l x).conn.acks, [], (append_nil _).symm, .refl _,
        nofun⟩

theorem Opened.flows {cfg : Side → Config} (h : Opened cfg l) (x : Side) :
    Flows (cfg x).receivingInFlightSize.toNat x l := by
  have hconn : ∀ y, (l y).conn.cfg = cfg y ∧ (l y).conn.sendNext = 0 ∧ (l y).conn.sendWindow = [] ∧
      (l y).conn.recvNext = 0 ∧ (l y).conn.readBuf = [] ∧ (l y).conn.recvCache = ∅ ∧
      (l y).conn.ackList = [] := by
    intro y
    obtain ⟨conv, overhead, heq⟩ := h.conn y
    unfold newConn at heq
    split_ifs at heq
    rw [← Option.some.inj heq]
    exact ⟨rfl, rfl, rfl, rfl, rfl, rfl, rfl⟩
  obtain ⟨-, hpaccepted, -, hpsent⟩ := h.fresh x.peer
  obtain ⟨-, -, hreturned, hsent⟩ := h.fresh x
  obtain ⟨-, hsendNext, hwindow, -, -, -, -⟩ := hconn x.peer
  obtain ⟨hcfg, -, -, hrecvNext, hreadBuf, hcache, hacks⟩ := hconn x
  refine ⟨⟨?_, ?_, ?_⟩, ⟨by rw [hcfg], ⟨?_, ?_, ?_⟩, ?_, ?_⟩⟩
  · rw [hsendNext, hpaccepted]
    rfl
  · intro p hp
    rw [Conn.window, hwindow] at hp
    cases hp
  · intro s hs
    rw [hpsent] at hs
    cases hs
  · rw [hrecvNext]
    omega
  · rw [hreturned, hreadBuf, hrecvNext]
    rfl
  · rw [hcache]
    exact ahead_empty
  · intro n hn
    rw [Conn.acks, hacks] at hn
    cases hn
  · intro seg hseg
    rw [hsent] at hseg
    cases hseg

end Link

end Mihomo.Mkcp
