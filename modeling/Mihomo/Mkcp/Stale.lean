import Mihomo.Mkcp.Stream

/-!
# A receive window of more than half of the numbers

With `MTU` 1 and a `TTI` above 500 the receive window can exceed 2^31 + 1 numbers. A copy of a segment
that was delivered 2^31 - 1 numbers ago then passes the window test of `Input` and is appended again
when the numbers have come round.
-/

namespace Mihomo.Mkcp
open Go Lib List Function AList Nat

/-! ### A connection that exchanges one segment after the other -/

namespace Conn

variable {c : Conn}

structure Calm (c : Conn) : Prop where
  state : c.state = .active
  lastIncoming : c.lastIncoming = 0

section
variable (h : c.Calm)
include h

theorem Calm.flushAcks : (c.flushAcksLocked 0).1.Calm := by
  unfold flushAcksLocked
  split
  · exact h
  · dsimp only
    split <;> exact { h with }

theorem Calm.flushSend : (c.flushSendLocked 0).1.Calm := by
  unfold flushSendLocked onPacketLossLocked
  split
  · split <;> exact { h with }
  · dsimp only
    split
    · split <;> exact { h with }
    · exact { h with }

theorem Calm.setStateWhen {p : Bool} (hp : p = true → c.state ≠ .active)
    (state : ConnState) : c.setStateWhen 0 p state = c := by
  unfold Conn.setStateWhen
  rw [if_neg fun ht => hp ht h.state]

theorem Calm.flushState : c.flushState 0 = c := by
  have hidle :
      c.setStateWhen 0 (decide (c.state = .active ∧ 0 - c.lastIncoming ≥ 30000)) .readyToClose = c := by
    unfold Conn.setStateWhen
    rw [if_neg]
    rw [h.lastIncoming, decide_eq_true_eq]
    exact fun hlate => absurd hlate.2 (by decide)
  unfold Conn.flushState
  rw [hidle]
  refine h.setStateWhen (fun hready hactive => ?_) _
  rw [decide_eq_true_eq, hactive] at hready
  exact ConnState.noConfusion hready.1

theorem Calm.flush :
    (c.flush 0).1.Calm ∧ (∀ seg ∈ (c.flushAcksLocked 0).2, seg ∈ (c.flush 0).2) ∧
      ∀ seg ∈ ((c.flushAcksLocked 0).1.flushSendLocked 0).2, seg ∈ (c.flush 0).2 := by
  have hactive : ∀ s, s ≠ .active → c.state ≠ s := fun s hs heq => hs (heq ▸ h.state)
  have hnot : ∀ s (q : Prop) [Decidable q], s ≠ .active →
      decide (c.state = s ∧ q) = true → c.state ≠ .active := by
    intro s q _ hs hp
    exact absurd (of_decide_eq_true hp).1 (hactive s hs)
  unfold Conn.flush
  rw [if_neg (hactive _ (by decide)), h.flushState]
  rw [if_neg (hactive _ (by decide))]
  unfold flushOpen
  dsimp only
  rw [h.setStateWhen (hnot _ _ (by decide)), h.setStateWhen (hnot _ _ (by decide))]
  have hcalm := h.flushAcks.flushSend
  split_ifs
  · refine ⟨{ hcalm with }, fun seg hseg => ?_, fun seg hseg => ?_⟩
    · exact mem_append_left _ (mem_append_left _ hseg)
    · exact mem_append_left _ (mem_append_right _ hseg)
  · exact ⟨hcalm, fun seg hseg => mem_append_left _ hseg, fun seg hseg =>
      mem_append_right _ hseg⟩

theorem Calm.sends {seg : DataSegment} (hwindow : c.sendWindow = [seg])
    (hdue : seg.timeout = 0) :
    ∃ s, .data s ∈ (c.flush 0).2 ∧ s.number = seg.number ∧ s.payload = seg.payload ∧ s.conv = c.conv ∧
      s.option = 0 := by
  have hacks : ∃ ackList ackDirty, (c.flushAcksLocked 0).1 = { c with ackList, ackDirty } := by
    unfold flushAcksLocked
    split
    · exact ⟨_, _, rfl⟩
    · dsimp only
      split <;> exact ⟨_, _, rfl⟩
  obtain ⟨ackList, ackDirty, heq⟩ := hacks
  have hoption : closeOption { c with ackList, ackDirty } = 0 := if_neg (by rw [h.state]; decide)
  have hsend : ∃ s, .data s ∈ ((c.flushAcksLocked 0).1.flushSendLocked 0).2 ∧ s.number = seg.number ∧
      s.payload = seg.payload ∧ s.conv = c.conv ∧ s.option = 0 := by
    rw [heq]
    unfold flushSendLocked
    rw [if_neg (by rw [hwindow]; exact cons_ne_nil _ _), hwindow]
    rw [flushWindow, if_neg (by rw [hdue]; decide)]
    dsimp only
    split <;>
    · refine ⟨_, mem_map_of_mem mem_cons_self, rfl, rfl, rfl, hoption⟩
  obtain ⟨s, hs, hrest⟩ := hsend
  exact ⟨s, h.flush.2.2 _ hs, hrest⟩

end

def header (a : AckSegment) : UInt16 × SegmentOption × Nat := (a.conv, a.option, a.receivingNext)

/-- The loop of `flushAcksLocked` works on acknowledgements of the connection, and has something to
send as soon as an item was due. -/
structure AckFlush.Due (c : Conn) (due : Bool) (f : AckFlush) : Prop where
  header : ∀ a ∈ f.ack :: f.segments, header a = header c.newAckSegmentLocked
  due : due = true → f.segments ≠ [] ∨ f.ack.numberList ≠ []

variable {f : AckFlush} {due : Bool} {s : DataSegment}

theorem AckFlush.Due.flushAck (h : f.Due c due) (item : AckItem) :
    (c.flushAck 0 f item).Due c (due || item.nextFlush == 0) := by
  unfold Conn.flushAck
  split
  case isTrue hlate =>
    refine ⟨h.header, fun hdue => h.due ?_⟩
    rw [beq_false_of_ne (UInt32.ne_of_lt hlate).symm, Bool.or_false] at hdue
    exact hdue
  case isFalse =>
    dsimp only
    obtain ⟨hack, hsegments⟩ := forall_mem_cons.mp h.header
    split
    · refine ⟨forall_mem_cons.mpr ⟨rfl, forall_mem_append.mpr ⟨hsegments, ?_⟩⟩, fun _ =>
        .inl (append_ne_nil_of_right_ne_nil _ (cons_ne_nil _ _))⟩
      exact forall_mem_singleton.mpr hack
    · exact ⟨forall_mem_cons.mpr ⟨hack, hsegments⟩, fun _ =>
        .inr (append_ne_nil_of_right_ne_nil _ (cons_ne_nil _ _))⟩

theorem AckFlush.Due.foldl (items : List AckItem) (h : f.Due c due)
    (hitem : due = true ∨ ∃ item ∈ items, item.nextFlush = 0) :
    (items.foldl (c.flushAck 0) f).Due c true := by
  induction items generalizing due f with
  | nil =>
    rcases hitem with rfl | ⟨item, hitem, -⟩
    · exact h
    · cases hitem
  | cons item items ih =>
    refine ih (h.flushAck item) ?_
    rcases hitem with rfl | ⟨i, hi, hzero⟩
    · exact .inl (Bool.true_or _)
    · rcases mem_cons.mp hi with rfl | hi
      · exact .inl (by rw [hzero]; exact Bool.or_true _)
      · exact .inr ⟨i, hi, hzero⟩

theorem Calm.acks (h : c.Calm) {item : AckItem} (hitem : item ∈ c.ackList) (hdue : item.nextFlush = 0) :
    ∃ a, .ack a ∈ (c.flush 0).2 ∧ a.conv = c.conv ∧ a.option = 0 ∧ a.receivingNext = c.recvNext := by
  have hstart : AckFlush.Due c false ⟨[], [], c.newAckSegmentLocked, c.ackDirty, []⟩ :=
    ⟨fun a ha => by rw [mem_singleton.mp ha], Bool.noConfusion⟩
  have hend := hstart.foldl c.ackList (.inr ⟨item, hitem, hdue⟩)
  have hack : ∃ a, .ack a ∈ (c.flushAcksLocked 0).2 ∧ header a = header c.newAckSegmentLocked := by
    unfold flushAcksLocked
    rw [if_neg (ne_nil_of_mem hitem)]
    dsimp only
    generalize c.ackList.foldl (c.flushAck 0) _ = f at hend ⊢
    split
    · exact ⟨_, mem_map_of_mem (mem_append_right _ (mem_singleton.mpr rfl)),
        hend.header f.ack mem_cons_self⟩
    case isFalse hnone =>
      have hsegments := (hend.due rfl).resolve_right fun hne => hnone (.inr hne)
      obtain ⟨a, ha⟩ := exists_mem_of_ne_nil _ hsegments
      exact ⟨a, mem_map_of_mem ha, hend.header a (mem_cons_of_mem _ ha)⟩
  obtain ⟨a, ha, hheader⟩ := hack
  simp only [header, Prod.mk.injEq] at hheader
  refine ⟨a, h.flush.2.1 _ ha, hheader.1, ?_, hheader.2.2⟩
  rw [hheader.2.1, newAckSegmentLocked, closeOption, if_neg (by rw [h.state]; decide)]

theorem Calm.input (h : c.Calm) (seg : Segment) (hconv : seg.conversation = c.conv) :
    c.input 0 [seg] = c.inputSegment 0 seg := by
  have hheard : { c with lastIncoming := 0 } = c := by rw [← h.lastIncoming]
  unfold Conn.input
  rw [if_neg (cons_ne_nil _ _), if_neg (by rw [h.state]; decide), hheard, inputSegments,
    if_neg (not_not.mpr hconv), inputSegments]

theorem handleOptionLocked_zero (c : Conn) (now : UInt32) : c.handleOptionLocked now 0 = c :=
  if_neg (by decide)

theorem Calm.inputData (h : c.Calm) (hconv : s.conv = c.conv) (hoption : s.option = 0)
    (hwindow : serial s.number - serial c.recvNext < c.cfg.receivingInFlightSize)
    (hnone : c.recvCache.lookup (serial s.number) = none) :
    ∃ ackList, { number := s.number, timestamp := s.timestamp, nextFlush := 0 } ∈ ackList ∧
      c.input 0 [.data s] = deliverLocked { c with
        ackList
        ackDirty := true
        recvCache := c.recvCache.insert (serial s.number) s } := by
  rw [h.input (.data s) hconv, inputSegment, Conn.inputData, hoption, handleOptionLocked_zero]
  unfold processSendingNextLocked
  rw [if_pos hwindow, hnone]
  exact ⟨_, mem_append_right _ (mem_singleton.mpr rfl), rfl⟩

theorem processAcks_of_nil (hnil : c.sendWindow = []) (numbers : List Nat) (maxack : UInt32) :
    (processAcks numbers c maxack false).1 = c ∧ (processAcks numbers c maxack false).2.2 = false := by
  have hack : ∀ number, c.processAckLocked number = (c, false) := by
    intro number
    unfold processAckLocked
    rw [hnil]
    simp
  induction numbers generalizing maxack with
  | nil => exact ⟨rfl, rfl⟩
  | cons number rest ih =>
    rw [processAcks, hack]
    split_ifs <;> exact ih _

theorem Calm.inputAck (h : c.Calm) {a : AckSegment} (hconv : a.conv = c.conv) (hoption : a.option = 0)
    (hall : ∀ seg ∈ c.sendWindow, serial seg.number < serial a.receivingNext) :
    (c.input 0 [.ack a]).Calm ∧ (c.input 0 [.ack a]).sendWindow = [] ∧
      (c.input 0 [.ack a]).sendNext = c.sendNext ∧ (c.input 0 [.ack a]).inbound = c.inbound := by
  have hnil : (c.sendWindow.filter fun seg => ¬ serial seg.number < serial a.receivingNext) = [] := by
    refine filter_eq_nil_iff.mpr fun seg hseg => ?_
    rw [decide_eq_true_eq]
    exact not_not.mpr (hall seg hseg)
  rw [h.input (.ack a) hconv, inputSegment, Conn.inputAck, hoption, handleOptionLocked_zero]
  unfold processReceivingNextLocked findFirstUnackedLocked
  dsimp only
  rw [hnil]
  obtain ⟨hsame, hremoved⟩ := processAcks_of_nil (c := { c with
    remoteRecvWin := max c.remoteRecvWin a.receivingWindow
    sendWindow := []
    firstUnacked := c.sendNext
    firstUnackedWasUpdated := c.firstUnackedWasUpdated || serial c.firstUnacked != serial c.sendNext })
    rfl a.numberList 0
  rw [hsame, hremoved]
  exact ⟨{ h with }, rfl, rfl, rfl⟩

theorem Calm.inputNext (h : c.Calm) (hconv : s.conv = c.conv) (hoption : s.option = 0)
    (hnumber : s.number = c.recvNext) (hw : 0 < c.cfg.receivingInFlightSize)
    (hnone : c.recvCache.lookup (serial c.recvNext) = none) :
    ∃ ackList recvCache, { number := s.number, timestamp := s.timestamp, nextFlush := 0 } ∈ ackList ∧
      (∀ key, recvCache.lookup key = c.recvCache.lookup key) ∧
      c.input 0 [.data s] = deliverLocked { c with
        ackList, recvCache
        ackDirty := true
        recvNext := c.recvNext + 1
        readBuf := c.readBuf ++ s.payload } := by
  have hwindow : serial s.number - serial c.recvNext < c.cfg.receivingInFlightSize := by
    rw [hnumber, UInt32.sub_self]
    exact hw
  obtain ⟨ackList, hitem, heq⟩ := h.inputData hconv hoption hwindow (hnumber ▸ hnone)
  have hlookup : (c.recvCache.insert (serial s.number) s).lookup (serial c.recvNext) = some s := by
    rw [← hnumber]
    exact lookup_insert _
  refine ⟨ackList, (c.recvCache.insert (serial s.number) s).erase (serial c.recvNext), hitem, ?_, ?_⟩
  · intro key
    by_cases hkey : key = serial c.recvNext
    · rw [hkey, lookup_erase, hnone]
    · rw [lookup_erase_ne hkey, lookup_insert_ne (hnumber ▸ hkey)]
  · rw [heq]
    exact deliverLocked_of_some hlookup

end Conn

/-! ### Rounds -/

namespace Link

variable {l : Link} {x : Side}

theorem reaches_local (x : Side) (evs : List Event) (h : ∀ ev ∈ evs, ∀ seg now, ev ≠ .receive seg now) :
    Reaches step Carried l (update l x (evs.foldl Endpoint.step (l x))) := by
  induction evs generalizing l with
  | nil =>
    rw [foldl_nil, update_eq_self]
    exact .refl l
  | cons ev evs ih =>
    rw [forall_mem_cons] at h
    refine .cons (a := (x, ev)) rfl ?_ ?_
    · cases ev <;> first | trivial | exact absurd rfl (h.1 _ _)
    · have hrest := ih (l := update l x ((l x).step ev)) h.2
      rw [update_self, update_idem] at hrest
      exact hrest

theorem reaches_receive {seg : Segment} (hsent : seg ∈ (l x.peer).sent)
    (hclose : ∀ s, seg = .data s → Close s.number (l x).conn.recvNext) :
    Reaches step Carried l (update l x ((l x).step (.receive seg 0))) :=
  .cons (a := (x, .receive seg 0)) rfl ⟨hsent, hclose⟩ (.refl _)

structure Idle (cfg : Config) (x : Side) (k : Nat) (stale : Bool) (l : Link) : Prop where
  cfg : (l x).conn.cfg = cfg
  sender : (l x.peer).conn.Calm
  receiver : (l x).conn.Calm
  conv : (l x.peer).conn.conv = (l x).conn.conv
  mss : 0 < (l x.peer).conn.mss
  writes : (l x.peer).writes = []
  sendWindow : (l x.peer).conn.sendWindow = []
  sendNext : (l x.peer).conn.sendNext = k
  accepted : (l x.peer).accepted.flatten.length = k
  recvNext : (l x).conn.recvNext = k
  appended : (l x).appended.length = k
  cache : ∀ key q, (l x).conn.recvCache.lookup key = some q → stale = true ∧ key = 0
  stale : stale = true → ∃ q, (l x).conn.recvCache.lookup 0 = some q ∧ q.payload.length = 1
  first : 0 < k → ∃ s, .data s ∈ (l x.peer).sent ∧ s.number = 0 ∧ s.payload.length = 1 ∧
    s.conv = (l x).conn.conv ∧ s.option = 0

structure Sent (x : Side) (k : Nat) (s : DataSegment) (l l' : Link) : Prop where
  other : l' x = l x
  sender : (l' x.peer).conn.Calm
  conv : (l' x.peer).conn.conv = (l x.peer).conn.conv
  mss : (l' x.peer).conn.mss = (l x.peer).conn.mss
  writes : (l' x.peer).writes = []
  window : ∀ seg ∈ (l' x.peer).conn.sendWindow, seg.number = k
  sendNext : (l' x.peer).conn.sendNext = k + 1
  accepted : (l' x.peer).accepted.flatten.length = k + 1
  sent : ∀ seg ∈ (l x.peer).sent, seg ∈ (l' x.peer).sent
  segment : .data s ∈ (l' x.peer).sent ∧ s.number = k ∧ s.payload.length = 1 ∧
    s.conv = (l x).conn.conv ∧ s.option = 0

end Link

theorem Endpoint.write_byte {e : Endpoint} (hstate : e.conn.state = .active) (hwrites : e.writes = [])
    (hwindow : e.conn.sendWindow = []) (hmss : 0 < e.conn.mss) :
    (e.step (.write [0])).step (.attempt 0) = { e with
      conn := { e.conn with
        sendNext := e.conn.sendNext + 1
        sendWindow := [{ number := e.conn.sendNext, payload := [0] }] }
      accepted := e.accepted ++ [[0]]
      writes := [] } := by
  have hbyte : (([0] : Str).drop 0).take e.conn.mss = [0] := take_of_length_le hmss
  have hwrite : e.conn.write [0] = .accepted { e.conn with
      sendNext := e.conn.sendNext + 1
      sendWindow := [{ number := e.conn.sendNext, payload := [0] }] } := by
    unfold Conn.write
    rw [if_neg (not_not.mpr hstate), hwindow]
    rfl
  have hall : ¬ min (0 + e.conn.mss) ([0] : Str).length < ([0] : Str).length := by
    rw [length_singleton]
    omega
  rw [step, if_neg (cons_ne_nil _ _), hwrites, step, attempt]
  dsimp only [nil_append, getElem?_cons_zero]
  rw [hbyte, hwrite]
  rw [if_neg hall]
  rfl

namespace Link

variable {l : Link} {cfg : Config} {x : Side} {k : Nat} {stale : Bool}

theorem Idle.sends (h : Idle cfg x k stale l) : ∃ l' s, Reaches step Carried l l' ∧ Sent x k s l l' := by
  have hwrite := Endpoint.write_byte h.sender.state h.writes h.sendWindow h.mss
  have hcalm : Conn.Calm { (l x.peer).conn with
      sendNext := (l x.peer).conn.sendNext + 1
      sendWindow := [{ number := (l x.peer).conn.sendNext, payload := [0] }] } :=
    { h.sender with }
  obtain ⟨hframe, -⟩ := Conn.flush_spec (P := fun _ => False) 0 { (l x.peer).conn with
      sendNext := (l x.peer).conn.sendNext + 1
      sendWindow := [{ number := (l x.peer).conn.sendNext, payload := [0] }] }
  obtain ⟨s, hs, hnumber, hpayload, hconv, hoption⟩ := hcalm.sends rfl rfl
  have hinbound := hframe.inbound
  simp only [Conn.inbound, Prod.mk.injEq] at hinbound
  refine ⟨_, s, reaches_local x.peer [.write [0], .attempt 0, .flush 0] ?_, ?_⟩
  · intro ev hev seg now heq
    subst heq
    simp at hev
  · rw [foldl_cons, foldl_cons, hwrite]
    refine ⟨update_of_ne x.peer_ne.symm .., ?_, ?_, ?_, ?_, ?_, ?_, ?_, ?_, ?_⟩
    all_goals rw [update_self]
    · exact hcalm.flush.1
    · exact hinbound.2.1
    · exact hinbound.2.2.1
    · rfl
    · intro seg hseg
      have hmem := hframe.kept.subset (mem_map_of_mem hseg)
      have hseg' := mem_singleton.mp hmem
      exact (congrArg Prod.fst hseg').trans h.sendNext
    · exact hframe.sendNext.trans (congrArg (· + 1) h.sendNext)
    · change ((l x.peer).accepted ++ [[0]]).flatten.length = k + 1
      rw [flatten_append, length_append, h.accepted]
      rfl
    · exact fun seg hseg => mem_append_left _ hseg
    · refine ⟨mem_append_right _ hs, hnumber.trans h.sendNext, by rw [hpayload]; rfl, ?_, hoption⟩
      exact hconv.trans h.conv

theorem serial_ne_zero {k : Nat} (hpos : 0 < k) (hlt : k < 2 ^ 32) : serial k ≠ 0 := by
  intro heq
  have hmod := congrArg UInt32.toNat heq
  rw [UInt32.toNat_ofNat', mod_eq_of_lt hlt] at hmod
  exact hpos.ne' hmod

theorem Idle.lookup_eq_none (h : Idle cfg x k stale l) {key : UInt32} (hkey : stale = true → key ≠ 0) :
    (l x).conn.recvCache.lookup key = none := by
  cases hq : (l x).conn.recvCache.lookup key with
  | none => rfl
  | some q =>
    obtain ⟨hstale, hzero⟩ := h.cache key q hq
    exact absurd hzero (hkey hstale)

variable {s : DataSegment}

theorem Idle.receives (h : Idle cfg x k stale l) {l' : Link} (hsent : Sent x k s l l')
    (hw : 0 < cfg.receivingInFlightSize) (hk : stale = true → 0 < k ∧ k < 2 ^ 32) :
    ∃ ackList recvCache, { number := k, timestamp := s.timestamp, nextFlush := 0 } ∈ ackList ∧
      (∀ key, recvCache.lookup key = (l x).conn.recvCache.lookup key) ∧
      Reaches step Carried l' (update l' x { l x with
        conn := Conn.deliverLocked { (l x).conn with
          ackList, recvCache
          ackDirty := true
          recvNext := k + 1
          readBuf := (l x).conn.readBuf ++ s.payload } }) := by
  obtain ⟨hmem, hnumber, -, hconv, hoption⟩ := hsent.segment
  have hnone : (l x).conn.recvCache.lookup (serial (l x).conn.recvNext) = none := by
    rw [h.recvNext]
    exact h.lookup_eq_none fun hstale => serial_ne_zero (hk hstale).1 (hk hstale).2
  obtain ⟨ackList, recvCache, hitem, hlookup, heq⟩ := h.receiver.inputNext hconv hoption
    (hnumber.trans h.recvNext.symm) (by rw [h.cfg]; exact hw) hnone
  rw [hnumber] at hitem
  refine ⟨ackList, recvCache, hitem, hlookup, ?_⟩
  have hreach := reaches_receive hmem fun s' hs' => by
    cases hs'
    rw [hsent.other, h.recvNext]
    exact ⟨by omega, by omega⟩
  rw [hsent.other, Endpoint.step, heq, h.recvNext] at hreach
  exact hreach

structure Received (x : Side) (k : Nat) (l l₁ l' : Link) : Prop where
  other : l' x.peer = l₁ x.peer
  receiver : (l' x).conn.Calm
  cfg : (l' x).conn.cfg = (l x).conn.cfg
  conv : (l' x).conn.conv = (l x).conn.conv
  recvNext : (l' x).conn.recvNext = k + 1
  appended : (l' x).appended.length = k + 1
  cache : ∀ key, (l' x).conn.recvCache.lookup key = (l x).conn.recvCache.lookup key
  ack : ∃ a, .ack a ∈ (l' x).sent ∧ a.conv = (l x).conn.conv ∧ a.option = 0 ∧ a.receivingNext = k + 1

theorem Idle.acknowledges (h : Idle cfg x k stale l) {l₁ : Link}
    (hsent : Sent x k s l l₁) (hw : 0 < cfg.receivingInFlightSize) (hk : k + 1 < 2 ^ 32)
    (hpos : stale = true → 0 < k) : ∃ l', Reaches step Carried l₁ l' ∧ Received x k l l₁ l' := by
  obtain ⟨-, hnumber, hpayload, hconv, hoption⟩ := hsent.segment
  obtain ⟨ackList, recvCache, hitem, hlookup, hreach⟩ :=
    h.receives hsent hw fun hstale => ⟨hpos hstale, by omega⟩
  have hnone : recvCache.lookup (serial (k + 1)) = none := by
    rw [hlookup]
    exact h.lookup_eq_none fun _ => serial_ne_zero (succ_pos k) hk
  rw [Conn.deliverLocked_of_none hnone] at hreach
  have hcalm : Conn.Calm { (l x).conn with
      ackList, recvCache
      ackDirty := true
      recvNext := k + 1
      readBuf := (l x).conn.readBuf ++ s.payload } := { h.receiver with }
  obtain ⟨a, hack, haconv, haoption, hanext⟩ := hcalm.acks hitem rfl
  obtain ⟨hframe, -⟩ := Conn.flush_spec (P := fun _ => False) 0 { (l x).conn with
      ackList, recvCache
      ackDirty := true
      recvNext := k + 1
      readBuf := (l x).conn.readBuf ++ s.payload }
  have hinbound := hframe.inbound
  simp only [Conn.inbound, Prod.mk.injEq] at hinbound
  obtain ⟨hcfg', hconv', -, hreadBuf', hcache', hnext'⟩ := hinbound
  have hflush := reaches_local (l := update l₁ x { l x with
    conn := { (l x).conn with
      ackList, recvCache
      ackDirty := true
      recvNext := k + 1
      readBuf := (l x).conn.readBuf ++ s.payload } }) x [.flush 0] (by
        intro ev hev seg now heq
        rw [mem_singleton.mp hev] at heq
        cases heq)
  refine ⟨_, hreach.trans hflush, ?_⟩
  rw [update_self, update_idem]
  refine ⟨update_of_ne x.peer_ne .., ?_, ?_, ?_, ?_, ?_, ?_, ?_⟩
  all_goals rw [update_self]
  · exact hcalm.flush.1
  · exact hcfg'
  · exact hconv'
  · exact hnext'
  · have hlength : ((l x).returned ++ ((l x).conn.readBuf ++ s.payload)).length = k + 1 := by
      rw [← append_assoc, length_append, hpayload]
      exact congrArg (· + 1) h.appended
    exact (congrArg (fun b => ((l x).returned ++ b).length) hreadBuf').trans hlength
  · intro key
    rw [← hlookup key]
    exact congrArg (AList.lookup key) hcache'
  · exact ⟨a, mem_append_right _ hack, haconv, haoption, hanext⟩

theorem Idle.round (h : Idle cfg x k stale l) (hw : 0 < cfg.receivingInFlightSize) (hk : k + 1 < 2 ^ 32)
    (hpos : stale = true → 0 < k) : ∃ l', Reaches step Carried l l' ∧ Idle cfg x (k + 1) stale l' := by
  obtain ⟨l₁, s, hreach₁, hsent⟩ := h.sends
  obtain ⟨l₂, hreach₂, hreceived⟩ := h.acknowledges hsent hw hk hpos
  obtain ⟨a, hack, haconv, haoption, hanext⟩ := hreceived.ack
  have hreach₃ := reaches_receive (by rw [x.peer_peer]; exact hack)
    (fun s hs => Segment.noConfusion hs)
  rw [hreceived.other] at hreach₃
  have hall : ∀ seg ∈ (l₁ x.peer).conn.sendWindow, serial seg.number < serial a.receivingNext := by
    intro seg hseg
    rw [hsent.window seg hseg, UInt32.lt_iff_toNat_lt, UInt32.toNat_ofNat', UInt32.toNat_ofNat']
    omega
  obtain ⟨hcalm, hwindow, hnext, hinbound⟩ := hsent.sender.inputAck
    (haconv.trans (h.conv.symm.trans hsent.conv.symm)) haoption hall
  simp only [Conn.inbound, Prod.mk.injEq] at hinbound
  refine ⟨_, hreach₁.trans (hreach₂.trans hreach₃), ?_⟩
  constructor
  all_goals first | rw [update_of_ne x.peer_ne.symm] | skip
  all_goals first | rw [update_self] | skip
  · exact hreceived.cfg.trans h.cfg
  · exact hcalm
  · exact hreceived.receiver
  · exact (hinbound.2.1.trans hsent.conv).trans (h.conv.trans hreceived.conv.symm)
  · exact (hinbound.2.2.1.trans hsent.mss) ▸ h.mss
  · exact hsent.writes
  · exact hwindow
  · exact hnext.trans hsent.sendNext
  · exact hsent.accepted
  · exact hreceived.recvNext
  · exact hreceived.appended
  · intro key q hq
    exact h.cache key q ((hreceived.cache key).symm.trans hq)
  · intro hstale
    obtain ⟨q, hq, hlength⟩ := h.stale hstale
    exact ⟨q, (hreceived.cache 0).trans hq, hlength⟩
  · intro _
    rw [hreceived.conv]
    rcases Nat.eq_zero_or_pos k with rfl | hk
    · exact ⟨s, hsent.segment⟩
    · obtain ⟨s₀, hs₀, hrest⟩ := h.first hk
      exact ⟨s₀, hsent.sent _ hs₀, hrest⟩

theorem Idle.rounds (hw : 0 < cfg.receivingInFlightSize) (n : Nat) (h : Idle cfg x k stale l)
    (hn : k + n < 2 ^ 32) (hpos : stale = true → 0 < k) :
    ∃ l', Reaches step Carried l l' ∧ Idle cfg x (k + n) stale l' := by
  induction n with
  | zero => exact ⟨l, .refl l, h⟩
  | succ n ih =>
    obtain ⟨l₁, hreach, hidle⟩ := ih (by omega)
    obtain ⟨l₂, hreach', hidle'⟩ := hidle.round hw hn fun hstale => Nat.add_pos_left (hpos hstale) n
    exact ⟨l₂, hreach.trans hreach', hidle'⟩

/-! ### The copy of the first segment -/

theorem Idle.caches (h : Idle cfg x (2 ^ 31 - 1) false l)
    (hw : 2 ^ 31 + 1 < cfg.receivingInFlightSize.toNat) :
    ∃ l', Reaches step Carried l l' ∧ Idle cfg x (2 ^ 31 - 1) true l' := by
  have hnone : ∀ key, (l x).conn.recvCache.lookup key = none := fun key => h.lookup_eq_none nofun
  obtain ⟨s, hs, hnumber, hpayload, hconv, hoption⟩ := h.first (by decide)
  have hwindow : serial s.number - serial (l x).conn.recvNext <
      (l x).conn.cfg.receivingInFlightSize := by
    rw [h.cfg, hnumber, h.recvNext]
    exact lt_of_le_of_lt (by decide) hw
  obtain ⟨ackList, -, heq⟩ := h.receiver.inputData hconv hoption hwindow (hnone _)
  have hnext :
      ((l x).conn.recvCache.insert (serial s.number) s).lookup (serial (l x).conn.recvNext) = none := by
    rw [lookup_insert_ne, hnone]
    rw [h.recvNext, hnumber]
    decide
  rw [Conn.deliverLocked_of_none hnext] at heq
  have hreach := reaches_receive hs fun s' hs' => by
    cases hs'
    rw [h.recvNext]
    exact ⟨by omega, by omega⟩
  refine ⟨_, hreach, ?_⟩
  rw [Endpoint.step, heq]
  constructor
  all_goals first | rw [update_of_ne x.peer_ne] | skip
  all_goals first | rw [update_self] | skip
  · exact h.cfg
  · exact h.sender
  · exact { h.receiver with }
  · exact h.conv
  · exact h.mss
  · exact h.writes
  · exact h.sendWindow
  · exact h.sendNext
  · exact h.accepted
  · exact h.recvNext
  · exact h.appended
  · intro key q hq
    refine ⟨rfl, ?_⟩
    by_contra hne
    rw [lookup_insert_ne (by rw [hnumber]; exact hne), hnone] at hq
    cases hq
  · intro _
    refine ⟨s, ?_, hpayload⟩
    rw [hnumber]
    exact lookup_insert _
  · exact h.first

theorem Idle.appends (h : Idle cfg x (2 ^ 32 - 1) true l) (hw : 0 < cfg.receivingInFlightSize) :
    ∃ l', Reaches step Carried l l' ∧ ¬ Safe x l' := by
  obtain ⟨l₁, s, hreach, hsent⟩ := h.sends
  obtain ⟨-, -, hpayload, -, -⟩ := hsent.segment
  obtain ⟨ackList, recvCache, -, hlookup, hreach'⟩ := h.receives hsent hw fun _ => by decide
  obtain ⟨q, hq, hqpayload⟩ := h.stale rfl
  have hsome : recvCache.lookup (serial (2 ^ 32 - 1 + 1)) = some q := (hlookup _).trans hq
  rw [Conn.deliverLocked_of_some hsome, Conn.deliverLocked_of_none] at hreach'
  · refine ⟨_, hreach.trans hreach', fun hsafe => ?_⟩
    have hle := hsafe.length_le
    rw [update_self, update_of_ne x.peer_ne, hsent.accepted] at hle
    have hlength : ((l x).returned ++ ((l x).conn.readBuf ++ s.payload ++ q.payload)).length =
        2 ^ 32 - 1 + 1 + 1 := by
      rw [← append_assoc, ← append_assoc, length_append, length_append, hpayload, hqpayload]
      exact congrArg (· + 1 + 1) h.appended
    exact absurd (hlength.symm.le.trans hle) (by decide)
  · change (recvCache.erase (serial (2 ^ 32 - 1 + 1))).lookup (serial (2 ^ 32 - 1 + 1 + 1)) = none
    rw [lookup_erase_ne (by decide), hlookup]
    exact h.lookup_eq_none fun _ => by decide

theorem Opened.idle {cfg : Side → Config} (h : Opened cfg l) (x : Side) : Idle (cfg x) x 0 false l := by
  have hconn : ∀ y, (l y).conn.cfg = cfg y ∧ (l y).conn.Calm ∧ 0 < (l y).conn.mss ∧
      (l y).conn.sendNext = 0 ∧ (l y).conn.sendWindow = [] ∧
      (l y).conn.recvNext = 0 ∧ (l y).conn.readBuf = [] ∧ (l y).conn.recvCache = ∅ := by
    intro y
    obtain ⟨conv, overhead, heq⟩ := h.conn y
    unfold newConn at heq
    split_ifs at heq
    rw [← Option.some.inj heq]
    exact ⟨rfl, ⟨rfl, rfl⟩, lt_max_of_lt_right (by decide), rfl, rfl, rfl, rfl, rfl⟩
  obtain ⟨hwrites, haccepted, -, -⟩ := h.fresh x.peer
  obtain ⟨-, hsender, hmss, hsendNext, hwindow, -, -, -⟩ := hconn x.peer
  obtain ⟨hcfg, hreceiver, -, -, -, hrecvNext, hreadBuf, hcache⟩ := hconn x
  obtain ⟨-, -, hreturned, -⟩ := h.fresh x
  refine ⟨hcfg, hsender, hreceiver, h.conv .., hmss, hwrites, hwindow, hsendNext, ?_, hrecvNext,
    ?_, ?_, ?_, ?_⟩
  · rw [haccepted]
    rfl
  · rw [Endpoint.appended, hreturned, hreadBuf]
    rfl
  · intro key q hq
    rw [hcache] at hq
    cases hq
  · exact Bool.noConfusion
  · exact fun hpos => absurd hpos (lt_irrefl 0)

theorem Opened.appends_twice {cfg : Side → Config} (h : Opened cfg l) {x : Side}
    (hw : 2 ^ 31 + 1 < (cfg x).receivingInFlightSize.toNat) :
    ∃ l', Reaches step Carried l l' ∧ ¬ Safe x l' := by
  have hpos : 0 < (cfg x).receivingInFlightSize := by
    exact lt_of_le_of_lt (by decide) hw
  obtain ⟨l₁, hreach₁, hidle₁⟩ := (h.idle x).rounds hpos (2 ^ 31 - 1) (by decide) Bool.noConfusion
  obtain ⟨l₂, hreach₂, hidle₂⟩ := Idle.caches (zero_add (2 ^ 31 - 1) ▸ hidle₁) hw
  obtain ⟨l₃, hreach₃, hidle₃⟩ := hidle₂.rounds hpos (2 ^ 31) (by decide) fun _ => by decide
  obtain ⟨l₄, hreach₄, hbad⟩ := Idle.appends hidle₃ hpos
  exact ⟨l₄, hreach₁.trans (hreach₂.trans (hreach₃.trans hreach₄)), hbad⟩

/-! ### Every run -/

/-- The bytes appended to `readBuf` are a first part of the bytes that the peer's `Write` accepted,
and every number put in `ackList` was delivered or is in the cache, in every run, exactly when the
receive window is at most 2^31 + 1 numbers. -/
theorem stream_safe_iff {cfg : Side → Config} (h : Opened cfg l) (x : Side) :
    (∀ as, Along step Carried l as → Always step (Safe x) l as ∧ Along step (AcksHeld x) l as) ↔
      (cfg x).receivingInFlightSize.toNat ≤ 2 ^ 31 + 1 := by
  constructor
  · intro hsafe
    by_contra hw
    obtain ⟨l', ⟨as, has, hexec⟩, hbad⟩ := h.appends_twice (Nat.lt_of_not_le hw)
    exact hbad ((hsafe as has).1.last hexec)
  · intro hw as has
    have hpos := (cfg x).receivingInFlightSize_pos
    refine ⟨always_of_along (fun hflows hok hstep => (Flows.step ⟨hpos, hw⟩ hflows hok hstep).1)
      (fun hflows => hflows.safe) (h.flows x) as has, ?_⟩
    exact along_of_along (fun hflows hok hstep => (Flows.step ⟨hpos, hw⟩ hflows hok hstep).1)
      (fun hflows hok l' hstep => (Flows.step ⟨hpos, hw⟩ hflows hok hstep).2) (h.flows x) as has

theorem stream_safe_default : ∃ l, Opened (fun _ => {}) l ∧ ∀ as, Along step Carried l as →
    Always step (Safe .listener) l as ∧ Along step (AcksHeld .listener) l as := by
  obtain ⟨c, hc⟩ : ∃ c, newConn {} 1 6 = some c := ⟨_, rfl⟩
  exact ⟨fresh c, opened_fresh hc, (stream_safe_iff (opened_fresh hc) .listener).mpr (by decide)⟩

/-- Both sides with `mtu: 1`, `tti: 1000` and `downlink-capacity: 4095`. -/
theorem wide_window_appends_twice :
    ∃ l, Opened (fun _ => { MTU := 1, TTI := 1000, DownlinkCapacity := 4095 }) l ∧
      ∃ as, Along step Carried l as ∧ ¬ Always step (Safe .listener) l as := by
  obtain ⟨c, hc⟩ : ∃ c, newConn { MTU := 1, TTI := 1000, DownlinkCapacity := 4095 } 1 6 = some c :=
    ⟨_, rfl⟩
  obtain ⟨l', ⟨as, has, hexec⟩, hbad⟩ := (opened_fresh hc).appends_twice (x := .listener) (by decide)
  exact ⟨fresh c, opened_fresh hc, as, has, fun hsafe => hbad (hsafe.last hexec)⟩

end Link

end Mihomo.Mkcp
