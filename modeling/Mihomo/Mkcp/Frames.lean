import Mihomo.Lib.Reorder
import Mihomo.Mkcp.Conn

/-!
# What the functions of the connection leave alone

`Sheds` speaks of the sending side, and `Frame` of both. Every function but `write` and the handling
of a data segment keeps a frame; what `flush` sends is made from the connection (`Segment.From`).
-/

namespace Mihomo.Mkcp
open Go List

def ConnState.isOpen : ConnState → Bool
  | .active | .readyToClose => true
  | _ => false

namespace Conn

def acks (c : Conn) : List Nat := c.ackList.map AckItem.number

def window (c : Conn) : List (Nat × Str) := c.sendWindow.map fun seg => (seg.number, seg.payload)

def inbound (c : Conn) : Config × UInt16 × Nat × Str × RecvCache × Nat :=
  (c.cfg, c.conv, c.mss, c.readBuf, c.recvCache, c.recvNext)

/-- No segment was added to the window, and while the connection is open only numbers with `P`
have left it. -/
structure Sheds (P : Nat → Prop) (c c' : Conn) : Prop where
  sendNext : c'.sendNext = c.sendNext
  kept : c'.window.Sublist c.window
  opened : c'.state.isOpen = true → c.state.isOpen = true
  left : c'.state.isOpen = true → ∀ p ∈ c.window, p ∉ c'.window → P p.1

structure Frame (P : Nat → Prop) (c c' : Conn) : Prop extends Sheds P c c' where
  inbound : c'.inbound = c.inbound
  acks : c'.acks.Sublist c.acks

variable {P Q : Nat → Prop} {c c' c'' : Conn}

theorem Sheds.of_window (hnext : c'.sendNext = c.sendNext) (hwindow : c'.window = c.window)
    (hopened : c'.state.isOpen = true → c.state.isOpen = true) : Sheds P c c' :=
  ⟨hnext, hwindow ▸ .refl _, hopened, fun _ _ hp hn => absurd (hwindow ▸ hp) hn⟩

theorem Sheds.trans (h : Sheds P c c') (h' : Sheds P c' c'') : Sheds P c c'' := by
  refine ⟨h'.sendNext.trans h.sendNext, h'.kept.trans h.kept, fun ho => h.opened (h'.opened ho), ?_⟩
  intro ho p hp hn
  by_cases hp' : p ∈ c'.window
  · exact h'.left ho p hp' hn
  · exact h.left (h'.opened ho) p hp hp'

theorem Sheds.imp (h : Sheds P c c') (himp : ∀ i, P i → Q i) : Sheds Q c c' :=
  ⟨h.sendNext, h.kept, h.opened, fun ho p hp hn => himp _ (h.left ho p hp hn)⟩

theorem Frame.of_window (hinbound : c'.inbound = c.inbound) (hacks : c'.acks = c.acks)
    (hnext : c'.sendNext = c.sendNext) (hwindow : c'.window = c.window)
    (hopened : c'.state.isOpen = true → c.state.isOpen = true) : Frame P c c' :=
  ⟨.of_window hnext hwindow hopened, hinbound, hacks ▸ .refl _⟩

theorem Frame.refl (c : Conn) : Frame P c c := .of_window rfl rfl rfl rfl id

theorem Frame.trans (h : Frame P c c') (h' : Frame P c' c'') : Frame P c c'' :=
  ⟨h.toSheds.trans h'.toSheds, h'.inbound.trans h.inbound, h'.acks.trans h.acks⟩

theorem Frame.imp (h : Frame P c c') (himp : ∀ i, P i → Q i) : Frame Q c c' :=
  ⟨h.toSheds.imp himp, h.inbound, h.acks⟩

theorem Frame.recvNext (h : Frame P c c') : c'.recvNext = c.recvNext :=
  congrArg (fun p => p.2.2.2.2.2) h.inbound

/-! ### States -/

variable (now : UInt32)

theorem frame_setStateLocked (c : Conn) {state : ConnState}
    (hopened : state.isOpen = true → c.state.isOpen = true) :
    Frame P c (c.setStateLocked now state) := by
  unfold setStateLocked
  split_ifs
  · exact .refl c
  · cases state with
    | active | readyToClose => exact .of_window rfl rfl rfl rfl hopened
    | peerClosed | terminating | peerTerminating | terminated =>
      exact ⟨⟨rfl, nil_sublist _, Bool.noConfusion, Bool.noConfusion⟩, rfl,
        .refl _⟩

theorem frame_handleOptionLocked (c : Conn) (opt : SegmentOption) :
    Frame P c (c.handleOptionLocked now opt) := by
  unfold handleOptionLocked
  split_ifs
  · cases c.state <;>
      first | exact .refl c | exact c.frame_setStateLocked now Bool.noConfusion
  · exact .refl c

/-! ### Acknowledgements -/

theorem frame_processSendingNextLocked (c : Conn) (next : Nat) :
    Frame P c (c.processSendingNextLocked next) :=
  ⟨.of_window rfl rfl id, rfl, filter_sublist.map _⟩

theorem frame_processReceivingNextLocked (c : Conn) (next : Nat) :
    Frame (fun i => serial i < serial next) c (c.processReceivingNextLocked next) := by
  refine ⟨⟨rfl, filter_sublist.map _, id, fun _ p hp hn => ?_⟩, rfl, .refl _⟩
  obtain ⟨seg, hseg, rfl⟩ := mem_map.mp hp
  by_contra hlt
  refine hn (mem_map.mpr ⟨seg, mem_filter.mpr ⟨hseg, ?_⟩, rfl⟩)
  exact decide_eq_true hlt

theorem frame_processAckLocked (c : Conn) (number : Nat) :
    Frame (fun i => serial i = serial number) c (c.processAckLocked number).1 := by
  unfold processAckLocked
  split
  · exact .refl c
  · split
    · refine ⟨⟨rfl, eraseP_sublist.map _, id, fun _ p hp hn => ?_⟩, rfl, .refl _⟩
      obtain ⟨seg, hseg, rfl⟩ := mem_map.mp hp
      by_contra hne
      refine hn (mem_map.mpr ⟨seg, (mem_eraseP_of_neg ?_).mpr hseg, rfl⟩)
      rw [decide_eq_true_eq]
      exact hne
    · exact .refl c

theorem frame_processAcks (numbers : List Nat) (c : Conn) (maxack : UInt32) (removed : Bool) :
    Frame (fun i => ∃ n ∈ numbers, serial i = serial n) c (processAcks numbers c maxack removed).1 := by
  induction numbers generalizing c maxack removed with
  | nil => exact .refl c
  | cons number rest ih =>
    have hfirst := (c.frame_processAckLocked number).imp
      (Q := fun i => ∃ n ∈ number :: rest, serial i = serial n)
      fun i hi => ⟨number, mem_cons_self, hi⟩
    have hrest := fun m r => (ih (c.processAckLocked number).1 m r).imp
      (Q := fun i => ∃ n ∈ number :: rest, serial i = serial n)
      fun i ⟨n, hn, hi⟩ => ⟨n, mem_cons_of_mem number hn, hi⟩
    rw [processAcks]
    split_ifs <;> exact hfirst.trans (hrest ..)

/-! ### Timers -/

theorem map_hasten (number reduction : UInt32) (segs : List DataSegment) :
    (hasten number reduction segs).map (fun seg => (seg.number, seg.payload)) =
      segs.map fun seg => (seg.number, seg.payload) := by
  induction segs with
  | nil => rfl
  | cons seg rest ih =>
    rw [hasten]
    split_ifs <;> simp only [map_cons, ih]

theorem frame_handleFastAckLocked (c : Conn) (number : UInt32) :
    Frame P c (c.handleFastAckLocked number) := by
  unfold handleFastAckLocked
  split_ifs
  · exact .refl c
  · exact .refl c
  · exact .of_window rfl rfl rfl (map_hasten number (c.rto / 3) c.sendWindow) id

theorem frame_updateRTTLocked (c : Conn) (rtt current : UInt32) :
    Frame P c (c.updateRTTLocked rtt current) := by
  unfold updateRTTLocked
  split_ifs <;> exact .of_window rfl rfl rfl rfl id

theorem frame_updatePeerRTOLocked (c : Conn) (rto current : UInt32) :
    Frame P c (c.updatePeerRTOLocked rto current) := by
  unfold updatePeerRTOLocked
  split_ifs <;> exact .of_window rfl rfl rfl rfl id

/-! ### Segments that acknowledge -/

def Acknowledged (s : AckSegment) (i : Nat) : Prop :=
  serial i < serial s.receivingNext ∨ ∃ n ∈ s.numberList, serial i = serial n

theorem frame_inputAck (c : Conn) (s : AckSegment) : Frame (Acknowledged s) c (c.inputAck now s) := by
  unfold inputAck
  dsimp only
  have hoption := c.frame_handleOptionLocked (P := Acknowledged s) now s.option
  generalize c.handleOptionLocked now s.option = c₁ at hoption ⊢
  have hwindow : Frame (Acknowledged s) c₁
      { c₁ with remoteRecvWin := max c₁.remoteRecvWin s.receivingWindow } :=
    .of_window rfl rfl rfl rfl id
  have hnext := hwindow.trans ((frame_processReceivingNextLocked _ s.receivingNext).imp fun _ => .inl)
  generalize Conn.processReceivingNextLocked _ s.receivingNext = c₂ at hnext ⊢
  have hacks := (frame_processAcks s.numberList c₂ 0 false).imp (Q := Acknowledged s) fun _ => .inr
  have hall := hoption.trans (hnext.trans hacks)
  split_ifs
  · exact (hall.trans (frame_handleFastAckLocked ..)).trans (frame_updateRTTLocked ..)
  · exact hall.trans (frame_handleFastAckLocked ..)
  · exact hall

theorem frame_inputCmdOnly (c : Conn) (s : CmdOnlySegment) :
    Frame (fun i => serial i < serial s.receivingNext) c (c.inputCmdOnly now s) := by
  unfold inputCmdOnly
  have hoption :=
    c.frame_handleOptionLocked (P := fun i => serial i < serial s.receivingNext) now s.option
  generalize c.handleOptionLocked now s.option = c₁ at hoption ⊢
  refine hoption.trans (.trans ?_ ((frame_processReceivingNextLocked ..).trans
    ((frame_processSendingNextLocked ..).trans (frame_updatePeerRTOLocked ..))))
  split_ifs
  · cases c₁.state <;>
      first | exact .refl c₁ | exact c₁.frame_setStateLocked now Bool.noConfusion
  · exact .refl c₁

/-! ### Data segments -/

theorem deliver_eq (rounds : Nat) (c : Conn) : ∃ readBuf recvCache recvNext,
    c.deliver rounds = { c with readBuf, recvCache, recvNext } := by
  induction rounds generalizing c with
  | zero => exact ⟨_, _, _, rfl⟩
  | succ rounds ih =>
    rw [deliver]
    cases c.recvCache.lookup (serial c.recvNext) with
    | none => exact ⟨_, _, _, rfl⟩
    | some seg =>
      obtain ⟨readBuf, recvCache, recvNext, heq⟩ := ih _
      exact ⟨readBuf, recvCache, recvNext, heq⟩

theorem deliverLocked_of_none (h : c.recvCache.lookup (serial c.recvNext) = none) :
    c.deliverLocked = c := by
  rw [deliverLocked]
  cases c.recvCache.entries.length with
  | zero => rfl
  | succ rounds => rw [deliver, h]

theorem deliverLocked_of_some {seg : DataSegment}
    (h : c.recvCache.lookup (serial c.recvNext) = some seg) :
    c.deliverLocked = deliverLocked { c with
      recvCache := c.recvCache.erase (serial c.recvNext)
      recvNext := c.recvNext + 1
      readBuf := c.readBuf ++ seg.payload } := by
  rw [deliverLocked, ← Mihomo.Lib.length_entries_erase h, deliver, h]
  rfl

theorem sheds_deliverLocked (c : Conn) : Sheds P c c.deliverLocked := by
  obtain ⟨readBuf, recvCache, recvNext, heq⟩ := deliver_eq c.recvCache.entries.length c
  rw [deliverLocked, heq]
  exact .of_window rfl rfl id

theorem sheds_inputData (c : Conn) (s : DataSegment) : Sheds P c (c.inputData now s) := by
  refine .trans ((c.frame_handleOptionLocked now s.option).trans
    (frame_processSendingNextLocked _ s.sendingNext)).toSheds (.trans ?_ (sheds_deliverLocked _))
  split_ifs <;> exact .of_window rfl rfl id

/-! ### Sending -/

end Conn

def Segment.From (c : Conn) : Segment → Prop
  | .data s => (s.number, s.payload) ∈ c.window
  | .ack s => s.receivingNext = c.recvNext ∧ ∀ n ∈ s.numberList, n ∈ c.acks
  | .cmdOnly s => s.receivingNext = c.recvNext

namespace Conn

variable {P : Nat → Prop} {c c' : Conn} (now : UInt32)

theorem Frame.made (h : Frame P c c') {seg : Segment} (hseg : seg.From c') : seg.From c := by
  cases seg with
  | data s => exact h.kept.subset hseg
  | ack s => exact ⟨hseg.1.trans h.recvNext, fun n hn => h.acks.subset (hseg.2 n hn)⟩
  | cmdOnly s => exact .trans hseg h.recvNext

structure AckFlush.Good (c : Conn) (f : AckFlush) : Prop where
  segments : ∀ a ∈ f.segments, (Segment.ack a).From c
  ack : (Segment.ack f.ack).From c
  candidates : ∀ n ∈ f.candidates, n ∈ c.acks

theorem from_newAckSegmentLocked (c : Conn) : (Segment.ack c.newAckSegmentLocked).From c :=
  ⟨rfl, nofun⟩

theorem AckFlush.Good.flushAck {f : AckFlush} (h : f.Good c) {item : AckItem}
    (hitem : item.number ∈ c.acks) (current : UInt32) : (c.flushAck current f item).Good c := by
  have hadd : ∀ numbers, (∀ n ∈ numbers, n ∈ c.acks) →
      ∀ n ∈ numbers ++ [item.number], n ∈ c.acks := fun numbers hnumbers =>
    forall_mem_append.mpr ⟨hnumbers, forall_mem_singleton.mpr hitem⟩
  unfold Conn.flushAck
  split
  · refine ⟨h.segments, h.ack, ?_⟩
    split_ifs
    · exact hadd _ h.candidates
    · exact h.candidates
  · dsimp only
    split_ifs
    all_goals
      first
        | exact ⟨h.segments, ⟨h.ack.1, hadd _ h.ack.2⟩, h.candidates⟩
        | refine ⟨forall_mem_append.mpr ⟨h.segments, ?_⟩, c.from_newAckSegmentLocked, h.candidates⟩
          exact forall_mem_singleton.mpr ⟨h.ack.1, hadd _ h.ack.2⟩

theorem items_flushAck (c : Conn) (current : UInt32) (f : AckFlush) (item : AckItem) :
    (c.flushAck current f item).items.map AckItem.number =
      f.items.map AckItem.number ++ [item.number] := by
  unfold flushAck
  split
  · exact map_append
  · dsimp only
    split_ifs <;> exact map_append

theorem flushAck_foldl (current : UInt32) (items : List AckItem)
    (hitems : ∀ item ∈ items, item.number ∈ c.acks) (f : AckFlush) (hf : f.Good c) :
    (items.foldl (c.flushAck current) f).Good c ∧
      (items.foldl (c.flushAck current) f).items.map AckItem.number =
        f.items.map AckItem.number ++ items.map AckItem.number := by
  induction items generalizing f with
  | nil => exact ⟨hf, (append_nil _).symm⟩
  | cons item items ih =>
    rw [forall_mem_cons] at hitems
    obtain ⟨hgood, heq⟩ := ih hitems.2 _ (hf.flushAck hitems.1 current)
    refine ⟨hgood, ?_⟩
    rw [foldl_cons, heq, items_flushAck, append_assoc]
    rfl

theorem flushAcksLocked_spec (c : Conn) (current : UInt32) :
    Frame P c (c.flushAcksLocked current).1 ∧
      ∀ seg ∈ (c.flushAcksLocked current).2, seg.From c := by
  unfold flushAcksLocked
  split
  · exact ⟨.refl c, nofun⟩
  · obtain ⟨hgood, hitems⟩ := c.flushAck_foldl current c.ackList (fun item => mem_map_of_mem)
      ⟨[], [], c.newAckSegmentLocked, c.ackDirty, []⟩
      ⟨nofun, c.from_newAckSegmentLocked, nofun⟩
    dsimp only
    generalize c.ackList.foldl (c.flushAck current) _ = f at hgood hitems ⊢
    have hacks : (f.items.map AckItem.number).Sublist c.acks := by
      rw [hitems]
      exact .refl _
    split
    · refine ⟨⟨.of_window rfl rfl id, rfl, hacks⟩, forall_mem_map.mpr (forall_mem_append.mpr
        ⟨hgood.segments, forall_mem_singleton.mpr ⟨hgood.ack.1, forall_mem_append.mpr
          ⟨hgood.ack.2, fun n hn => ?_⟩⟩⟩)⟩
      exact hgood.candidates n (mem_of_mem_take hn)
    · exact ⟨⟨.of_window rfl rfl id, rfl, hacks⟩, forall_mem_map.mpr hgood.segments⟩

theorem flushWindow_spec (c : Conn) (current cwnd : UInt32) (rest : List DataSegment) (f : SendFlush) :
    (c.flushWindow current cwnd rest f).window.map (fun seg => (seg.number, seg.payload)) =
        f.window.map (fun seg => (seg.number, seg.payload)) ++
          rest.map (fun seg => (seg.number, seg.payload)) ∧
      ∀ seg ∈ (c.flushWindow current cwnd rest f).segments, seg ∈ f.segments ∨
        (seg.number, seg.payload) ∈ rest.map fun seg => (seg.number, seg.payload) := by
  induction rest generalizing f with
  | nil => exact ⟨(append_nil _).symm, fun _ h => .inl h⟩
  | cons seg rest ih =>
    rw [flushWindow]
    split
    · obtain ⟨hwindow, hsegments⟩ := ih { f with window := f.window ++ [seg] }
      refine ⟨by rw [hwindow]; simp, fun d hd => ?_⟩
      exact (hsegments d hd).imp_right (mem_cons_of_mem _)
    · dsimp only
      split
      · refine ⟨by simp, forall_mem_append.mpr ⟨fun _ => .inl, forall_mem_singleton.mpr ?_⟩⟩
        exact .inr mem_cons_self
      · refine ⟨by rw [(ih _).1]; simp, fun d hd => ?_⟩
        rcases (ih _).2 d hd with hd | hd
        · rcases mem_append.mp hd with hd | hd
          · exact .inl hd
          · rw [mem_singleton.mp hd]
            exact .inr mem_cons_self
        · exact .inr (mem_cons_of_mem _ hd)

theorem frame_onPacketLossLocked (c : Conn) (lossRate : UInt32) :
    Frame P c (c.onPacketLossLocked lossRate) := by
  unfold onPacketLossLocked
  split_ifs <;> exact .of_window rfl rfl rfl rfl id

theorem flushSendLocked_spec (c : Conn) (current : UInt32) :
    Frame P c (c.flushSendLocked current).1 ∧
      ∀ seg ∈ (c.flushSendLocked current).2, seg.From c := by
  unfold flushSendLocked
  split
  · split
    · exact ⟨.of_window rfl rfl rfl rfl id, forall_mem_singleton.mpr rfl⟩
    · exact ⟨.refl c, nofun⟩
  · obtain ⟨hwindow, hsegments⟩ := c.flushWindow_spec current c.sendingWindow c.sendWindow
      ⟨[], [], 0, 0, c.totalInFlightSize⟩
    dsimp only
    generalize c.flushWindow current c.sendingWindow c.sendWindow _ = f at hwindow hsegments ⊢
    have hsent : Frame P c { c with sendWindow := f.window, totalInFlightSize := f.totalInFlightSize } :=
      .of_window rfl rfl rfl hwindow id
    refine ⟨?_, fun seg hseg => ?_⟩
    · split_ifs
      · exact hsent.trans ((frame_onPacketLossLocked ..).trans (.of_window rfl rfl rfl rfl id))
      · exact hsent.trans (.of_window rfl rfl rfl rfl id)
    · obtain ⟨d, hd, rfl⟩ := mem_map.mp hseg
      rcases hsegments d hd with hd | hd
      · cases hd
      · exact hd

theorem frame_setStateWhen (c : Conn) {p : Bool} {q : ConnState}
    (hopened : p = true → q.isOpen = true → c.state.isOpen = true) :
    Frame P c (c.setStateWhen now p q) := by
  unfold setStateWhen
  split_ifs with hp
  · exact c.frame_setStateLocked now (hopened hp)
  · exact .refl c

theorem frame_flushState (c : Conn) : Frame P c (c.flushState now) := by
  refine .trans (c.frame_setStateWhen now fun hactive _ => ?_)
    (frame_setStateWhen now _ fun _ h => Bool.noConfusion h)
  rw [(of_decide_eq_true hactive).1]
  rfl

theorem flushTerminating_spec (c : Conn) :
    Frame P c (c.flushTerminating now).1 ∧ ∀ seg ∈ (c.flushTerminating now).2, seg.From c := by
  have hping : Frame P c { c with lastPing := now } := .of_window rfl rfl rfl rfl id
  refine ⟨hping.trans (frame_setStateWhen now _ fun _ h => Bool.noConfusion h), ?_⟩
  exact forall_mem_singleton.mpr rfl

theorem flushOpen_spec (c : Conn) :
    Frame P c (c.flushOpen now).1 ∧ ∀ seg ∈ (c.flushOpen now).2, seg.From c := by
  unfold flushOpen
  dsimp only
  have hpeer := c.frame_setStateWhen (P := P) now (q := .terminating)
    (p := c.state = .peerTerminating ∧ now - c.stateBegin > 4000) fun _ h => Bool.noConfusion h
  generalize c.setStateWhen now _ _ = c₁ at hpeer ⊢
  have htimeout := hpeer.trans (c₁.frame_setStateWhen now (q := .terminating)
    (p := c₁.state = .readyToClose ∧ now - c₁.stateBegin > 15000) fun _ h => Bool.noConfusion h)
  generalize c₁.setStateWhen now _ _ = c₂ at htimeout ⊢
  obtain ⟨hacks, hacksFrom⟩ := c₂.flushAcksLocked_spec now
  obtain ⟨hsends, hsendsFrom⟩ := (c₂.flushAcksLocked now).1.flushSendLocked_spec now
  have hall := htimeout.trans (hacks.trans hsends)
  have hsegments :
      ∀ seg ∈ (c₂.flushAcksLocked now).2 ++ ((c₂.flushAcksLocked now).1.flushSendLocked now).2,
      seg.From c := forall_mem_append.mpr ⟨fun seg hseg => htimeout.made (hacksFrom seg hseg),
        fun seg hseg => (htimeout.trans hacks).made (hsendsFrom seg hseg)⟩
  split_ifs
  · refine ⟨hall.trans (.of_window rfl rfl rfl rfl id), forall_mem_append.mpr ⟨hsegments, ?_⟩⟩
    exact forall_mem_singleton.mpr hall.recvNext
  · exact ⟨hall, hsegments⟩

theorem flush_spec (c : Conn) : Frame P c (c.flush now).1 ∧ ∀ seg ∈ (c.flush now).2, seg.From c := by
  unfold flush
  split
  · exact ⟨.refl c, nofun⟩
  · have hstate := c.frame_flushState (P := P) now
    dsimp only
    split
    · obtain ⟨hframe, hfrom⟩ := (c.flushState now).flushTerminating_spec now
      exact ⟨hstate.trans hframe, fun seg hseg => hstate.made (hfrom seg hseg)⟩
    · obtain ⟨hframe, hfrom⟩ := (c.flushState now).flushOpen_spec now
      exact ⟨hstate.trans hframe, fun seg hseg => hstate.made (hfrom seg hseg)⟩

end Conn

end Mihomo.Mkcp
