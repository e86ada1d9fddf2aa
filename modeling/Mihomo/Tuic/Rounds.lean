import Mihomo.Tuic.Reassembly

/-!
# Fragments of a packet come back as the packet

`fragWriteNative` sends at most 255 fragments with exact counters. As long as the bag does not expire,
the packet is returned at the arrival of the last missing fragment. The bag is gone then, so that later
copies begin a new round.
-/

namespace Mihomo.Tuic
open Go Lib Lru List UInt8

/-! ### Fragments as they arrive -/

def part (packet : Packet) (size n i : Nat) : Packet := (fragment packet size n i).received

section Part

variable (packet : Packet) (size n i : Nat)

theorem part_pktID : (part packet size n i).pktID = packet.pktID := by
  unfold part Packet.received
  split_ifs <;> rfl

theorem part_data : (part packet size n i).data = pieceAt size packet.data i := by
  unfold part Packet.received
  split_ifs <;> rfl

variable {packet size n i}

theorem part_fragTotal (hmax : n ≤ 255) : (part packet size n i).fragTotal.toNat = n := by
  have hfield : (part packet size n i).fragTotal = ofNat n := by
    unfold part Packet.received
    split_ifs <;> rfl
  rw [hfield, toNat_ofNat_of_lt' (Nat.lt_succ_of_le hmax)]

theorem part_fragID (hmax : n ≤ 255) (hi : i < n) : (part packet size n i).fragID.toNat = i := by
  have hfield : (part packet size n i).fragID = ofNat i := by
    unfold part Packet.received
    split_ifs <;> rfl
  rw [hfield, toNat_ofNat_of_lt' (by change i < 256; omega)]

theorem part_injective (hmax : n ≤ 255) :
    ∀ i < n, ∀ j < n, part packet size n i = part packet size n j → i = j := by
  intro i hi j hj h
  have hid : (part packet size n i).fragID.toNat = (part packet size n j).fragID.toNat := by rw [h]
  rwa [part_fragID hmax hi, part_fragID hmax hj] at hid

theorem part_zero (haddr : packet.addr.Readable) : part packet size n 0 = fragment packet size n 0 :=
  if_neg haddr.type_ne

end Part

structure Unfragmented (packet : Packet) : Prop where
  fragTotal : packet.fragTotal = 1
  fragID : packet.fragID = 0
  size : packet.size = UInt16.ofNat packet.data.length
  addr : packet.addr.Readable

section Parts

variable {packet : Packet} (hpacket : Unfragmented packet) {size n : Nat} (hs : 0 < size)
  (hn : n = pieceCount packet.data.length size)

include hpacket hs hn

theorem wholeOf_parts {first : Packet} {rest : List Packet}
    (h : first :: rest = (range n).map (part packet size n)) :
    wholeOf first rest = packet := by
  have hfirst : first = fragment packet size n 0 := by
    have hhead := congrArg (fun l => l[0]?) h
    have hpos : 0 < n := Nat.pos_of_ne_zero fun hzero => by
      rw [hzero] at h
      cases h
    simp only [getElem?_cons_zero, getElem?_map, getElem?_range hpos, Option.map_some,
      Option.some.injEq] at hhead
    rw [hhead, part_zero hpacket.addr]
  have hdata : (first :: rest).flatMap Packet.data = packet.data := by
    rw [h, flatMap_map]
    simp only [part_data]
    rw [hn]
    exact flatten_all_pieces hs packet.data
  unfold wholeOf
  simp only [hdata, ← hpacket.size, ← hpacket.fragTotal, ← hpacket.fragID]
  rw [hfirst]
  rfl

theorem part_of_one (h : n = 1) : part packet size n 0 = packet := by
  have hdata : pieceAt size packet.data 0 = packet.data := by
    have hall := flatten_all_pieces hs packet.data
    rw [← hn, h] at hall
    simpa using hall
  rw [part_zero hpacket.addr]
  unfold fragment
  rw [h, hdata, ← hpacket.size]
  change { packet with fragTotal := 1, fragID := 0 } = packet
  rw [← hpacket.fragTotal, ← hpacket.fragID]

end Parts

/-! ### One arrival -/

variable {r : Option Packet} {d d' : DeFragger} {packets : List Packet} {n : Nat}
  {m packet : Packet} {now : Int} {is : List Nat} {size : Nat}

theorem find_feed_of_ne (h : InOrder packets d) (hm : m ∈ packets)
    (hfeed : d.feed now m = .ok (d', r)) {k : UInt16} (hne : k ≠ m.pktID)
    (hlive : Unexpired d.lru.lru k now) : find d'.lru.lru k = find d.lru.lru k := by
  by_cases htotal : m.fragTotal ≤ 1
  · rw [DeFragger.feed, if_pos htotal] at hfeed
    cases hfeed
    rfl
  by_cases hid : m.fragTotal ≤ m.fragID
  · rw [DeFragger.feed, if_neg htotal, if_pos hid] at hfeed
    cases hfeed
    rfl
  have hfetch := find_getOrStore_of_ne h.aged newPacketBag hne hlive
  have haged := h.aged.getOrStore now m.pktID newPacketBag
  obtain ⟨bag, r', hadd, -⟩ := h.add now hm (not_le.mp hid)
  cases r' with
  | none =>
    rw [feed_stored htotal hid hadd] at hfeed
    cases hfeed
    rw [find_assign, hfetch]
    simp only [if_neg hne]
    exact Option.map_id'
  | some p =>
    rw [feed_last htotal hid hadd] at hfeed
    cases hfeed
    rw [find_delete haged, if_neg hne, hfetch]

structure Collecting (packet : Packet) (size n : Nat) (is : List Nat) (d : DeFragger) : Prop where
  bound : ∀ i ∈ is, i < n
  missing : ¬ Complete n is.toFinset
  idle : is = [] → find d.lru.lru packet.pktID = none
  busy : is ≠ [] → ∃ e, find d.lru.lru packet.pktID = some e ∧
    e.value.frags = slotsOf (part packet size n) n is.toFinset

inductive Collects (packet : Packet) (size n : Nat) (is : List Nat) (i : Nat) :
    Except Panic (DeFragger × Option Packet) → Prop where
  | more {d : DeFragger} (h : Collecting packet size n (i :: is) d) :
      Collects packet size n is i (.ok (d, none))
  | done {d : DeFragger} (hdone : Complete n (i :: is).toFinset) (h : Collecting packet size n [] d) :
    Collects packet size n is i (.ok (d, some packet))

theorem not_complete_nil (hn : 0 < n) : ¬ Complete n ([] : List Nat).toFinset := fun h =>
  absurd (h 0 hn) (Finset.notMem_empty 0)

section Collecting

variable {packets : List Packet} {packet : Packet} (hpacket : Unfragmented packet) {size n : Nat}
  (hs : 0 < size)
  (hn : n = pieceCount packet.data.length size) (hpos : 0 < n) (hmax : n ≤ 255) {is : List Nat}
    {d : DeFragger}
  {i : Nat} {now : Int}

include hmax in
theorem part_fragmented (packet : Packet) (size : Nat) (htwo : 2 ≤ n) (hi : i < n) :
    ¬ (part packet size n i).fragTotal ≤ 1 ∧ ¬ (part packet size n i).fragTotal ≤
      (part packet size n i).fragID := by
  rw [le_iff_toNat_le, le_iff_toNat_le, part_fragTotal hmax, part_fragID hmax hi,
    toNat_one]
  omega

include hpacket hs hn in
theorem Collecting.feed_one (h : Collecting packet size n is d) (hone : n = 1) (hi : i < n) :
    Collects packet size n is i (d.feed now (part packet size n i)) := by
  obtain rfl : i = 0 := by omega
  have hpart := part_of_one hpacket hs hn hone
  have hnil : is = [] := by
    cases is with
    | nil => rfl
    | cons j is =>
      have hj := h.bound j mem_cons_self
      refine absurd (fun l hl => ?_) h.missing
      rw [show l = j by omega]
      exact mem_toFinset.mpr mem_cons_self
  subst hnil
  rw [hpart, DeFragger.feed, if_pos (by rw [hpacket.fragTotal])]
  refine .done (fun l hl => ?_) h
  rw [show l = 0 by omega]
  exact mem_toFinset.mpr mem_cons_self

theorem Collecting.stored (hbound : ∀ j ∈ i :: is, j < n) (hmore : ¬ Complete n (i :: is).toFinset)
    {c : Bags} {e : Entry UInt16 PacketBag} (hfind : find c.lru packet.pktID = some e) {bag : PacketBag}
    (hfrags : bag.frags = slotsOf (part packet size n) n (i :: is).toFinset) :
    Collecting packet size n (i :: is) ⟨c.assign packet.pktID bag⟩ := by
  refine ⟨hbound, hmore, fun h => absurd h (cons_ne_nil i is), fun _ =>
    ⟨{ e with value := bag }, ?_, hfrags⟩⟩
  rw [find_assign, hfind, Option.map_some, if_pos rfl]

include hmax in
theorem Collecting.feed_first (horder : InOrder packets d) (h : Collecting packet size n [] d)
    (htwo : 2 ≤ n) (hi : i < n) :
    Collects packet size n [] i (d.feed now (part packet size n i)) := by
  obtain ⟨htotal, hid⟩ := part_fragmented hmax packet size htwo hi
  obtain ⟨hbag, hfind⟩ := getOrStore_miss horder.aged now newPacketBag (h.idle rfl)
  have hadd : newPacketBag.add (part packet size n i) = _ := if_pos (by
    rw [part_fragTotal hmax]
    change n ≠ 0
    omega)
  have hpkt := part_pktID packet size n i
  rw [feed_stored htotal hid (by rw [hpkt, hbag]; exact hadd), hpkt]
  refine .more (.stored (by simpa using hi) (not_complete_first htwo i) hfind ?_)
  rw [part_fragTotal hmax, part_fragID hmax hi, ← slotsOf_empty, set_slotsOf hi]
  rfl

include hpacket hs hn hpos hmax in
theorem Collecting.feed_next (horder : InOrder packets d) (h : Collecting packet size n is d)
    (hne : is ≠ []) (hlive : Unexpired d.lru.lru packet.pktID now) (htwo : 2 ≤ n) (hi : i < n) :
    Collects packet size n is i (d.feed now (part packet size n i)) := by
  obtain ⟨htotal, hid⟩ := part_fragmented hmax packet size htwo hi
  obtain ⟨e, he, hfrags⟩ := h.busy hne
  obtain ⟨hbag, hfind⟩ := getOrStore_hit horder.aged newPacketBag he (hlive e he)
  have hcounted : e.value.Counted := (horder.bags e (mem_of_find he)).1
  have hadd := added_add hcounted (not_le.mp hid)
  have hpkt := part_pktID packet size n i
  have hbound : ∀ j ∈ i :: is, j < n := forall_mem_cons.mpr ⟨hi, h.bound⟩
  have hslot := getElem?_slotsOf (part packet size n) is.toFinset hi
  have hset : e.value.frags.set (part packet size n i).fragID.toNat (some (part packet size n i)) =
      slotsOf (part packet size n) n (i :: is).toFinset := by
    rw [hfrags, part_fragID hmax hi, set_slotsOf hi, toFinset_cons]
  generalize hx : e.value.add (part packet size n i) = x at hadd
  rw [← hbag, ← hpkt] at hx
  cases hadd with
  | first hlen =>
    rw [hfrags, length_slotsOf, part_fragTotal hmax] at hlen
    exact absurd rfl hlen
  | duplicate hlen f hf =>
    rw [hfrags, part_fragID hmax hi, hslot] at hf
    have hmem : i ∈ is.toFinset := by
      by_contra hnot
      rw [if_neg hnot] at hf
      cases hf
    have hsame : (i :: is).toFinset = is.toFinset := by
      rw [toFinset_cons, Finset.insert_eq_of_mem hmem]
    rw [feed_stored htotal hid hx, hpkt]
    exact .more (.stored hbound (by rw [hsame]; exact h.missing) hfind (by rw [hsame]; exact hfrags))
  | stored hlen hf hmore =>
    rw [hset, hlen, part_fragTotal hmax] at hmore
    rw [feed_stored htotal hid hx, hpkt]
    exact .more (.stored hbound (fun hall => hmore (filled_slotsOf_eq_iff.mpr hall)) hfind hset)
  | last hlen hf first rest hall =>
    have hdone : Complete n (i :: is).toFinset := by
      have hfilled := filled_map_some (first :: rest)
      rw [← hall, hset] at hfilled
      refine filled_slotsOf_eq_iff.mp (hfilled.trans ?_)
      have hlength := congrArg length hall
      rwa [hset, length_slotsOf, length_map, eq_comm] at hlength
    have hparts : first :: rest = (range n).map (part packet size n) := by
      rw [hset, slotsOf_complete hdone] at hall
      refine map_injective_iff.mpr (Option.some_injective _) (hall.symm.trans ?_)
      rw [map_map]
      rfl
    rw [feed_last htotal hid hx, hpkt, wholeOf_parts hpacket hs hn hparts]
    refine .done hdone ⟨nofun, not_complete_nil hpos, fun _ => ?_,
      (absurd rfl)⟩
    rw [find_delete (horder.aged.getOrStore ..), if_pos rfl]

include hpacket hs hn hpos hmax in
theorem Collecting.feed (horder : InOrder packets d) (h : Collecting packet size n is d)
    (hlive : Unexpired d.lru.lru packet.pktID now) (hi : i < n) :
    Collects packet size n is i (d.feed now (part packet size n i)) := by
  by_cases hone : n = 1
  · exact h.feed_one hpacket hs hn hone hi
  · by_cases hne : is = []
    · subst hne
      exact h.feed_first hmax horder (by omega) hi
    · exact h.feed_next hpacket hs hn hpos hmax horder hne hlive (by omega) hi

end Collecting

/-! ### Whole runs -/

def DeFragger.step (d : DeFragger) (a : Arrival) : Except Panic DeFragger :=
  (·.1) <$> d.feed a.now a.packet

def NoExpiry (k : UInt16) (d : DeFragger) (arrivals : List Arrival) : Prop :=
  Along DeFragger.step (fun d a => Unexpired d.lru.lru k a.now) d arrivals

def packetsOf (k : UInt16) (arrivals : List Arrival) : List Packet :=
  (arrivals.map Arrival.packet).filter fun p => p.pktID = k

def answersTo (k : UInt16) (arrivals : List Arrival) (rs : List (Option Packet)) :
    List (Option Packet) :=
  ((arrivals.zip rs).filter fun x => x.1.packet.pktID = k).map Prod.snd

section Answers

variable {k : UInt16} {a : Arrival} {arrivals : List Arrival} {r : Option Packet}
  {rs : List (Option Packet)}

theorem answersTo_cons (h : a.packet.pktID = k) :
    answersTo k (a :: arrivals) (r :: rs) = r :: answersTo k arrivals rs := by
  simp [answersTo, h]

theorem answersTo_cons_of_ne (h : a.packet.pktID ≠ k) :
    answersTo k (a :: arrivals) (r :: rs) = answersTo k arrivals rs := by
  simp [answersTo, h]

theorem packetsOf_cons (h : a.packet.pktID = k) :
    packetsOf k (a :: arrivals) = a.packet :: packetsOf k arrivals := by
  simp [packetsOf, h]

theorem packetsOf_cons_of_ne (h : a.packet.pktID ≠ k) :
    packetsOf k (a :: arrivals) = packetsOf k arrivals := by
  simp [packetsOf, h]

end Answers

theorem step_of_feed {a : Arrival} (h : d.feed a.now a.packet = .ok (d', r)) :
    d.step a = .ok d' := by
  rw [DeFragger.step, h]
  rfl

theorem Collecting.of_ne
    (horder : InOrder packets d) (h : Collecting packet size n is d)
    (hm : m ∈ packets) (hfeed : d.feed now m = .ok (d', r)) (hne : m.pktID ≠ packet.pktID)
    (hlive : Unexpired d.lru.lru packet.pktID now) : Collecting packet size n is d' := by
  have hfind := find_feed_of_ne horder hm hfeed hne.symm hlive
  exact ⟨h.bound, h.missing, fun hnil => by rw [hfind]; exact h.idle hnil,
    fun hne => by rw [hfind]; exact h.busy hne⟩

theorem Collecting.feedAll (hpacket : Unfragmented packet)
    (hs : 0 < size) (hn : n = pieceCount packet.data.length size) (hpos : 0 < n)
    (hmax : n ≤ 255) (horder : InOrder packets d)
    (h : Collecting packet size n is d) {arrivals : List Arrival}
    (hall : ∀ a ∈ arrivals, a.packet ∈ packets)
    (hparts : ∀ a ∈ arrivals, a.packet.pktID = packet.pktID →
      a.packet ∈ (range n).map (part packet size n))
    (hlive : NoExpiry packet.pktID d arrivals) :
    ∃ rs, d.feedAll arrivals = .ok rs ∧ answersTo packet.pktID arrivals rs =
      rounds ((range n).map (part packet size n)) packet (is.map (part packet size n))
        (packetsOf packet.pktID arrivals) := by
  induction arrivals generalizing d is with
  | nil => exact ⟨[], rfl, rfl⟩
  | cons a arrivals ih =>
    rw [forall_mem_cons] at hall hparts
    obtain ⟨d', r, hfeed, horder', -⟩ := horder.feed a.now hall.1
    have hlive' : NoExpiry packet.pktID d' arrivals := hlive.2 d' (step_of_feed hfeed)
    by_cases hid : a.packet.pktID = packet.pktID
    · obtain ⟨i, hi, hpart⟩ := mem_map.mp (hparts.1 hid)
      rw [mem_range] at hi
      have hstep := h.feed hpacket hs hn hpos hmax horder hlive.1 hi
      have hseen : ∀ js : List Nat, (∀ j ∈ js, j < n) →
          ((range n).map (part packet size n) ⊆ js.map (part packet size n) ↔
            Complete n js.toFinset) :=
        fun js hjs => subset_iff_complete (part_injective hmax) hjs
      have hsub := hseen (i :: is) (forall_mem_cons.mpr ⟨hi, h.bound⟩)
      rw [map_cons, hpart] at hsub
      rw [hpart, hfeed] at hstep
      rw [packetsOf_cons hid, rounds]
      cases hstep with
      | more h' =>
        obtain ⟨rs, hrs, hanswers⟩ := ih horder' h' hall.2 hparts.2 hlive'
        refine ⟨none :: rs, by rw [feedAll_cons hfeed, hrs]; rfl, ?_⟩
        rw [answersTo_cons hid, if_neg (fun hc => h'.missing (hsub.mp hc)), hanswers, map_cons,
          hpart]
      | done hdone h' =>
        obtain ⟨rs, hrs, hanswers⟩ := ih horder' h' hall.2 hparts.2 hlive'
        refine ⟨some packet :: rs, by rw [feedAll_cons hfeed, hrs]; rfl, ?_⟩
        rw [answersTo_cons hid, if_pos (hsub.mpr hdone), hanswers]
        rfl
    · obtain ⟨rs, hrs, hanswers⟩ :=
        ih horder' (h.of_ne horder hall.1 hfeed hid hlive.1) hall.2 hparts.2 hlive'
      refine ⟨r :: rs, by rw [feedAll_cons hfeed, hrs]; rfl, ?_⟩
      rw [answersTo_cons_of_ne hid, packetsOf_cons_of_ne hid, hanswers]

theorem pieceCount_bounds {len : Nat} {fragSize : Int} (hsize : 0 < fragSize) (hlen : 1 ≤ len)
    (hmax : (len : Int) ≤ 255 * fragSize) :
    0 < pieceCount len fragSize.toNat ∧ pieceCount len fragSize.toNat ≤ 255 := by
  have hs : 0 < fragSize.toNat := by omega
  refine ⟨(lt_pieceCount_iff hs).mpr (by omega), not_lt.mp fun hlt => ?_⟩
  have hmul := (lt_pieceCount_iff hs).mp hlt
  omega

/-- The datagrams of a payload in at most 255 fragments are read back, and the packets read are
answered in rounds: the original packet is returned at the arrival of the last fragment that
was missing since the previous return. Whatever arrives, no answer mixes packet IDs. -/
theorem fragWriteNative_rounds (assocID pktID : UInt16) (addr : Address) (data : Str)
    (fragSize : Int) (haddr : addr.Readable) (hlen : 1 ≤ data.length ∧ data.length ≤ 65535)
    (hsize : 0 < fragSize) (hmax : (data.length : Int) ≤ 255 * fragSize) :
    (∃ datagrams pieces,
      fragWriteNative (newPacket assocID pktID 1 0 (UInt16.ofNat data.length) addr data) fragSize =
        .ok datagrams ∧
      List.Forall₂ (fun datagram piece =>
        ∀ s, readPacket (datagram ++ s) = .ok (piece, s)) datagrams pieces ∧
      ∀ arrivals, (∀ a ∈ arrivals, a.packet.pktID = pktID → a.packet ∈ pieces) →
        NoExpiry pktID .zero arrivals →
        ∃ rs, DeFragger.zero.feedAll arrivals = .ok rs ∧
          answersTo pktID arrivals rs =
            rounds pieces (newPacket assocID pktID 1 0 (UInt16.ofNat data.length) addr data) []
              (packetsOf pktID arrivals)) ∧
      ∀ arrivals, ∃ rs, DeFragger.zero.feedAll arrivals = .ok rs ∧
        List.Forall₂ (fun a r => ∀ p, r = some p →
          p.pktID = a.packet.pktID ∧ Whole (arrivals.map Arrival.packet) p) arrivals rs := by
  have hmem : ∀ arrivals : List Arrival, ∀ a ∈ arrivals, a.packet ∈ arrivals.map Arrival.packet :=
    fun arrivals a ha => List.mem_map_of_mem ha
  refine ⟨?_, fun arrivals => (inOrder_zero _).feedAll (hmem arrivals)⟩
  generalize hp : newPacket assocID pktID 1 0 (UInt16.ofNat data.length) addr data = packet
  have hpacket : Unfragmented packet := by
    rw [← hp]
    exact ⟨rfl, rfl, rfl, haddr⟩
  have hid : packet.pktID = pktID := by rw [← hp]; rfl
  have hdata : packet.data = data := by rw [← hp]; rfl
  have hhead : packet.head.type = packetType := by rw [← hp]; rfl
  obtain ⟨n, hn⟩ : ∃ n, n = pieceCount packet.data.length fragSize.toNat := ⟨_, rfl⟩
  have hs : 0 < fragSize.toNat := by omega
  obtain ⟨hpos, hle⟩ := pieceCount_bounds hsize hlen.1 hmax
  rw [← hdata, ← hn] at hpos hle
  have hfragments := fragments_eq packet hsize
  rw [← hn] at hfragments
  refine ⟨((List.range n).map (fragment packet fragSize.toNat n)).map Packet.writeTo,
    (List.range n).map (part packet fragSize.toNat n), by rw [fragWriteNative, hfragments]; rfl, ?_, ?_⟩
  · rw [List.map_map, List.forall₂_map_left_iff, List.forall₂_map_right_iff, List.forall₂_same]
    intro i _ s
    exact readPacket_fragment hhead hpacket.addr (by rw [hdata]; exact hlen.2) fragSize.toNat n i s
  · intro arrivals hparts hlive
    have hzero : Collecting packet fragSize.toNat n [] .zero :=
      ⟨forall_mem_nil _, not_complete_nil hpos, fun _ => rfl, fun h => absurd rfl h⟩
    rw [← hid] at hparts hlive ⊢
    exact hzero.feedAll hpacket hs hn hpos hle (inOrder_zero _) (hmem arrivals) hparts hlive

def sample (data : Str) : Packet :=
  newPacket 1 7 1 0 (UInt16.ofNat data.length) ⟨atypIPv4, [10, 0, 0, 1], 53⟩ data

example : NoExpiry 7 .zero [⟨0, part (sample [1, 2]) 1 2 0⟩, ⟨9, part (sample [1, 2]) 1 2 1⟩] := by
  refine ⟨fun e he => (by cases he), fun d hd => ⟨fun e he => ?_, fun _ _ => trivial⟩⟩
  cases hd
  cases he
  decide

theorem fragWriteNative_rounds_two :
    (∃ datagrams pieces, fragWriteNative (sample [1, 2]) 1 = .ok datagrams ∧
      List.Forall₂ (fun datagram piece =>
        ∀ s, readPacket (datagram ++ s) = .ok (piece, s)) datagrams pieces ∧
      ∀ arrivals, (∀ a ∈ arrivals, a.packet.pktID = 7 → a.packet ∈ pieces) → NoExpiry 7 .zero arrivals →
        ∃ rs, DeFragger.zero.feedAll arrivals = .ok rs ∧
          answersTo 7 arrivals rs = rounds pieces (sample [1, 2]) [] (packetsOf 7 arrivals)) ∧
      ∀ arrivals, ∃ rs, DeFragger.zero.feedAll arrivals = .ok rs ∧
        List.Forall₂ (fun a r => ∀ p, r = some p →
          p.pktID = a.packet.pktID ∧ Whole (arrivals.map Arrival.packet) p) arrivals rs :=
  fragWriteNative_rounds 1 7 ⟨atypIPv4, [10, 0, 0, 1], 53⟩ [1, 2] 1 (.ipv4 53 rfl) (by decide)
    (by decide) (by decide)

/-- Two fragments that arrive twice are a packet twice, and so is a packet in one piece. With 256
fragments the announced number is 0, and each fragment is returned as a packet of its own. -/
theorem feed_returns_again :
    DeFragger.zero.feedAll [⟨0, part (sample [1, 2]) 1 2 0⟩, ⟨0, part (sample [1, 2]) 1 2 1⟩,
        ⟨0, part (sample [1, 2]) 1 2 1⟩, ⟨0, part (sample [1, 2]) 1 2 0⟩] =
      .ok [none, some (sample [1, 2]), none, some (sample [1, 2])] ∧
    DeFragger.zero.feedAll [⟨0, sample [1]⟩, ⟨0, sample [1]⟩] =
      .ok [some (sample [1]), some (sample [1])] ∧
    ((fragments (sample (List.replicate 256 1)) 1).toOption.map
      fun ps => ps.all fun p => p.fragTotal == 0) =
      some true := by
  refine ⟨rfl, rfl, ?_⟩
  decide +kernel

end Mihomo.Tuic
