import Mihomo.Tuic.Packet
import Mihomo.Lru.Aged
import Mihomo.Lib.Run

/-!
# The reassembler of TUIC

Fragments are collected in bags, one for each packet ID, in a cache that forgets a bag 10 seconds after
its last fragment. A bag starts over when the announced number of fragments changes; the fragment that
fills the last slot takes the bag out of the cache.
-/

namespace Mihomo.Tuic
open Go Lib Lru List

structure PacketBag where
  frags : List (Option Packet)
  count : UInt8
  deriving DecidableEq, Repr

def newPacketBag : PacketBag := ⟨[], 0⟩

def deref : Option Packet → Except Panic Packet
  | some p => .ok p
  | none => .error .nilDereference

def assemble (frags : List (Option Packet)) : Except Panic Packet := do
  let packets ← frags.mapM deref
  let data := packets.flatMap Packet.data
  match packets with
  | [] => .error .indexOutOfRange
  | first :: _ =>
      return { first with size := UInt16.ofNat data.length, data, fragID := 0, fragTotal := 1 }

/-- The part of `Feed` that holds the mutex of the bag. -/
def PacketBag.add (bag : PacketBag) (m : Packet) : Except Panic (PacketBag × Option Packet) :=
  if m.fragTotal.toNat ≠ bag.frags.length then
    .ok (⟨(replicate m.fragTotal.toNat none).set m.fragID.toNat (some m), 1⟩, none)
  else
    match bag.frags[m.fragID.toNat]? with
    | none => .error .indexOutOfRange
    | some (some _) => .ok (bag, none)
    | some none =>
      let frags := bag.frags.set m.fragID.toNat (some m)
      let count := bag.count + 1
      if count.toNat ≠ frags.length then .ok (⟨frags, count⟩, none)
      else do
        let p ← assemble frags
        .ok (⟨[], count⟩, some p)

abbrev Bags := LruCache UInt16 PacketBag

structure DeFragger where
  lru : Bags

/-- The zero value; `init` makes the cache at the first use. -/
def DeFragger.zero : DeFragger := ⟨.newAged 10⟩

def DeFragger.feed (d : DeFragger) (now : Int) (m : Packet) : Except Panic (DeFragger × Option Packet) :=
  if m.fragTotal ≤ 1 then .ok (d, some m)
  else if m.fragTotal ≤ m.fragID then .ok (d, none)
  else do
    let (bag, lru) := d.lru.getOrStore now m.pktID newPacketBag
    let (bag, r) ← bag.add m
    match r with
    | none => .ok (⟨lru.assign m.pktID bag⟩, none)
    -- nothing refers to the emptied bag once its entry is gone
    | some p => .ok (⟨lru.delete m.pktID⟩, some p)

section Feed

variable {d : DeFragger} {now : Int} {m : Packet} (htotal : ¬ m.fragTotal ≤ 1)
  (hid : ¬ m.fragTotal ≤ m.fragID)
  {bag : PacketBag}

include htotal hid

theorem feed_stored (hadd : (d.lru.getOrStore now m.pktID newPacketBag).1.add m = .ok (bag, none)) :
    d.feed now m = .ok (⟨(d.lru.getOrStore now m.pktID newPacketBag).2.assign m.pktID bag⟩, none) := by
  rw [DeFragger.feed, if_neg htotal, if_neg hid]
  dsimp only
  rw [hadd]
  rfl

theorem feed_last {p : Packet}
    (hadd : (d.lru.getOrStore now m.pktID newPacketBag).1.add m = .ok (bag, some p)) :
    d.feed now m = .ok (⟨(d.lru.getOrStore now m.pktID newPacketBag).2.delete m.pktID⟩, some p) := by
  rw [DeFragger.feed, if_neg htotal, if_neg hid]
  dsimp only
  rw [hadd]
  rfl

end Feed

/-! ### Adding to a bag -/

structure PacketBag.Counted (bag : PacketBag) : Prop where
  count : bag.count.toNat = filled bag.frags
  short : bag.frags.length < 256

theorem counted_newPacketBag : newPacketBag.Counted := ⟨rfl, by decide⟩

theorem PacketBag.Counted.store {bag : PacketBag} (h : bag.Counted) {i : Nat}
    (hi : bag.frags[i]? = some none) (m : Packet) :
    PacketBag.Counted ⟨bag.frags.set i (some m), bag.count + 1⟩ where
  count := toNat_succ_eq_filled h.count h.short hi m
  short := by
    rw [length_set]
    exact h.short

variable {m : Packet} {d : DeFragger} {packets : List Packet}

theorem counted_first (hid : m.fragID < m.fragTotal) :
    PacketBag.Counted ⟨(replicate m.fragTotal.toNat none).set m.fragID.toNat (some m), 1⟩ where
  count := (filled_first (UInt8.lt_iff_toNat_lt.mp hid) m).symm
  short := by
    rw [length_set, length_replicate]
    exact m.fragTotal.toNat_lt

theorem mapM_deref (packets : List Packet) : (packets.map some).mapM deref = .ok packets := by
  induction packets with
  | nil => rfl
  | cons p packets ih =>
    rw [map_cons, mapM_cons, ih]
    rfl

def wholeOf (first : Packet) (rest : List Packet) : Packet :=
  let data := (first :: rest).flatMap Packet.data
  { first with size := UInt16.ofNat data.length, data, fragID := 0, fragTotal := 1 }

inductive Added (bag : PacketBag) (m : Packet) : Except Panic (PacketBag × Option Packet) → Prop where
  | first (hlen : bag.frags.length ≠ m.fragTotal.toNat) :
    Added bag m (.ok (⟨(replicate m.fragTotal.toNat none).set m.fragID.toNat (some m), 1⟩, none))
  | duplicate (hlen : bag.frags.length = m.fragTotal.toNat) (f : Packet)
      (hslot : bag.frags[m.fragID.toNat]? = some (some f)) : Added bag m (.ok (bag, none))
  | stored (hlen : bag.frags.length = m.fragTotal.toNat) (hslot : bag.frags[m.fragID.toNat]? = some none)
      (hmore : filled (bag.frags.set m.fragID.toNat (some m)) ≠ bag.frags.length) :
    Added bag m (.ok (⟨bag.frags.set m.fragID.toNat (some m), bag.count + 1⟩, none))
  | last (hlen : bag.frags.length = m.fragTotal.toNat) (hslot : bag.frags[m.fragID.toNat]? = some none)
      (first : Packet) (rest : List Packet)
      (hall : bag.frags.set m.fragID.toNat (some m) = (first :: rest).map some) :
    Added bag m (.ok (⟨[], bag.count + 1⟩, some (wholeOf first rest)))

theorem added_add {bag : PacketBag} (hbag : bag.Counted) (hid : m.fragID < m.fragTotal) :
    Added bag m (bag.add m) := by
  have hlt : m.fragID.toNat < m.fragTotal.toNat := UInt8.lt_iff_toNat_lt.mp hid
  unfold PacketBag.add
  by_cases hlen : m.fragTotal.toNat = bag.frags.length
  · rw [if_neg (not_not_intro hlen)]
    rcases hslot : bag.frags[m.fragID.toNat]? with _ | _ | f
    · have hout := getElem?_eq_none_iff.mp hslot
      omega
    · have hcount := (hbag.store hslot m).count
      dsimp only at hcount ⊢
      rw [hcount, length_set]
      by_cases hall : filled (bag.frags.set m.fragID.toNat (some m)) = bag.frags.length
      · obtain ⟨packets, hpackets⟩ := exists_map_some (hall.trans length_set.symm)
        rw [if_neg (not_not_intro hall), assemble, hpackets, mapM_deref]
        cases packets with
        | nil =>
          have hnil := congrArg length hpackets
          rw [length_set] at hnil
          change bag.frags.length = 0 at hnil
          omega
        | cons first rest => exact .last hlen.symm hslot first rest hpackets
      · rw [if_pos hall]
        exact .stored hlen.symm hslot hall
    · exact .duplicate hlen.symm f hslot
  · rw [if_pos hlen]
    exact .first (.symm hlen)

/-! ### Whole packets -/

def Holds (packets : List Packet) (k : UInt16) (bag : PacketBag) : Prop :=
  ∀ i f, bag.frags[i]? = some (some f) → f ∈ packets ∧ f.pktID = k ∧ f.fragID.toNat = i ∧
    f.fragTotal.toNat = bag.frags.length

/-- A returned packet came unfragmented, or its data are those of all the fragments of one
packet ID, in order. -/
def Whole (packets : List Packet) (r : Packet) : Prop :=
  (r ∈ packets ∧ r.fragTotal ≤ 1) ∨
    ∃ frags : List Packet, r.data = frags.flatMap Packet.data ∧
      ∀ (i : Nat) (f : Packet), frags[i]? = some f →
        f ∈ packets ∧ f.pktID = r.pktID ∧ f.fragID.toNat = i ∧ f.fragTotal.toNat = frags.length

section Holds

variable {packets : List Packet} {k : UInt16} {bag : PacketBag}

theorem holds_of_none (h : ∀ slot ∈ bag.frags, slot = none) : Holds packets k bag := by
  intro i f hf
  cases h _ (mem_of_getElem? hf)

variable {m : Packet}

theorem Holds.store (h : Holds packets k bag) (hm : m ∈ packets) (hid : m.pktID = k)
    (htotal : m.fragTotal.toNat = bag.frags.length) (count : UInt8) :
    Holds packets k ⟨bag.frags.set m.fragID.toNat (some m), count⟩ := by
  intro i f hf
  rw [length_set]
  rcases slot_of_set hf with ⟨hi, rfl⟩ | hf
  · exact ⟨hm, hid, hi, htotal⟩
  · exact h i f hf

theorem holds_first (hm : m ∈ packets) :
    Holds packets m.pktID ⟨(replicate m.fragTotal.toNat none).set m.fragID.toNat (some m), 1⟩ := by
  have hnone : Holds packets m.pktID ⟨replicate m.fragTotal.toNat none, 0⟩ :=
    holds_of_none fun slot hslot => eq_of_mem_replicate hslot
  exact hnone.store hm rfl length_replicate.symm 1

theorem Holds.whole {first : Packet} {rest : List Packet} (h : Holds packets k bag)
    (hall : bag.frags = (first :: rest).map some) :
    (wholeOf first rest).pktID = k ∧ Whole packets (wholeOf first rest) := by
  have hslot : ∀ (i : Nat) (f : Packet), (first :: rest)[i]? = some f →
      bag.frags[i]? = some (some f) := by
    intro i f hf
    rw [hall, getElem?_map, hf]
    rfl
  have hfirst : first.pktID = k := (h 0 first (hslot 0 first rfl)).2.1
  refine ⟨hfirst, .inr ⟨first :: rest, rfl, fun i f hf => ?_⟩⟩
  obtain ⟨hmem, hid, hnumber, htotal⟩ := h i f (hslot i f hf)
  rw [hall, length_map] at htotal
  exact ⟨hmem, hid.trans hfirst.symm, hnumber, htotal⟩

theorem Holds.add (h : Holds packets k bag) (hbag : bag.Counted) (hm : m ∈ packets)
    (hpkt : m.pktID = k) (hid : m.fragID < m.fragTotal) :
    ∃ bag' r, bag.add m = .ok (bag', r) ∧ (r = none → bag'.Counted ∧ Holds packets k bag') ∧
      ∀ p, r = some p → p.pktID = k ∧ Whole packets p := by
  have hadd := added_add hbag hid
  generalize bag.add m = x at hadd
  cases hadd with
  | first _ =>
    exact ⟨_, _, rfl, fun _ => ⟨counted_first hid, hpkt ▸ holds_first hm⟩, fun p hp => by cases hp⟩
  | duplicate _ _ _ => exact ⟨_, _, rfl, fun _ => ⟨hbag, h⟩, fun p hp => by cases hp⟩
  | stored hlen hslot _ =>
    exact ⟨_, _, rfl, fun _ => ⟨hbag.store hslot m, h.store hm hpkt hlen.symm _⟩,
      fun p hp => by cases hp⟩
  | last hlen _ first rest hall =>
    have hstored := h.store hm hpkt hlen.symm (bag.count + 1)
    refine ⟨_, _, rfl, fun hr => absurd hr (Option.some_ne_none _), fun p hp => ?_⟩
    cases hp
    exact hstored.whole hall

end Holds

/-! ### Runs -/

structure Arrival where
  now : Int
  packet : Packet

def DeFragger.feedAll (d : DeFragger) : List Arrival → Except Panic (List (Option Packet))
  | [] => .ok []
  | a :: arrivals => do
    let (d, r) ← d.feed a.now a.packet
    let rs ← d.feedAll arrivals
    return r :: rs

theorem feedAll_cons {d' : DeFragger} {a : Arrival} {arrivals : List Arrival} {r : Option Packet}
    (h : d.feed a.now a.packet = .ok (d', r)) :
    d.feedAll (a :: arrivals) = (do let rs ← d'.feedAll arrivals; return r :: rs) := by
  rw [DeFragger.feedAll, h]
  rfl

structure InOrder (packets : List Packet) (d : DeFragger) : Prop where
  aged : Aged d.lru
  bags : EachEntry (fun k bag => bag.Counted ∧ Holds packets k bag) d.lru

theorem inOrder_zero (packets : List Packet) : InOrder packets .zero :=
  ⟨aged_newAged (by decide), nofun⟩

section
variable (h : InOrder packets d)
include h

theorem InOrder.fetch (now : Int)
    (k : UInt16) :
    EachEntry (fun k bag => bag.Counted ∧ Holds packets k bag) (d.lru.getOrStore now k newPacketBag).2 ∧
      (d.lru.getOrStore now k newPacketBag).1.Counted ∧
        Holds packets k (d.lru.getOrStore now k newPacketBag).1 :=
  h.bags.getOrStore h.aged ⟨counted_newPacketBag, holds_of_none nofun⟩

theorem InOrder.add (now : Int)
    (hm : m ∈ packets) (hid : m.fragID < m.fragTotal) :
    ∃ bag r, (d.lru.getOrStore now m.pktID newPacketBag).1.add m = .ok (bag, r) ∧
      (r = none → bag.Counted ∧ Holds packets m.pktID bag) ∧ ∀ p, r = some p → p.pktID = m.pktID ∧
        Whole packets p := by
  obtain ⟨-, hbag, hholds⟩ := h.fetch now m.pktID
  exact hholds.add hbag hm rfl hid

theorem InOrder.feed (now : Int) (hm : m ∈ packets) :
    ∃ d' r, d.feed now m = .ok (d', r) ∧ InOrder packets d' ∧
      ∀ p, r = some p → p.pktID = m.pktID ∧ Whole packets p := by
  by_cases htotal : m.fragTotal ≤ 1
  · refine ⟨d, some m, by rw [DeFragger.feed, if_pos htotal], h, fun p hp => ?_⟩
    cases hp
    exact ⟨rfl, .inl ⟨hm, htotal⟩⟩
  by_cases hid : m.fragTotal ≤ m.fragID
  · exact ⟨d, none, by rw [DeFragger.feed, if_neg htotal, if_pos hid], h, fun p hp => by cases hp⟩
  obtain ⟨bag, r, hadd, hmore, hwhole⟩ := h.add now hm (not_le.mp hid)
  have haged := h.aged.getOrStore now m.pktID newPacketBag
  have hbags := (h.fetch now m.pktID).1
  cases r with
  | none =>
    exact ⟨_, none, feed_stored htotal hid hadd, ⟨haged.assign .., hbags.assign (hmore rfl)⟩,
      fun p hp => by cases hp⟩
  | some p => exact ⟨_, some p, feed_last htotal hid hadd, ⟨haged.delete _, hbags.delete _⟩, hwhole⟩

/-- Whatever arrives, every packet is answered, and the answers are whole packets that never mix
packet IDs. -/
theorem InOrder.feedAll
    {arrivals : List Arrival} (hall : ∀ a ∈ arrivals, a.packet ∈ packets) :
    ∃ rs, d.feedAll arrivals = .ok rs ∧
      List.Forall₂ (fun a r => ∀ p, r = some p → p.pktID = a.packet.pktID ∧
        Whole packets p) arrivals rs := by
  induction arrivals generalizing d with
  | nil => exact ⟨[], rfl, .nil⟩
  | cons a arrivals ih =>
    rw [forall_mem_cons] at hall
    obtain ⟨d', r, hfeed, h', hr⟩ := h.feed a.now hall.1
    obtain ⟨rs, hrs, hall'⟩ := ih h' hall.2
    exact ⟨r :: rs, by rw [feedAll_cons hfeed, hrs]; rfl, .cons hr hall'⟩

end

end Mihomo.Tuic
