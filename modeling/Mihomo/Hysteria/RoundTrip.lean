import Mihomo.Hysteria.Feed

/-!
# Fragments of a message come back as the message

`fragUDPMessage` cuts the payload into pieces of equal size. With at most 255 pieces the two counters
of a fragment are exact, and a fresh reassembler returns the message when the last missing piece
arrives.
-/

namespace Mihomo.Hysteria
open Go Lib List Nat

/-! ### The pieces -/

def piece (m : UdpMessage) (size : Nat) (fragCount : UInt8) (i : Nat) : UdpMessage :=
  { m with fragID := UInt8.ofNat i, fragCount, data := pieceAt size m.data i }

theorem fragLoop_eq (m : UdpMessage) {size : Nat} (hs : 0 < size) (fragCount : UInt8) (rounds : Nat)
    {i off : Nat} (hoff : off = min (i * size) m.data.length)
    (hrounds : pieceCount m.data.length size - i ≤ rounds) :
    fragLoop m size fragCount rounds off (UInt8.ofNat i) =
      (range' i (pieceCount m.data.length size - i)).map (piece m size fragCount) := by
  induction rounds generalizing i off with
  | zero =>
    rw [le_zero.mp hrounds]
    rfl
  | succ rounds ih =>
    rw [fragLoop]
    by_cases hi : i < pieceCount m.data.length size
    · obtain ⟨hlt, hdata, hnext⟩ := pieceAt_of_offset hs hoff hi
      obtain ⟨k, hk⟩ : ∃ k, pieceCount m.data.length size - i = k + 1 :=
        ⟨_, (Nat.sub_add_cancel (by omega)).symm⟩
      have hk' : k = pieceCount m.data.length size - (i + 1) := by omega
      have hid : .ofNat i + 1 = UInt8.ofNat (i + 1) := (UInt8.ofNat_add i 1).symm
      rw [if_pos hlt, hk, range'_succ, map_cons, hk', ← ih hnext (by omega)]
      simp only [hid, hdata, piece]
    · rw [if_neg (offset_of_pieceCount_le hs hoff (not_lt.mp hi)).not_lt,
        Nat.sub_eq_zero_of_le (not_lt.mp hi)]
      rfl

def payloadSize (m : UdpMessage) (maxSize : Int) : Nat := (maxSize - m.headerSize).toNat

variable {maxSize : Int} {m : UdpMessage}

theorem fragUDPMessage_eq (hmax : m.headerSize < maxSize)
    (hsize : maxSize < m.size) :
    fragUDPMessage m maxSize = .ok ((range (pieceCount m.data.length (payloadSize m maxSize))).map
      (piece m (payloadSize m maxSize)
        (UInt8.ofNat (pieceCount m.data.length (payloadSize m maxSize))))) := by
  have hs : 0 < payloadSize m maxSize := by
    unfold payloadSize
    omega
  have hloop :=
    fragLoop_eq m hs (.ofNat (pieceCount m.data.length (payloadSize m maxSize))) m.data.length
    (show 0 = min (0 * _) _ by rw [zero_mul, Nat.zero_min]) (pieceCount_le m.data.length hs)
  rw [← range_eq_range'] at hloop
  rw [fragUDPMessage, if_neg (not_le.mpr hsize)]
  rw [if_neg (by omega), if_neg (by omega)]
  exact congrArg Except.ok hloop

theorem length_pack_piece (hmax : m.headerSize < maxSize) (fragCount : UInt8) (i : Nat) :
    ((piece m (payloadSize m maxSize) fragCount i).pack.length : Int) ≤ maxSize := by
  have hlen := length_pieceAt (payloadSize m maxSize) m.data i
  rw [UdpMessage.length_pack]
  change ((m.headerSize + (pieceAt (payloadSize m maxSize) m.data i).length : Nat) : Int) ≤ maxSize
  rw [hlen]
  unfold payloadSize
  omega

/-! ### Feeding pieces -/

def Defragger.feedAll (d : Defragger) :
    List UdpMessage → Except Panic (Defragger × List (Option UdpMessage))
  | [] => .ok (d, [])
  | m :: ms => do
    let (d, r) ← d.feed m
    let (d, rs) ← d.feedAll ms
    return (d, r :: rs)

variable {rs : List (Option UdpMessage)} {ms arrivals : List UdpMessage} {d d' d'' : Defragger}

theorem feedAll_cons {r : Option UdpMessage}
    (h : d.feed m = .ok (d', r))
    (hs : d'.feedAll ms = .ok (d'', rs)) : d.feedAll (m :: ms) = .ok (d'', r :: rs) := by
  rw [Defragger.feedAll, h]
  change (do let (d, rs) ← d'.feedAll ms; return (d, r :: rs) : Except Panic _) = _
  rw [hs]
  rfl

theorem feedAll_append {ms' : List UdpMessage}
    {rs' : List (Option UdpMessage)} (h : d.feedAll ms = .ok (d', rs))
    (h' : d'.feedAll ms' = .ok (d'', rs')) : d.feedAll (ms ++ ms') = .ok (d'', rs ++ rs') := by
  induction ms generalizing d rs with
  | nil =>
    cases h
    exact h'
  | cons m ms ih =>
    cases hf : d.feed m with
    | error e =>
      rw [Defragger.feedAll, hf] at h
      cases h
    | ok p =>
      cases hrest : p.1.feedAll ms with
      | error e =>
        rw [Defragger.feedAll, hf] at h
        change (do let (d, rs) ← p.1.feedAll ms; return (d, p.2 :: rs) : Except Panic _) = _ at h
        rw [hrest] at h
        cases h
      | ok q =>
        rw [feedAll_cons hf hrest] at h
        cases h
        exact feedAll_cons hf (ih hrest)

def outputs (arrivals : List UdpMessage) : Except Panic (List (Option UdpMessage)) :=
  (·.2) <$> Defragger.zero.feedAll arrivals

section Pieces

variable (m : UdpMessage) (size n : Nat)

abbrev part (i : Nat) : UdpMessage := piece m size (UInt8.ofNat n) i

structure Collecting (seen : Finset Nat) (d : Defragger) : Prop where
  counted : Counted d
  missing : ¬ Complete n seen
  slots : (seen = ∅ ∧ d.msgID ≠ m.msgID) ∨ (d.msgID = m.msgID ∧ d.frags = slotsOf (part m size n) n seen)

structure Collected (d : Defragger) : Prop where
  counted : Counted d
  msgID : d.msgID = m.msgID
  length : d.frags.length = n
  full : filled d.frags = n

def whole : UdpMessage := { m with fragID := 0, fragCount := 1 }

inductive Collects (seen : Finset Nat) (i : Nat) :
    Except Panic (Defragger × Option UdpMessage) → Prop where
  | done {d : Defragger} (hdone : Complete n (insert i seen)) (h : Collected m n d) :
      Collects seen i (.ok (d, some (whole m)))
  | more {d : Defragger} (h : Collecting m size n (insert i seen) d) : Collects seen i (.ok (d, none))

variable {n} {seen : Finset Nat} {d : Defragger} {i : Nat}

theorem part_fragID (hmax : n ≤ 255) (hi : i < n) : (part m size n i).fragID.toNat = i :=
  UInt8.toNat_ofNat_of_lt' (by change _ < 256; omega)

theorem part_fragCount (i : Nat) (hmax : n ≤ 255) : (part m size n i).fragCount.toNat = n :=
  UInt8.toNat_ofNat_of_lt' (lt_succ_of_le hmax)

variable {m size}

theorem dataOf_complete (hs : 0 < size) (hn : n = pieceCount m.data.length size) (h : Complete n seen) :
    dataOf (slotsOf (part m size n) n seen) = m.data := by
  rw [slotsOf_complete h, dataOf, flatMap_map]
  rw [hn]
  exact flatten_all_pieces hs m.data

variable (hs : 0 < size) (hn : n = pieceCount m.data.length size) (htwo : 2 ≤ n) (hmax : n ≤ 255)
include hs hn htwo hmax

theorem Collecting.feed (h : Collecting m size n seen d) (hi : i < n) :
    Collects m size n seen i (d.feed (part m size n i)) := by
  have hfragID := part_fragID m size hmax hi
  have hfragCount := part_fragCount m size i hmax
  have hfed := fed_feed h.counted (part m size n i)
  have hcounted : ∀ d' r, d.feed (part m size n i) = .ok (d', r) → Counted d' :=
    fun _ _ => h.counted.feed
  -- once a fragment continues the message, the slots are those of `seen`
  have hslots : (part m size n i).msgID = d.msgID → d.frags = slotsOf (part m size n) n seen := fun he =>
    (h.slots.resolve_left fun hl => hl.2 he.symm).2
  generalize d.feed (part m size n i) = x at hfed hcounted ⊢
  cases hfed with
  | unfragmented hcount =>
    rw [UInt8.le_iff_toNat_le, UInt8.toNat_one] at hcount
    omega
  | stray hid =>
    rw [UInt8.le_iff_toNat_le] at hid
    omega
  | first _ _ hmsg =>
    obtain ⟨rfl, -⟩ := h.slots.resolve_right fun hr => hmsg hr.1.symm
    refine .more ⟨hcounted _ _ rfl, not_complete_first htwo i, .inr ⟨rfl, ?_⟩⟩
    rw [← set_slotsOf hi, slotsOf_empty, hfragID, hfragCount]
  | noSlot _ _ hmsg hslot =>
    rw [hslots hmsg, length_slotsOf] at hslot
    omega
  | duplicate hmsg f hslot =>
    have hmem : i ∈ seen := by
      rw [hslots hmsg, hfragID, getElem?_slotsOf _ _ hi] at hslot
      by_contra hno
      rw [if_neg hno] at hslot
      cases hslot
    refine .more ?_
    rw [Finset.insert_eq_of_mem hmem]
    exact h
  | stored _ _ hmsg hslot hmore =>
    rw [hslots hmsg, hfragID, set_slotsOf hi, length_slotsOf, Ne, filled_slotsOf_eq_iff] at hmore
    refine .more ⟨hcounted _ _ rfl, hmore, .inr ⟨hmsg.symm, ?_⟩⟩
    rw [hslots hmsg, hfragID, set_slotsOf hi]
  | last _ _ hmsg hslot hall w hw =>
    have hset : d.frags.set (part m size n i).fragID.toNat (some (part m size n i)) =
        slotsOf (part m size n) n (insert i seen) := by
      rw [hslots hmsg, hfragID, set_slotsOf hi]
    have hlen : d.frags.length = n := by rw [hslots hmsg, length_slotsOf]
    have hdone : Complete n (insert i seen) := by
      rw [hset, hlen, filled_slotsOf_eq_iff] at hall
      exact hall
    obtain rfl : w = whole m := by
      rw [hw, hset, dataOf_complete hs hn hdone]
      rfl
    refine .done hdone ⟨hcounted _ _ rfl, hmsg.symm, ?_, ?_⟩
    · rw [length_set, length_set, hlen]
    · rw [filled_set_of_filled (by rw [length_set]; exact hall), length_set, hlen]

omit hs hn in
theorem Collected.feed (h : Collected m n d) (hi : i < n) :
    d.feed (part m size n i) = .ok (d, none) := by
  have hfragID := part_fragID m size hmax hi
  have hfragCount := part_fragCount m size i hmax
  have hfull : filled d.frags = d.frags.length := h.full.trans h.length.symm
  have hfed := fed_feed h.counted (part m size n i)
  generalize d.feed (part m size n i) = x at hfed ⊢
  cases hfed with
  | unfragmented hcount =>
    rw [UInt8.le_iff_toNat_le, UInt8.toNat_one] at hcount
    omega
  | stray | duplicate => rfl
  | first _ _ hmsg => exact absurd h.msgID.symm hmsg
  | noSlot _ _ _ hslot =>
    rw [h.length] at hslot
    omega
  | stored _ _ _ hslot _ | last _ _ _ hslot _ _ _ => exact absurd hfull (filled_ne_length hslot)

variable {is : List Nat}

theorem Collecting.feedAll (h : Collecting m size n seen d) (his : ∀ i ∈ is, i < n)
    (hmore : ¬ Complete n (seen ∪ is.toFinset)) :
    ∃ d', d.feedAll (is.map (part m size n)) = .ok (d', replicate is.length none) ∧
      Collecting m size n (seen ∪ is.toFinset) d' := by
  induction is generalizing seen d with
  | nil => exact ⟨d, rfl, by simpa using h⟩
  | cons i is ih =>
    rw [forall_mem_cons] at his
    have hunion : seen ∪ (i :: is).toFinset = insert i seen ∪ is.toFinset := by
      rw [toFinset_cons, Finset.union_insert, Finset.insert_union]
    rw [hunion] at hmore ⊢
    have hstep := h.feed hs hn htwo hmax his.1
    generalize hx : d.feed (part m size n i) = x at hstep
    cases hstep with
    | done hdone _ => exact absurd (fun j hj => Finset.mem_union_left _ (hdone j hj)) hmore
    | more h' =>
      obtain ⟨d', hrest, hend⟩ := ih h' his.2 hmore
      exact ⟨d', feedAll_cons hx hrest, hend⟩

omit hs hn in
theorem Collected.feedAll (size : Nat) (h : Collected m n d) (his : ∀ i ∈ is, i < n) :
    d.feedAll (is.map (part m size n)) = .ok (d, replicate is.length none) := by
  induction is with
  | nil => rfl
  | cons i is ih =>
    rw [forall_mem_cons] at his
    exact feedAll_cons (h.feed htwo hmax his.1) (ih his.2)

variable {before : List Nat}

theorem Collecting.feedAll_last (h : Collecting m size n ∅ d) {after : List Nat}
    (hbefore : ∀ i ∈ before, i < n) (hi : i < n) (hafter : ∀ i ∈ after, i < n)
    (hmore : ¬ Complete n before.toFinset) (hdone : Complete n (insert i before.toFinset)) :
    ∃ d', d.feedAll ((before ++ i :: after).map (part m size n)) =
      .ok (d',
        replicate before.length none ++ some (whole m) :: replicate after.length none) := by
  obtain ⟨d₁, hrun, hcollecting⟩ := h.feedAll hs hn htwo hmax hbefore (by rwa [Finset.empty_union])
  have hstep := hcollecting.feed hs hn htwo hmax hi
  generalize hx : d₁.feed (part m size n i) = x at hstep
  cases hstep with
  | more h' => exact absurd hdone h'.missing
  | done _ hcollected =>
    have hrest := hcollected.feedAll htwo hmax size hafter
    refine ⟨_, .trans ?_ (feedAll_append hrun (feedAll_cons hx hrest))⟩
    rw [map_append, map_cons]

omit hs hn htwo in
theorem part_injective : ∀ i < n, ∀ j < n, part m size n i = part m size n j → i = j := by
  intro i hi j hj h
  have hid : (part m size n i).fragID.toNat = (part m size n j).fragID.toNat := by rw [h]
  rwa [part_fragID m size hmax hi, part_fragID m size hmax hj] at hid

omit hs hn htwo in
theorem snoc_subset_iff (hbefore : ∀ i ∈ before, i < n) (hi : i < n) :
    (range n).map (part m size n) ⊆ before.map (part m size n) ++ [part m size n i] ↔
      Complete n (insert i before.toFinset) := by
  have hsnoc : before.map (part m size n) ++ [part m size n i] =
      (before ++ [i]).map (part m size n) := by simp
  have hlt : ∀ j ∈ before ++ [i], j < n := forall_mem_append.mpr ⟨hbefore, by simpa using hi⟩
  have hset : (before ++ [i]).toFinset = insert i before.toFinset := by
    ext j
    simp
  rw [hsnoc, subset_iff_complete (part_injective hmax) hlt, hset]

theorem outputs_of_all (hzero : Collecting m size n ∅ .zero) (his : ∀ i ∈ is, i < n)
    (hall : (range n).map (part m size n) ⊆ is.map (part m size n)) :
    ∃ before last after, is.map (part m size n) = before ++ last :: after ∧
      ¬ (range n).map (part m size n) ⊆ before ∧
        (range n).map (part m size n) ⊆ before ++ [last] ∧
      outputs (is.map (part m size n)) =
        .ok (replicate before.length none ++
          some (whole m) :: replicate after.length none) := by
  have hcomplete := (subset_iff_complete (part_injective hmax) his).mp hall
  obtain ⟨before, i, after, rfl, hmore, hdone⟩ :=
    exists_last_missing (show 0 < n by omega) fun i hi => mem_toFinset.mp (hcomplete i hi)
  rw [forall_mem_append, forall_mem_cons] at his
  obtain ⟨d, hrun⟩ := hzero.feedAll_last hs hn htwo hmax his.1 his.2.1 his.2.2 hmore hdone
  refine ⟨before.map (part m size n), part m size n i, after.map (part m size n), by simp, ?_, ?_, ?_⟩
  · rwa [subset_iff_complete (part_injective hmax) his.1]
  · exact (snoc_subset_iff hmax his.1 his.2.1).mpr hdone
  · rw [outputs, hrun, length_map, length_map]
    rfl

end Pieces

theorem collecting_zero (hid : m.msgID ≠ 0) (size : Nat) {n : Nat} (hn : 0 < n) :
    Collecting m size n ∅ .zero :=
  ⟨counted_zero, fun h => absurd (h 0 hn) (Finset.notMem_empty 0), .inl ⟨rfl, fun h => hid h.symm⟩⟩

theorem feedAll_unfragmented (hm : m.fragCount ≤ 1)
    (h : ∀ a ∈ arrivals, a = m) (d : Defragger) : d.feedAll arrivals = .ok (d, arrivals.map some) := by
  induction arrivals with
  | nil => rfl
  | cons a arrivals ih =>
    rw [forall_mem_cons] at h
    refine feedAll_cons ?_ (ih h.2)
    rw [h.1, Defragger.feed, if_pos hm]

theorem outputs_unfragmented (hm : m.fragCount ≤ 1)
    (h : ∀ a ∈ arrivals, a = m) : outputs arrivals = .ok (arrivals.map fun _ => some m) := by
  have hmap : arrivals.map some = arrivals.map fun _ => some m :=
    map_congr_left fun a ha => by rw [h a ha]
  rw [outputs, feedAll_unfragmented hm h, ← hmap]
  rfl

theorem two_le_pieceCount (hmax : m.headerSize < maxSize)
    (hfits : ¬ (m.size : Int) ≤ maxSize) : 2 ≤ pieceCount m.data.length (payloadSize m maxSize) := by
  have hs : 0 < payloadSize m maxSize := by
    unfold payloadSize
    omega
  have hlt : payloadSize m maxSize < m.data.length := by
    unfold payloadSize
    unfold UdpMessage.size at hfits
    omega
  rw [succ_le_iff, lt_pieceCount_iff hs, one_mul]
  exact hlt

/-- The pieces of a message are no longer than `maxSize`. An unfragmented message is returned
at every arrival; up to 255 fragments, arriving in any order and any number of times, are
returned as the message once, at the arrival of the last missing one, and never before they
have all arrived. -/
theorem fragments_reassemble (m : UdpMessage) (maxSize : Int) (hmax : m.headerSize < maxSize)
    (hid : m.msgID ≠ 0) (hcount : m.fragCount ≤ 1) :
    ∃ pieces, fragUDPMessage m maxSize = .ok pieces ∧ (∀ p ∈ pieces, (p.pack.length : Int) ≤ maxSize) ∧
      (pieces.length ≤ 255 → ∀ arrivals, (∀ a ∈ arrivals, a ∈ pieces) →
        if m.size ≤ maxSize then outputs arrivals = .ok (arrivals.map fun _ => some m)
        else if pieces ⊆ arrivals then
          ∃ before last after, arrivals = before ++ last :: after ∧
            ¬ pieces ⊆ before ∧ pieces ⊆ before ++ [last] ∧
            outputs arrivals = .ok (List.replicate before.length none ++
              some { m with fragID := 0, fragCount := 1 } :: List.replicate after.length none)
        else outputs arrivals = .ok (List.replicate arrivals.length none)) := by
  by_cases hfits : (m.size : Int) ≤ maxSize
  · refine ⟨[m], by rw [fragUDPMessage, if_pos hfits], ?_, fun _ arrivals harr => ?_⟩
    · intro p hp
      rw [List.mem_singleton.mp hp, UdpMessage.length_pack]
      exact hfits
    · rw [if_pos hfits]
      exact outputs_unfragmented hcount fun a ha => List.mem_singleton.mp (harr a ha)
  have hs : 0 < payloadSize m maxSize := by
    unfold payloadSize
    omega
  obtain ⟨n, hn⟩ : ∃ n, n = pieceCount m.data.length (payloadSize m maxSize) := ⟨_, rfl⟩
  have htwo : 2 ≤ n := hn ▸ two_le_pieceCount hmax hfits
  have hpieces := fragUDPMessage_eq hmax (not_le.mp hfits)
  rw [← hn] at hpieces
  refine ⟨_, hpieces, ?_, fun hle arrivals harr => ?_⟩
  · intro p hp
    obtain ⟨i, -, rfl⟩ := List.mem_map.mp hp
    exact length_pack_piece hmax _ i
  · rw [List.length_map, List.length_range] at hle
    obtain ⟨is, his, rfl⟩ := exists_indices harr
    have hzero := collecting_zero hid (payloadSize m maxSize) (show 0 < n by omega)
    split_ifs with hall
    · exact outputs_of_all hs hn htwo hle hzero his hall
    · rw [subset_iff_complete (part_injective hle) his] at hall
      obtain ⟨d, hrun, -⟩ := hzero.feedAll hs hn htwo hle his (by rwa [Finset.empty_union])
      rw [outputs, hrun, List.length_map]
      rfl

def sample (data : Str) : UdpMessage := ⟨1, ascii "h", 53, 7, 0, 1, data⟩

/-- Two copies of a message that was not fragmented are both returned. A payload of 256 bytes
in fragments of one byte has a fragment count of 256, which is written as 0: the fragments
are returned as messages of their own. -/
theorem fragments_not_reassembled :
    fragUDPMessage (sample [1]) 100 = .ok [sample [1]] ∧
      outputs [sample [1], sample [1]] = .ok [some (sample [1]), some (sample [1])] ∧
      ((fragUDPMessage (sample (List.replicate 256 1)) 16).toOption.bind fun pieces =>
        (outputs pieces).toOption.map fun rs => rs.map fun r => r.map (·.data)) =
        some (List.replicate 256 (some [1])) := by
  refine ⟨rfl, rfl, ?_⟩
  decide +kernel

theorem fragments_reassemble_two :
    ∃ pieces, fragUDPMessage (sample [1, 2, 3]) 17 = .ok pieces ∧
      (∀ p ∈ pieces, (p.pack.length : Int) ≤ 17) ∧
      (pieces.length ≤ 255 → ∀ arrivals, (∀ a ∈ arrivals, a ∈ pieces) →
        if (sample [1, 2, 3]).size ≤ (17 : Int) then
          outputs arrivals = .ok (arrivals.map fun _ => some (sample [1, 2, 3]))
        else if pieces ⊆ arrivals then
          ∃ before last after, arrivals = before ++ last :: after ∧
            ¬ pieces ⊆ before ∧ pieces ⊆ before ++ [last] ∧
            outputs arrivals = .ok (List.replicate before.length none ++
              some { sample [1, 2, 3] with fragID := 0, fragCount := 1 } ::
                List.replicate after.length none)
        else outputs arrivals = .ok (List.replicate arrivals.length none)) :=
  fragments_reassemble (sample [1, 2, 3]) 17 (by decide) (by decide) (by decide)

end Mihomo.Hysteria
