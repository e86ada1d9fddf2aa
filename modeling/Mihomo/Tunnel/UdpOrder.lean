import Mihomo.Tunnel.UdpCustody

/-!
# Groups, workers and the order of the writes

A key waits for a worker or has one exactly once, and as long as the loop goes on it has a group of
packets. The packets of a key that were written, those in the hand of the loop, in the group of the key
and in the channel follow each other in the order in which they were put in the channel.
-/

namespace Mihomo.Tunnel.Udp
open Go Net Lib List AList Option

universe u
variable {P : Type u}

/-- The packets in the hand of the loop that are still to be written: those of a group, and the one
that was received last. -/
def Loop.ahead : Loop P → List P
  | writing packet rest => packet :: rest.getD []
  | wrote _ rest => rest.getD []
  | group rest => rest
  | _ => []

def Loop.behind : Loop P → List P
  | received packet => [packet]
  | _ => []

namespace Sender
variable {c : Setting P} {s t : Sender P}

/-! ### Groups and workers -/

def resolving (s : Sender P) : List PrepareKey := s.waiting ++ s.workers.map Worker.key

structure Grouped (c : Setting P) (s : Sender P) : Prop where
  once : s.resolving.Nodup
  group : s.loop.ended = false → ∀ k ∈ s.resolving, ∃ packet rest,
    s.pending.lookup k = some (packet :: rest)
  own : ∀ {k packets}, s.pending.lookup k = some packets → ∀ packet ∈ packets, key c packet = k

theorem Grouped.of_sublist (h : Grouped c s) (hpending : t.pending = s.pending)
    (hkeys : t.resolving.Subperm s.resolving)
    (hended : t.loop.ended = false → s.loop.ended = false) : Grouped c t where
  once := by
    obtain ⟨keys, hperm, hsub⟩ := hkeys
    exact hperm.nodup_iff.mp (hsub.nodup h.once)
  group hgoing k hk := hpending ▸ h.group (hended hgoing) k (hkeys.subset hk)
  own := hpending ▸ h.own

variable {packets : List P} {k : PrepareKey} {worker : Worker} {packet : P}
  {found : List P} {k' : PrepareKey} {pending : AList fun _ : PrepareKey => List P}

theorem lookup_insert_cases
    (h : (pending.insert k packets).lookup k' = some found) :
    (k' = k ∧ found = packets) ∨ (k' ≠ k ∧ pending.lookup k' = some found) := by
  by_cases hk : k' = k
  · subst hk
    rw [lookup_insert] at h
    cases h
    exact .inl ⟨rfl, rfl⟩
  · rw [lookup_insert_ne hk] at h
    exact .inr ⟨hk, h⟩

theorem lookup_erase_cases
    (h : (pending.erase k).lookup k' = some found) :
    k' ≠ k ∧ pending.lookup k' = some found := by
  by_cases hk : k' = k
  · subst hk
    rw [lookup_erase] at h
    cases h
  · rw [lookup_erase_ne hk] at h
    exact ⟨hk, h⟩

theorem resolving_of_worker (h : worker ∈ s.workers) :
    s.resolving.Perm (worker.key :: (s.waiting ++ (s.workers.erase worker).map Worker.key)) :=
  (((perm_cons_erase h).map Worker.key).append_left _).trans perm_middle

theorem Grouped.join (h : Grouped c s)
    (hloop : s.loop = .received packet) (hgroup : s.pending.lookup (key c packet) = some packets) :
    Grouped c { s with
      pending := s.pending.insert (key c packet) (packets ++ [packet])
      loop := .select } where
  once := h.once
  group _ k hk := by
    by_cases heq : k = key c packet
    · subst heq
      obtain ⟨first, rest, hrest⟩ : ∃ first rest, packets ++ [packet] = first :: rest :=
        exists_cons_of_ne_nil (by simp)
      exact ⟨first, rest, (lookup_insert _).trans (congrArg some hrest)⟩
    · obtain ⟨first, rest, hlookup⟩ := h.group (hloop ▸ rfl) k hk
      exact ⟨first, rest, (lookup_insert_ne heq).trans hlookup⟩
  own {k found} hlookup := by
    rcases lookup_insert_cases hlookup with ⟨rfl, rfl⟩ | ⟨-, hbefore⟩
    · exact forall_mem_append.mpr ⟨h.own hgroup, forall_mem_singleton.mpr rfl⟩
    · exact h.own hbefore

theorem Grouped.gather (h : Grouped c s) (hloop : s.loop = .received packet)
    (hgroup : s.pending.lookup (key c packet) = none) :
    Grouped c { s with
      pending := s.pending.insert (key c packet) [packet]
      waiting := s.waiting ++ [key c packet]
      loop := .starting } := by
  have hgoing : s.loop.ended = false := hloop ▸ rfl
  have hperm : (s.waiting ++ [key c packet] ++ s.workers.map Worker.key).Perm
      (key c packet :: s.resolving) := by
    rw [append_assoc]
    exact perm_middle
  -- a key that is being resolved has a group
  have hnew : key c packet ∉ s.resolving := by
    intro hmem
    obtain ⟨first, rest, hlookup⟩ := h.group hgoing _ hmem
    cases hgroup.symm.trans hlookup
  constructor
  · exact hperm.nodup_iff.mpr (nodup_cons.mpr ⟨hnew, h.once⟩)
  · intro _ k hk
    by_cases heq : k = key c packet
    · subst heq
      exact ⟨packet, [], lookup_insert _⟩
    · have hold : k ∈ s.resolving := (mem_cons.mp (hperm.subset hk)).resolve_left heq
      obtain ⟨first, rest, hlookup⟩ := h.group hgoing k hold
      exact ⟨first, rest, (lookup_insert_ne heq).trans hlookup⟩
  · intro k found hlookup
    rcases lookup_insert_cases hlookup with ⟨rfl, rfl⟩ | ⟨-, hbefore⟩
    · exact forall_mem_singleton.mpr rfl
    · exact h.own hbefore

theorem Grouped.result (h : Grouped c s) (hloop : s.loop = .select)
    (hworker : worker ∈ s.workers) (loop : Loop P) (mapping : Mapping) :
    Grouped c { s with
      active := s.active - 1
      workers := s.workers.erase worker
      pending := s.pending.erase worker.key
      mapping
      loop } := by
  have hperm := resolving_of_worker hworker
  have hnodup := nodup_cons.mp (hperm.nodup_iff.mp h.once)
  constructor
  · exact hnodup.2
  · intro _ k hk
    have hne : k ≠ worker.key := fun heq => hnodup.1 (heq ▸ hk)
    obtain ⟨first, rest, hlookup⟩ := h.group (hloop ▸ rfl) k
      (hperm.symm.subset (mem_cons_of_mem _ hk))
    exact ⟨first, rest, (lookup_erase_ne hne).trans hlookup⟩
  · intro k found hlookup
    exact h.own (lookup_erase_cases hlookup).2

section
variable [DecidableEq P]

theorem Grouped.change (h : Grouped c s) (hchange : Change c s t) : Grouped c t := by
  cases hchange with
  | join hloop hgroup => exact h.join hloop hgroup
  | gather hloop hgroup => exact h.gather hloop hgroup
  | result hloop hworker hgroup loop hnext mapping => exact h.result hloop hworker loop mapping
  | @start k rest hloop hwaiting =>
    refine h.of_sublist rfl ?_ fun _ => hloop ▸ rfl
    unfold resolving
    rw [hwaiting, map_append]
    refine (perm_iff_count.mpr fun x => ?_).subperm
    simp only [count_append, count_cons, map_cons, map_nil, count_nil]
    omega
  | dropPending hloop hgroup =>
    refine ⟨h.once, fun hgoing => absurd hgoing (hloop ▸ nofun), fun {k found} hlookup => ?_⟩
    rcases lookup_insert_cases hlookup with ⟨rfl, rfl⟩ | ⟨-, hbefore⟩
    · exact fun other hother => h.own hgroup other (mem_cons_of_mem _ hother)
    · exact h.own hbefore
  | forget hloop =>
    refine ⟨h.once, fun hgoing => absurd hgoing (hloop ▸ nofun), fun {k found} hlookup => ?_⟩
    exact h.own (lookup_erase_cases hlookup).2
  | resolve hmem =>
    refine h.of_sublist rfl ?_ id
    exact (perm_middle.trans (resolving_of_worker hmem).symm).subperm
  | leave hmem =>
    refine h.of_sublist rfl ?_ id
    exact ((sublist_cons_self ..).subperm).trans (resolving_of_worker hmem).symm.subperm
  | enter | check | rejectEntered | takeSlot | rejectChecked | put | refuse | lock | cancel |
    closerDrop | closerTake | closerEnd | map => exact { h with }
  | done | giveUp | exit | drainDrop | drainTake | drainEnd => exact ⟨h.once, nofun, h.own⟩
  | take hloop | direct hloop | write hloop | skip hloop | dropWritten hloop | dropGroup hloop
  | next hloop | dropFailed hloop | started hloop =>
    exact h.of_sublist rfl (.refl _) fun _ => hloop ▸ rfl
  | finish hloop =>
    rcases hloop with hloop | hloop <;>
      exact h.of_sublist rfl (.refl _) fun _ => hloop ▸ rfl

end

/-! ### The calls of `Send` -/

structure Called (s : Sender P) : Prop where
  calls : (s.returned ++ (s.entered ++ (s.checked ++ s.slotted))).Perm s.books.given
  earlier : ∀ packet, s.earlier packet ⊆ s.returned
  accepted : s.accepted ⊆ s.books.given
  order : s.accepted.Pairwise fun a b => b ∉ s.earlier a

theorem Called.ret (h : Called s) (hgiven : t.books.given = s.books.given)
    (hreturned : t.returned = packet :: s.returned)
    (hinside : (s.entered ++ (s.checked ++ s.slotted)).Perm
      (packet :: (t.entered ++ (t.checked ++ t.slotted))))
    (hearlier : t.earlier = s.earlier) (haccepted : t.accepted = s.accepted) : Called t where
  calls := by
    rw [hgiven, hreturned]
    exact (perm_middle.symm.trans (hinside.symm.append_left _)).trans h.calls
  earlier other := by
    rw [hearlier, hreturned]
    exact subset_cons_of_subset _ (h.earlier other)
  accepted := by
    rw [haccepted, hgiven]
    exact h.accepted
  order := by
    rw [haccepted, hearlier]
    exact h.order

section
variable [DecidableEq P]

theorem drop_given (books : Books P) (packet : P) : (books.drop packet).given = books.given := by
  unfold Books.drop
  split <;> rfl

theorem Called.put {packet : P} (h : Called s) (honce : s.books.given.Nodup)
    (hmem : packet ∈ s.slotted) :
    Called { s with
      slotted := s.slotted.erase packet
      ch := s.ch ++ [packet]
      accepted := s.accepted ++ [packet]
      returned := packet :: s.returned } := by
  have hinside : packet ∈ s.entered ++ (s.checked ++ s.slotted) :=
    mem_append_right _ (mem_append_right _ hmem)
  have hnew : packet ∉ s.returned := fun hreturned =>
    (nodup_append.mp (h.calls.nodup_iff.mpr honce)).2.2 packet hreturned packet hinside rfl
  constructor
  · refine .trans (perm_iff_count.mpr fun x => ?_) h.calls
    have hcount := (perm_cons_erase hmem).count_eq x
    simp only [count_append, count_cons] at hcount ⊢
    omega
  · exact fun other => subset_cons_of_subset _ (h.earlier other)
  · refine append_subset.mpr ⟨h.accepted, forall_mem_singleton.mpr ?_⟩
    exact h.calls.subset (mem_append_right _ hinside)
  · refine pairwise_append.mpr ⟨h.order, pairwise_singleton .., fun a _ b hb => ?_⟩
    rw [mem_singleton.mp hb]
    exact fun hearlier => hnew (h.earlier a hearlier)

theorem Called.enter {packet : P} (h : Called s) (hfresh : packet ∉ s.books.given) :
    Called { s with
      books := s.books.give packet
      entered := packet :: s.entered
      earlier := Function.update s.earlier packet s.returned } := by
  constructor
  · exact perm_middle.trans (h.calls.cons packet)
  · intro other
    show Function.update s.earlier packet s.returned other ⊆ s.returned
    by_cases hother : other = packet
    · subst hother
      rw [Function.update_self]
      exact .refl _
    · rw [Function.update_of_ne hother]
      exact h.earlier other
  · exact subset_cons_of_subset _ h.accepted
  · refine h.order.imp_of_mem fun {a b} ha _ hab => ?_
    have hne : a ≠ packet := fun heq => hfresh (heq ▸ h.accepted ha)
    show b ∉ Function.update s.earlier packet s.returned a
    rwa [Function.update_of_ne hne]

theorem Called.change (h : Called s) (honce : s.books.given.Nodup) (hchange : Change c s t) :
    Called t := by
  cases hchange with
  | enter hidle hfresh => exact h.enter hfresh
  | check hmem =>
    refine ⟨(List.Perm.append_left _ ?_).trans h.calls, h.earlier, h.accepted, h.order⟩
    exact perm_middle.trans ((perm_cons_erase hmem).symm.append_right _)
  | rejectEntered hmem =>
    exact h.ret rfl rfl ((perm_cons_erase hmem).append_right _) rfl rfl
  | takeSlot hmem =>
    refine ⟨(((List.Perm.append_left _ ?_).append_left _).trans h.calls), h.earlier, h.accepted, h.order⟩
    exact perm_middle.trans ((perm_cons_erase hmem).symm.append_right _)
  | rejectChecked hmem =>
    refine h.ret rfl rfl ?_ rfl rfl
    exact (((perm_cons_erase hmem).append_right _).append_left _).trans perm_middle
  | put hmem => exact h.put honce hmem
  | refuse hmem =>
    refine h.ret (drop_given ..) rfl ?_ rfl rfl
    refine (((perm_cons_erase hmem).append_left _).trans perm_middle).append_left _ |>.trans ?_
    exact perm_middle
  | closerDrop | giveUp | dropWritten | dropGroup | dropFailed | dropPending | drainDrop =>
    refine ⟨h.calls.trans (.of_eq (drop_given ..).symm), h.earlier, fun other hother => ?_, h.order⟩
    exact (congrArg (other ∈ ·) (drop_given ..)).mpr (h.accepted hother)
  | lock | cancel | closerTake | closerEnd | done | take | join | direct | gather | write | skip | next |
    finish | start | started | result | forget | exit | drainTake | drainEnd | resolve | leave | map =>
    exact { h with }

end

/-! ### The order of the writes -/

def ofKey (c : Setting P) (k : PrepareKey) (packets : List P) : List P :=
  packets.filter fun packet => key c packet = k

theorem ofKey_append (k : PrepareKey) (packets packets' : List P) :
    ofKey c k (packets ++ packets') = ofKey c k packets ++ ofKey c k packets' :=
  filter_append _ _

theorem ofKey_cons (k : PrepareKey) (packet : P) (packets : List P) :
    ofKey c k (packet :: packets) = ofKey c k [packet] ++ ofKey c k packets :=
  ofKey_append k [packet] packets

theorem ofKey_own (packet : P) : ofKey c (key c packet) [packet] = [packet] := by
  simp [ofKey]

theorem ofKey_other (h : k ≠ key c packet) : ofKey c k [packet] = [] := by
  simp [ofKey, h.symm]

theorem ofKey_all (h : ∀ packet ∈ packets, key c packet = k) : ofKey c k packets = packets :=
  filter_eq_self.mpr fun packet hpacket => decide_eq_true (h packet hpacket)

def line (c : Setting P) (s : Sender P) (k : PrepareKey) : List P :=
  ofKey c k s.written ++ (ofKey c k s.loop.ahead ++ ((s.pending.lookup k).getD [] ++
    (ofKey c k s.loop.behind ++ ofKey c k s.ch)))

def Lined (c : Setting P) (s : Sender P) : Prop :=
  ∀ k, (s.line c k).Sublist (ofKey c k s.accepted)

section
variable (h : Lined c s)
include h

theorem Lined.of_sublist (haccepted : t.accepted = s.accepted)
    (hline : ∀ k, (t.line c k).Sublist (s.line c k)) : Lined c t := by
  intro k
  rw [haccepted]
  exact (hline k).trans (h k)

theorem Lined.of_parts (haccepted : t.accepted = s.accepted)
    (hwritten : t.written = s.written) (hpending : t.pending = s.pending)
    (hahead : t.loop.ahead.Sublist s.loop.ahead) (hbehind : t.loop.behind.Sublist s.loop.behind)
    (hch : t.ch.Sublist s.ch) : Lined c t := by
  refine h.of_sublist haccepted fun k => ?_
  unfold line
  rw [hwritten, hpending]
  refine (List.Sublist.refl _).append ((hahead.filter _).append ?_)
  exact (List.Sublist.refl _).append ((hbehind.filter _).append (hch.filter _))

theorem Lined.put [DecidableEq P] :
    Lined c { s with
      slotted := s.slotted.erase packet
      ch := s.ch ++ [packet]
      accepted := s.accepted ++ [packet]
      returned := packet :: s.returned } := by
  intro k
  have hline := (h k).append (.refl (ofKey c k [packet]))
  unfold line at hline ⊢
  simp only [ofKey_append, append_assoc] at hline ⊢
  exact hline

theorem Lined.join
    (hloop : s.loop = .received packet) (hgroup : s.pending.lookup (key c packet) = some packets) :
    Lined c { s with
      pending := s.pending.insert (key c packet) (packets ++ [packet])
      loop := .select } := by
  intro k
  have hline := h k
  unfold line at hline ⊢
  rw [hloop] at hline
  by_cases hk : k = key c packet
  · subst hk
    simp only [Loop.behind, hgroup, ofKey_own, lookup_insert, getD_some, append_assoc] at hline ⊢
    exact hline
  · simp only [Loop.behind, ofKey_other hk, lookup_insert_ne hk] at hline ⊢
    exact hline

section

variable (hloop : s.loop = .received packet) (hgroup : s.pending.lookup (key c packet) = none)
include hloop hgroup

theorem Lined.gather : Lined c { s with
      pending := s.pending.insert (key c packet) [packet]
      waiting := s.waiting ++ [key c packet]
      loop := .starting } := by
  intro k
  have hline := h k
  unfold line at hline ⊢
  rw [hloop] at hline
  by_cases hk : k = key c packet
  · subst hk
    simp only [Loop.behind, hgroup, ofKey_own, lookup_insert] at hline ⊢
    exact hline
  · simp only [Loop.behind, ofKey_other hk, lookup_insert_ne hk] at hline ⊢
    exact hline

theorem Lined.direct : Lined c { s with loop := .writing packet none } := by
  intro k
  have hline := h k
  unfold line at hline ⊢
  rw [hloop] at hline
  by_cases hk : k = key c packet
  · subst hk
    simp only [hgroup] at hline ⊢
    exact hline
  · simp only [Loop.ahead, Loop.behind, ofKey_other hk, getD_none] at hline ⊢
    exact hline

end

theorem Lined.write {rest : Option (List P)}
    (hloop : s.loop = .writing packet rest) (mapping : Mapping) :
    Lined c { s with mapping, written := s.written ++ [packet], loop := .wrote packet rest } := by
  intro k
  have hline := h k
  unfold line at hline ⊢
  rw [hloop] at hline
  simp only [Loop.ahead, ofKey_append, append_assoc] at hline ⊢
  rw [ofKey_cons, append_assoc] at hline
  exact hline

theorem Lined.result (hgrouped : Grouped c s)
    (hloop : s.loop = .select) (hgroup : s.pending.lookup worker.key = some packets) (loop : Loop P)
    (hnext : loop = .group packets ∨ loop = .dropping packets) (mapping : Mapping) :
    Lined c { s with
      active := s.active - 1
      workers := s.workers.erase worker
      pending := s.pending.erase worker.key
      mapping
      loop } := by
  have hahead : loop.ahead.Sublist packets := by
    rcases hnext with rfl | rfl
    · exact .refl _
    · exact nil_sublist _
  have hbehind : loop.behind = [] := by rcases hnext with rfl | rfl <;> rfl
  have hkey : ∀ packet ∈ loop.ahead, key c packet = worker.key :=
    fun packet hpacket => hgrouped.own hgroup packet (hahead.subset hpacket)
  refine h.of_sublist rfl fun k => ?_
  unfold line
  rw [hloop]
  simp only [hbehind]
  refine (List.Sublist.refl _).append ?_
  by_cases hk : k = worker.key
  · subst hk
    rw [lookup_erase, hgroup, ofKey_all hkey]
    exact hahead.append (.refl _)
  · have hnone : ofKey c k loop.ahead = [] :=
      filter_eq_nil_iff.mpr fun packet hpacket heq =>
        hk ((of_decide_eq_true heq).symm.trans (hkey packet hpacket))
    rw [lookup_erase_ne hk, hnone]
    exact .refl _

theorem Lined.dropPending [DecidableEq P] {rest : List P}
    (hgroup : s.pending.lookup k = some (packet :: rest)) :
    Lined c { s.drop packet with pending := s.pending.insert k rest } := by
  refine h.of_sublist rfl fun k' => ?_
  refine (List.Sublist.refl _).append ((List.Sublist.refl _).append (.append ?_ (.refl _)))
  by_cases hk : k' = k
  · subst hk
    rw [lookup_insert, hgroup]
    exact sublist_cons_self ..
  · rw [lookup_insert_ne hk]

theorem Lined.change [DecidableEq P] (hgrouped : Grouped c s)
    (hchange : Change c s t) : Lined c t := by
  cases hchange with
  | put => exact h.put
  | join hloop hgroup => exact h.join hloop hgroup
  | gather hloop hgroup => exact h.gather hloop hgroup
  | direct hloop hgroup => exact h.direct hloop hgroup
  | write hloop mapping => exact h.write hloop mapping
  | result hloop hworker hgroup loop hnext mapping => exact h.result hgrouped hloop hgroup loop hnext mapping
  | dropPending hloop hgroup => exact h.dropPending hgroup
  | @forget k hloop hgroup =>
    refine h.of_sublist rfl fun k' => ?_
    unfold line
    by_cases hk : k' = k
    · subst hk
      rw [lookup_erase, hgroup]
      exact .refl _
    · rw [lookup_erase_ne hk]
  | take hloop hch =>
    intro k
    have hline := h k
    unfold line at hline ⊢
    rw [hloop, hch, ofKey_cons] at hline
    exact hline
  | closerTake hhand hch =>
    exact h.of_parts rfl rfl rfl (.refl _) (.refl _) (hch ▸ sublist_cons_self ..)
  | drainTake hloop hch =>
    refine h.of_parts rfl rfl rfl (nil_sublist _) (nil_sublist _) ?_
    exact hch ▸ sublist_cons_self ..
  | skip hloop =>
    refine h.of_parts rfl rfl rfl ?_ (nil_sublist _) (.refl _)
    exact hloop ▸ sublist_cons_self ..
  | @dropWritten packet rest hloop =>
    refine h.of_parts rfl rfl rfl ?_ ?_ (.refl _)
    · rw [hloop]
      cases rest <;> exact .refl _
    · cases rest <;> exact nil_sublist _
  | dropGroup hloop =>
    refine h.of_parts rfl rfl rfl ?_ (nil_sublist _) (.refl _)
    exact hloop ▸ sublist_cons_self ..
  | next hloop =>
    refine h.of_parts rfl rfl rfl ?_ (nil_sublist _) (.refl _)
    exact hloop ▸ .refl _
  | done | giveUp | dropFailed | finish | start | started | exit | drainDrop | drainEnd =>
    exact h.of_parts rfl rfl rfl (nil_sublist _) (nil_sublist _) (.refl _)
  | enter | check | rejectEntered | takeSlot | rejectChecked | refuse | lock | cancel | closerDrop |
    closerEnd | resolve | leave | map => exact fun k => h k

end

/-! ### Whole runs -/

structure Inv (c : Setting P) (s : Sender P) : Prop where
  kept : Kept s
  stopped : Stopped s
  grouped : Grouped c s
  called : Called s
  lined : Lined c s

theorem inv_new : Inv c ({} : Sender P) where
  kept := ⟨.start, Nat.zero_le _⟩
  stopped := ⟨fun h => absurd rfl h, nofun, nofun, nofun, nofun, nofun⟩
  grouped := ⟨nodup_nil, nofun, nofun⟩
  called := ⟨.nil, fun _ => nil_subset _, nil_subset _, .nil⟩
  lined := fun _ => .refl _

section
variable [DecidableEq P]

theorem Inv.step {event : Event P} (h : Inv c s) (hstep : s.step c event = .ok t) : Inv c t := by
  have hchange := step_change hstep
  exact {
    kept := h.kept.change hchange
    stopped := h.stopped.change hchange
    grouped := h.grouped.change hchange
    called := h.called.change h.kept.books.once hchange
    lined := h.lined.change h.grouped hchange }

theorem Inv.advance_ne_nilGroup (h : Inv c s) (outcome : Option Metadata) :
    s.advance c outcome ≠ .error .nilGroup := by
  intro herror
  unfold advance at herror
  split at herror
  case h_9 hloop =>
    split at herror
    · cases herror
    · next k rest hwaiting =>
      obtain ⟨packet, others, hlookup⟩ := h.grouped.group (hloop ▸ rfl) k
        (mem_append_left _ (hwaiting ▸ mem_cons_self))
      rw [hlookup] at herror
      split at herror <;> cases herror
  all_goals
    repeat' split at herror
    all_goals cases herror

theorem Inv.step_ne_nilGroup (h : Inv c s) (event : Event P) : s.step c event ≠ .error .nilGroup := by
  intro herror
  cases event with
  | advance outcome => exact h.advance_ne_nilGroup outcome herror
  | ready worker =>
    simp only [Sender.step, process] at herror
    split at herror
    · next result hloop _ =>
      split at herror
      · next hworker =>
        have hkey : worker.key ∈ s.resolving :=
          mem_append_right _ (mem_map_of_mem hworker)
        obtain ⟨packet, others, hlookup⟩ := h.grouped.group (hloop ▸ rfl) _ hkey
        simp only [takeResult, hlookup] at herror
        split at herror <;> cases herror
      · cases herror
    · cases herror
  | _ =>
    simp only [Sender.step, send, close, process, work] at herror
    repeat' split at herror
    all_goals cases herror

def outstanding (s : Sender P) : List P :=
  s.books.slotted.filter fun packet => packet ∉ s.books.dropped

/-- What holds at any time: nothing is dropped or released twice, the slots bound what is outstanding,
the packets of a key are written in the order of their calls, and no key has two workers. Once `Close`
has returned and the loop has exited, nothing is kept, and what was given to a call of `Send` that has
returned was dropped, with its slot. -/
structure Safe (c : Setting P) (s : Sender P) : Prop where
  dropped : s.books.dropped.Nodup ∧ s.books.dropped ⊆ s.books.given
  released : s.books.released.Nodup ∧ s.books.released ⊆ s.books.slotted
  outstanding : s.outstanding.length ≤ senderCapacity
  order : ∀ k, (ofKey c k s.written).Sublist (ofKey c k s.accepted) ∧
    (ofKey c k s.written).Pairwise fun a b => b ∉ s.earlier a
  workers : (s.workers.map Worker.key).Nodup
  retained : s.closed = true → s.loop = .exited → s.held = [] ∧ s.books.slots = 0
  ended : s.closed = true → s.loop = .exited →
    (∀ packet ∈ s.returned, s.books.dropped.count packet = 1) ∧
      ∀ packet ∈ s.books.slotted, s.books.released.count packet = 1

theorem Kept.outstanding_le (h : Kept s) : s.outstanding.length ≤ senderCapacity := by
  have hnodup := h.books.nodup
  rw [append_assoc] at hnodup
  have hheld : ∀ packet ∈ s.held, packet ∉ s.books.dropped := fun packet hpacket hdropped =>
    (nodup_append.mp (nodup_append.mp hnodup).2.1).2.2 packet hpacket packet hdropped rfl
  have hreleased : s.books.released.filter (fun packet => packet ∉ s.books.dropped) = [] :=
    filter_eq_nil_iff.mpr fun packet hpacket hout =>
      (of_decide_eq_true hout) (h.books.released.subset hpacket)
  have hperm : s.outstanding.Perm s.held := by
    refine (h.books.slotted.symm.filter _).trans ?_
    rw [filter_append, hreleased, append_nil, filter_eq_self.mpr
      fun packet hpacket => decide_eq_true (hheld packet hpacket)]
  rw [hperm.length_eq, h.books.held_length]
  exact h.room

theorem Inv.safe (h : Inv c s) : Safe c s := by
  have hbooks := h.kept.books
  have hwritten : ∀ k, (ofKey c k s.written).Sublist (ofKey c k s.accepted) :=
    fun k => (sublist_append_left ..).trans (h.lined k)
  constructor
  · exact ⟨hbooks.dropped_nodup, fun _ hp => hbooks.placed.subset (mem_append_right _ hp)⟩
  · exact ⟨hbooks.released_nodup, fun _ hp => hbooks.slotted.subset (mem_append_right _ hp)⟩
  · exact h.kept.outstanding_le
  · exact fun k => ⟨hwritten k, (h.called.order.sublist filter_sublist).sublist (hwritten k)⟩
  · exact (nodup_append.mp h.grouped.once).2.1
  · intro hclosed hloop
    have hheld := h.stopped.held_nil hclosed hloop
    exact ⟨hheld, hbooks.held_length.symm.trans (congrArg List.length hheld)⟩
  · intro hclosed hloop
    have hheld := h.stopped.held_nil hclosed hloop
    rw [hheld] at hbooks
    obtain ⟨-, hreleased, hdropped⟩ := hbooks.settled
    constructor
    · intro packet hreturned
      apply count_eq_one_of_mem hbooks.dropped_nodup
      have hgiven := h.called.calls.subset (mem_append_left _ hreturned)
      -- a call that has returned does not have its packet any more
      refine (mem_append.mp (hdropped.symm.subset hgiven)).resolve_left fun hfree => ?_
      have hcalls := h.called.calls.nodup_iff.mpr hbooks.once
      rw [← append_assoc s.entered] at hcalls
      exact (nodup_append.mp hcalls).2.2 packet hreturned packet
        (mem_append_left _ hfree) rfl
    · intro packet hslotted
      exact count_eq_one_of_mem hbooks.released_nodup (hreleased.symm.subset hslotted)

/-- For every interleaving of calls of `Send` and `Close`, of the loop and of the workers, every packet
has one owner until it is dropped, and the loop never misses a group. -/
theorem always_safe (c : Setting P) (events : List (Event P)) :
    Always (step c) (Safe c) {} events ∧ exec (step c) {} events ≠ .error .nilGroup := by
  constructor
  · exact always_of_invariant (Inv c) Inv.step Inv.safe inv_new events
  · exact exec_ne_error (Inv c) Inv.step (fun h => h.step_ne_nilGroup _) inv_new events

end

end Sender

end Mihomo.Tunnel.Udp
