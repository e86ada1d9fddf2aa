import Mihomo.Tunnel.UdpSender

/-!
# Who has a packet

The packets that a sender keeps are in its channel, in a pending group, or in the hands of `Send`, of
the loop or of `Close`. No call of `Send` is past its check of the context once the context is
cancelled, so what `Close` and the loop leave empty stays empty.
-/

namespace Mihomo.Tunnel.Udp
open Go Net Lib List Option

universe u
variable {P : Type u}

def Closer.hand : Closer P → List P
  | draining hand => hand.toList
  | _ => []

def Loop.hand : Loop P → List P
  | received packet => [packet]
  | writing packet rest => packet :: rest.getD []
  | wrote packet rest => packet :: rest.getD []
  | group rest => rest
  | dropping rest => rest
  | draining hand => hand.toList
  | _ => []

def Loop.ended : Loop P → Bool
  | exiting => true
  | draining _ => true
  | exited => true
  | _ => false

def Loop.emptied : Loop P → Bool
  | draining _ => true
  | exited => true
  | _ => false

namespace Sender

def stored (pending : AList fun _ : PrepareKey => List P) : List P := pending.entries.flatMap Sigma.snd

variable {pending : AList fun _ : PrepareKey => List P} {key : PrepareKey} {packets : List P}

theorem stored_insert : stored (pending.insert key packets) = packets ++ stored (pending.erase key) := by
  rfl

theorem stored_of_lookup (h : pending.lookup key = some packets) :
    (stored pending).Perm (packets ++ stored (pending.erase key)) := by
  have hmem : key ∈ pending.entries.keys := dlookup_isSome.mp (isSome_of_eq_some h)
  obtain ⟨group, before, after, hbefore, hentries, herase⟩ := exists_of_kerase hmem
  have hgroup : pending.lookup key = some group :=
    AList.mem_lookup_iff.mpr (hentries ▸ mem_append_right _ mem_cons_self)
  cases h.symm.trans hgroup
  change (pending.entries.flatMap Sigma.snd).Perm
    (packets ++ (pending.entries.kerase key).flatMap Sigma.snd)
  rw [herase, hentries]
  exact (perm_middle (a := (⟨key, packets⟩ : (_ : PrepareKey) × List P))).flatMap_right Sigma.snd

theorem stored_erase_of_none (h : pending.lookup key = none) :
    stored (pending.erase key) = stored pending := by
  unfold stored
  rw [show (pending.erase key).entries = pending.entries from
    kerase_of_notMem_keys (AList.lookup_eq_none.mp h)]

variable {s t : Sender P}

def free (s : Sender P) : List P := s.entered ++ s.checked

def held (s : Sender P) : List P :=
  s.slotted ++ (s.ch ++ (s.closer.hand ++ (s.loop.hand ++ stored s.pending)))

structure Kept (s : Sender P) : Prop where
  books : Balanced s.books s.free s.held
  room : s.books.slots ≤ senderCapacity

theorem Kept.of_perm (h : Kept s) (hbooks : t.books = s.books) (hfree : s.free.Perm t.free)
    (hheld : s.held.Perm t.held) : Kept t where
  books := hbooks ▸ h.books.congr hfree hheld
  room := hbooks ▸ h.room

theorem Kept.of_reject {packet : P} (h : Kept s) (hbooks : t.books = s.books.reject packet)
    (hfree : s.free.Perm (packet :: t.free)) (hheld : s.held.Perm t.held) : Kept t where
  books := hbooks ▸ (h.books.congr hfree hheld).reject
  room := hbooks ▸ h.room

/-- `Send` and `Close` exclude each other, no call of `Send` passes a cancelled context, and the loop
leaves its `select` for good only then. -/
structure Stopped (s : Sender P) : Prop where
  locked : s.closer ≠ .idle → s.entered = [] ∧ s.checked = [] ∧ s.slotted = []
  draining : ∀ hand, s.closer = .draining hand → s.cancelled = true
  passed : s.cancelled = true → s.checked = [] ∧ s.slotted = []
  drained : s.closed = true → s.cancelled = true ∧ s.ch = [] ∧ s.closer.hand = []
  ended : s.loop.ended = true → s.cancelled = true
  emptied : s.loop.emptied = true → s.pending.entries = []

theorem Stopped.held_nil (h : Stopped s) (hclosed : s.closed = true) (hloop : s.loop = .exited) :
    s.held = [] := by
  obtain ⟨hdone, hch, hhand⟩ := h.drained hclosed
  have hpending := h.emptied (hloop ▸ rfl)
  unfold held stored
  rw [(h.passed hdone).2, hch, hhand, hloop, hpending]
  rfl

variable [DecidableEq P] {c : Setting P}

theorem Kept.of_drop {packet : P} (h : Kept s) (hbooks : t.books = s.books.drop packet)
    (hfree : s.free.Perm t.free) (hheld : s.held.Perm (packet :: t.held)) : Kept t where
  books := hbooks ▸ (h.books.congr hfree hheld).drop
  room := by
    have hslots : (s.books.drop packet).slots ≤ s.books.slots := by
      unfold Books.drop
      split
      · exact Nat.le_refl _
      · exact Nat.sub_le _ _
    exact hbooks ▸ hslots.trans h.room

theorem Kept.of_count (h : Kept s) (hbooks : t.books = s.books) (hfree : t.free = s.free)
    (hheld : ∀ x, s.held.count x = t.held.count x) : Kept t :=
  h.of_perm hbooks (hfree ▸ .rfl) (perm_iff_count.mpr hheld)

theorem Kept.of_dropped {packet : P} (h : Kept s) (hbooks : t.books = s.books.drop packet)
    (hfree : t.free = s.free) (hheld : ∀ x, s.held.count x = (packet :: t.held).count x) : Kept t :=
  h.of_drop hbooks (hfree ▸ .rfl) (perm_iff_count.mpr hheld)

theorem Kept.change (h : Kept s) (hchange : Change c s t) : Kept t := by
  cases hchange with
  | enter hidle hfresh => exact ⟨h.books.give hfresh, h.room⟩
  | check hmem =>
    refine h.of_perm rfl ?_ .rfl
    exact ((perm_cons_erase hmem).append_right _).trans perm_middle.symm
  | rejectEntered hmem => exact h.of_reject rfl ((perm_cons_erase hmem).append_right _) .rfl
  | @takeSlot packet hmem hroom =>
    have hfree : s.free.Perm (packet :: (s.entered ++ s.checked.erase packet)) :=
      ((perm_cons_erase hmem).append_left _).trans perm_middle
    exact ⟨(h.books.congr hfree .rfl).slot, hroom⟩
  | rejectChecked hmem =>
    exact h.of_reject rfl (((perm_cons_erase hmem).append_left _).trans perm_middle) .rfl
  | @put packet hmem =>
    refine h.of_count rfl rfl fun x => ?_
    have hslotted := (perm_cons_erase hmem).count_eq x
    simp only [held, count_append, count_cons, count_nil] at hslotted ⊢
    omega
  | refuse hmem => exact h.of_drop rfl .rfl ((perm_cons_erase hmem).append_right _)
  | lock hhand | cancel hhand | closerEnd hhand =>
    refine h.of_count rfl rfl fun x => ?_
    simp [held, hhand, Closer.hand, toList]
  | closerDrop hhand =>
    refine h.of_dropped rfl rfl fun x => ?_
    simp only [held, drop, hhand, Closer.hand, toList, count_append, count_cons]
    omega
  | closerTake hhand hch =>
    refine h.of_count rfl rfl fun x => ?_
    simp only [held, hhand, hch, Closer.hand, toList, count_append, count_cons]
    omega
  | done hloop | direct hloop | write hloop | skip hloop | next hloop | start hloop | started hloop
  | exit hloop | drainEnd hloop =>
    refine h.of_count rfl rfl fun x => ?_
    simp [held, hloop, Loop.hand, Option.getD, toList]
  | finish hloop =>
    refine h.of_count rfl rfl fun x => ?_
    rcases hloop with hloop | hloop <;> simp only [held, hloop, Loop.hand]
  | take hloop hch | drainTake hloop hch =>
    refine h.of_count rfl rfl fun x => ?_
    simp only [held, hloop, hch, Loop.hand, toList, count_append, count_cons]
    omega
  | giveUp hloop | dropGroup hloop | dropFailed hloop | drainDrop hloop =>
    refine h.of_dropped rfl rfl fun x => ?_
    simp only [held, drop, hloop, Loop.hand, toList, count_append, count_cons]
    omega
  | @dropWritten packet rest hloop =>
    refine h.of_dropped rfl rfl fun x => ?_
    have hhand : (rest.elim .select Loop.group).hand = rest.getD [] := by cases rest <;> rfl
    simp only [held, drop, hloop, count_append, count_cons]
    rw [hhand]
    simp only [Loop.hand, count_cons]
    omega
  | join hloop hgroup =>
    refine h.of_count rfl rfl fun x => ?_
    have hstored := (stored_of_lookup hgroup).count_eq x
    simp only [held, hloop, Loop.hand, stored_insert, count_append, count_nil] at hstored ⊢
    omega
  | gather hloop hgroup =>
    refine h.of_perm rfl .rfl ?_
    simp only [held, hloop, stored_insert, stored_erase_of_none hgroup]
    exact .rfl
  | result hloop hworker hgroup loop hnext =>
    refine h.of_count rfl rfl fun x => ?_
    have hstored := (stored_of_lookup hgroup).count_eq x
    rcases hnext with rfl | rfl <;>
      simp only [held, hloop, Loop.hand, count_append, count_nil] at hstored ⊢ <;> omega
  | dropPending hloop hgroup =>
    refine h.of_dropped rfl rfl fun x => ?_
    have hstored := (stored_of_lookup hgroup).count_eq x
    simp only [held, drop, stored_insert, count_append, count_cons] at hstored ⊢
    omega
  | forget hloop hgroup =>
    refine h.of_count rfl rfl fun x => ?_
    have hstored := (stored_of_lookup hgroup).count_eq x
    simp only [held, count_append, nil_append] at hstored ⊢
    omega
  | resolve | leave | map => exact h.of_perm rfl .rfl .rfl

theorem Stopped.change (h : Stopped s) (hchange : Change c s t) : Stopped t := by
  cases hchange with
  | enter hidle => exact { h with locked := fun hne => absurd hidle hne }
  | check hmem hopen =>
    refine { h with locked := fun hne => ?_, passed := fun hdone => ?_ }
    · exact absurd (h.locked hne).1 (ne_nil_of_mem hmem)
    · cases hopen.symm.trans hdone
  | rejectEntered hmem =>
    refine { h with locked := fun hne => ?_ }
    exact absurd (h.locked hne).1 (ne_nil_of_mem hmem)
  | takeSlot hmem | rejectChecked hmem =>
    refine { h with locked := fun hne => ?_, passed := fun hdone => ?_ }
    · exact absurd (h.locked hne).2.1 (ne_nil_of_mem hmem)
    · exact absurd (h.passed hdone).1 (ne_nil_of_mem hmem)
  | put hmem =>
    refine { h with locked := fun hne => ?_, passed := fun hdone => ?_, drained := fun hclosed => ?_ }
    · exact absurd (h.locked hne).2.2 (ne_nil_of_mem hmem)
    · exact absurd (h.passed hdone).2 (ne_nil_of_mem hmem)
    · exact absurd (h.passed (h.drained hclosed).1).2 (ne_nil_of_mem hmem)
  | refuse hmem =>
    refine { h with locked := fun hne => ?_, passed := fun hdone => ?_ }
    · exact absurd (h.locked hne).2.2 (ne_nil_of_mem hmem)
    · exact absurd (h.passed hdone).2 (ne_nil_of_mem hmem)
  | lock hidle hnone =>
    refine { h with locked := fun _ => hnone, draining := nofun, drained := fun hclosed => ?_ }
    exact ⟨(h.drained hclosed).1, (h.drained hclosed).2.1, rfl⟩
  | cancel hlocked =>
    have hnone := h.locked (hlocked ▸ nofun)
    refine { h with
      locked := fun _ => hnone
      draining := fun _ _ => rfl
      passed := fun _ => hnone.2
      drained := fun hclosed => ?_
      ended := fun _ => rfl }
    exact ⟨rfl, (h.drained hclosed).2.1, rfl⟩
  | closerDrop hhand =>
    refine { h with
      locked := fun _ => h.locked (hhand ▸ nofun)
      draining := fun _ _ => h.draining _ hhand
      drained := fun hclosed => ?_ }
    exact ⟨(h.drained hclosed).1, (h.drained hclosed).2.1, rfl⟩
  | closerTake hhand hch =>
    refine { h with
      locked := fun _ => h.locked (hhand ▸ nofun)
      draining := fun _ _ => h.draining _ hhand
      drained := fun hclosed => ?_ }
    cases hch.symm.trans (h.drained hclosed).2.1
  | closerEnd hhand hch =>
    exact { h with
      locked := absurd rfl
      draining := nofun
      drained := fun _ => ⟨h.draining _ hhand, hch, rfl⟩ }
  | take hloop hch =>
    refine { h with drained := fun hclosed => ?_, ended := nofun, emptied := nofun }
    cases hch.symm.trans (h.drained hclosed).2.1
  | done hloop hdone | giveUp hloop hdone => exact { h with ended := fun _ => hdone, emptied := nofun }
  | join | direct | gather | write | skip | dropGroup | next | dropFailed | finish | start | started =>
    exact { h with ended := nofun, emptied := nofun }
  | @dropWritten packet rest hloop =>
    cases rest with
    | none | some => exact { h with ended := nofun, emptied := nofun }
  | result hloop hworker hgroup loop hnext =>
    rcases hnext with rfl | rfl <;> exact { h with ended := nofun, emptied := nofun }
  | dropPending hloop | forget hloop => exact { h with emptied := fun hend => absurd hend (hloop ▸ nofun) }
  | exit hloop hpending =>
    exact { h with ended := fun _ => h.ended (hloop ▸ rfl), emptied := fun _ => hpending }
  | drainTake hloop hch =>
    refine { h with
      drained := fun hclosed => ?_
      ended := fun _ => h.ended (hloop ▸ rfl)
      emptied := fun _ => h.emptied (hloop ▸ rfl) }
    cases hch.symm.trans (h.drained hclosed).2.1
  | drainDrop hloop | drainEnd hloop =>
    exact { h with
      ended := fun _ => h.ended (hloop ▸ rfl)
      emptied := fun _ => h.emptied (hloop ▸ rfl) }
  | resolve | leave | map => exact { h with }

end Sender

end Mihomo.Tunnel.Udp
