import Mihomo.OpenVPN.Epochs

/-!
# Which key encrypts and decrypts

The key a writer has selected may be overtaken by a rekey before it is used. Then it is no longer in
the map, or it is the retiring key that outbound selection falls back to.
-/

namespace Mihomo.OpenVPN
open Lib

/-- A packet is encrypted with the newest epoch, or with the preceding one while it has not
expired, the newest is not known to be used by the peer and its selection is recent. -/
def Encryption.Proper (x : Encryption) : Prop :=
  x.client.newest = some x.epoch ∨
    x.client.preceding = some x.epoch ∧ (∀ e, x.client.newest = some e → e ∉ x.client.peerActive) ∧
      x.now.retiring ≤ x.client.retiringExpiry ∧
        x.now.selection ≤ x.client.outboundStart + authDeferredExpire

def Decryption.Proper (x : Decryption) : Prop :=
  x.epoch.keyID = x.packetKeyID ∧ (x.client.newest = some x.epoch ∨
    x.client.preceding = some x.epoch ∧ x.retiringNow ≤ x.client.retiringExpiry)

structure System.Sound (s : System) : Prop where
  consistent : s.client.Consistent
  selected : ∀ e, s.writer = .selected e → s.client.data.isSome ∧
    (s.client.outboundKey = some e ∨ s.client.outboundKey = s.client.retiring)
  encrypted : ∀ x ∈ s.encrypted, x.Proper
  decrypted : ∀ x ∈ s.decrypted, x.Proper

theorem System.sound_start : System.start.Sound :=
  ⟨Client.consistent_zero, nofun, fun _ => nofun, fun _ => nofun⟩

variable {s : System}

section
variable (h : s.Sound)
include h

theorem System.Sound.of_client {c : Client} (hc : c.Consistent)
    (hkey : s.client.data.isSome → c.data.isSome ∧
            (c.outboundKey = c.retiring ∨ c.outboundKey = s.client.outboundKey ∧
              c.retiring = s.client.retiring))
    (toMark : List Epoch) : System.Sound { s with client := c, toMark } := by
  refine ⟨hc, fun e he => ?_, h.encrypted, h.decrypted⟩
  obtain ⟨hready, hsel⟩ := h.selected e he
  obtain ⟨hready', hkey⟩ := hkey hready
  refine ⟨hready', ?_⟩
  rcases hkey with hkey | ⟨hout, hret⟩
  · exact .inr hkey
  · rwa [hout, hret]

theorem System.Sound.of_writer {w : Writer} (hw : ∀ e, w ≠ .selected e) :
    System.Sound { s with writer := w } :=
  ⟨h.consistent, fun e he => absurd he (hw e), h.encrypted, h.decrypted⟩

theorem System.Sound.select (now : Client.Readings) : (s.select now).Sound := by
  unfold System.select
  dsimp only
  cases hdata : s.client.data with
  | none => exact h.of_writer nofun
  | some data =>
    dsimp only
    split_ifs
    · exact h.of_writer nofun
    · exact h.of_writer nofun
    · refine ⟨h.consistent, fun e he => ⟨by rw [hdata]; rfl, .inl ?_⟩, h.encrypted, h.decrypted⟩
      obtain ⟨out, hout⟩ :=
        Option.isSome_iff_exists.mp (h.consistent.outbound_isSome (by rw [hdata]; rfl))
      rw [hout] at he
      cases he
      exact hout

theorem proper_of_checks {outbound data : Epoch}
    (hwriter : s.writer = .selected outbound) (hvalid : s.client.valid outbound = true)
    (hdata : s.client.data = some data) (now : Client.Readings)
    (hdue : outbound = data ∨ s.client.promotionDue data now = false) :
    Encryption.Proper ⟨outbound, s.client, now⟩ := by
  have hc := h.consistent
  rcases hdue with rfl | hdue
  · exact .inl (hc.data.symm.trans hdata)
  simp only [Client.valid, decide_eq_true_eq] at hvalid
  rcases (hc.dataByKey _ _ hvalid.1).2 with hnew | hret
  · exact .inl (hc.data.symm.trans hnew)
  · right
    -- whatever was installed since the selection, the outbound key is the retiring one now
    have hkey : s.client.outboundKey = s.client.retiring := by
      rcases (h.selected outbound hwriter).2 with hsel | hsel
      · rw [hsel, hret]
      · exact hsel
    simp only [Client.promotionDue, Bool.or_eq_false_iff, decide_eq_false_iff_not] at hdue
    obtain ⟨⟨hactive, hselection⟩, hretiring⟩ := hdue
    refine ⟨hc.retiring.symm.trans hret, fun e he => ?_, ?_, ?_⟩
    · rw [← hc.data, hdata, Option.some.injEq] at he
      exact he ▸ hactive
    · by_contra hlate
      refine absurd hretiring (Bool.not_eq_false _ |>.mpr ?_)
      simp only [Client.retiringExpired, decide_eq_true_eq]
      exact ⟨by rw [hret]; exact Option.some_ne_none _, hkey,
        hc.expiry (by rw [hret]; rfl), Int.not_le.mp hlate⟩
    · simpa [Client.selectionExpired] using hselection

theorem System.Sound.encrypt {outbound : Epoch}
    (hwriter : s.writer = .selected outbound) (now : Client.Readings) :
    (s.encrypt outbound now).Sound := by
  unfold System.encrypt
  dsimp only
  split_ifs with hpending hvalid
  · exact h.of_writer nofun
  · exact h.of_writer nofun
  cases hdata : s.client.data with
  | none => exact h.of_writer nofun
  | some data =>
    dsimp only
    split_ifs with hdue
    · exact h.of_writer nofun
    · have hproper := proper_of_checks h hwriter (by simpa using hvalid) hdata now (by
        rw [not_and_or, not_not, Bool.not_eq_true] at hdue
        exact hdue)
      exact ⟨h.consistent, nofun, List.forall_mem_cons.mpr ⟨hproper, h.encrypted⟩, h.decrypted⟩

theorem System.Sound.decryptDataPacket (keyID : UInt8)
    (pendingNow retiringNow : Int) (authentic : Bool) :
    (s.decryptDataPacket keyID pendingNow retiringNow authentic).Sound := by
  have hc := h.consistent
  unfold System.decryptDataPacket
  dsimp only
  split_ifs with hpending hexpired
  · exact h
  · exact h
  cases hfound : s.client.dataByKey keyID with
  | none => exact h
  | some data =>
    obtain ⟨hkey, hwhich⟩ := hc.dataByKey _ _ hfound
    refine ⟨hc, h.selected, h.encrypted, List.forall_mem_cons.mpr ⟨⟨hkey, ?_⟩, h.decrypted⟩⟩
    rcases hwhich with hnew | hret
    · exact .inl (hc.data.symm.trans hnew)
    · refine .inr ⟨hc.retiring.symm.trans hret, Int.not_lt.mp fun hlate => hexpired ⟨?_, ?_, hlate⟩⟩
      · rw [hret, Option.map_some, hkey]
      · exact hc.expiry (by rw [hret]; rfl)

end

def Event.Timed : Event → Prop
  | .install _ _ expiryNow => 0 < expiryNow
  | _ => True

theorem System.Sound.step {window : Int} (hwindow : 0 ≤ window) {s' : System} (h : s.Sound) {e : Event}
    (he : e.Timed) (hstep : s.step window e = .ok s') : s'.Sound := by
  have hc := h.consistent
  cases e with
  | install keyID startNow expiryNow =>
    cases hstep
    have hinstalled := hc.install startNow ⟨s.client.installed.length, keyID⟩ he hwindow
    exact h.of_client hinstalled (fun hold => ⟨rfl, .inl (if_pos hold)⟩) s.toMark
  | stage deadline =>
    cases hstep
    refine h.of_client (hc.stage window deadline) (fun hready => ?_) s.toMark
    unfold Client.stageRetiringWindow
    split_ifs <;> exact ⟨hready, .inr ⟨rfl, rfl⟩⟩
  | decrypt keyID pendingNow retiringNow authentic =>
    cases hstep
    exact h.decryptDataPacket keyID pendingNow retiringNow authentic
  | mark epoch =>
    cases hstep
    split_ifs
    · exact h.of_client (c := { s.client with peerActive := epoch :: s.client.peerActive })
        { hc with }
        (fun hready => ⟨hready, .inr ⟨rfl, rfl⟩⟩) _
    · exact h
  | write =>
    cases hstep
    split_ifs
    · exact h.of_writer nofun
    · exact h
  | select now =>
    cases hstep
    split_ifs
    · exact h.select now
    · exact h
  | wake =>
    cases hstep
    split
    · split_ifs
      · exact h.of_writer nofun
      · exact h
    · exact h
  | promote now startNow =>
    cases hstep
    split_ifs
    · exact ⟨hc.promote now startNow, nofun, h.encrypted, h.decrypted⟩
    · exact h
  | encrypt now =>
    cases hstep
    split
    next outbound hwriter =>
      exact h.encrypt hwriter now
    · exact h
  | giveUp =>
    cases hstep
    exact h.of_writer nofun

/-- Every packet of every run is encrypted and decrypted with a proper epoch, whatever key IDs the
rekeys use and whatever the clocks read. -/
theorem epochs_proper {window : Int} (hwindow : 0 ≤ window) (events : List Event)
    (hevents : ∀ e ∈ events, e.Timed) :
    Always (System.step window) (fun s => (∀ x ∈ s.encrypted, x.Proper) ∧
      ∀ x ∈ s.decrypted, x.Proper) .start
      events :=
  always_of_along (fun (h : System.Sound _) he hstep => h.step hwindow he hstep)
    (fun h => ⟨h.encrypted, h.decrypted⟩) System.sound_start events
    (along_of_mem (fun e he _ => hevents e he) System.start)

/-- A rekey with a packet before it, one on the retiring key, and one after the peer has used the
new key. -/
def rekeyEvents : List Event :=
  [.install 0 10 10, .write, .select ⟨11, 11, 11⟩, .encrypt ⟨12, 12, 12⟩,
    .stage 100, .install 1 20 20, .write, .select ⟨21, 21, 21⟩, .encrypt ⟨22, 22, 22⟩,
    .decrypt 1 30 30 true, .mark ⟨1, 1⟩, .write, .select ⟨31, 31, 31⟩, .promote ⟨32, 32, 32⟩ 32,
    .select ⟨33, 33, 33⟩, .encrypt ⟨34, 34, 34⟩]

theorem epochs_proper_rekey :
    ((fun s : System => s.encrypted.map (·.epoch.id)) <$> exec (System.step 50) .start
      rekeyEvents) = .ok [1, 0, 0] ∧
      Always (System.step 50) (fun s => (∀ x ∈ s.encrypted, x.Proper) ∧
        ∀ x ∈ s.decrypted, x.Proper) .start
        rekeyEvents := by
  refine ⟨rfl, epochs_proper (by decide) rekeyEvents ?_⟩
  simp [rekeyEvents, Event.Timed]

/-- The client keeps the last two epochs, and no key ID leads to an older one. -/
theorem epochs_kept {window : Int} (hwindow : 0 ≤ window) (events : List Event)
    (hevents : ∀ e ∈ events, e.Timed) :
    Always (System.step window) (fun s => s.client.Consistent) .start events :=
  always_of_along (fun (h : System.Sound _) he hstep => h.step hwindow he hstep)
    (fun h => h.consistent) System.sound_start events
    (along_of_mem (fun e he _ => hevents e he) System.start)

theorem epochs_kept_rekey :
    Always (System.step 50) (fun s => s.client.Consistent) .start rekeyEvents :=
  epochs_kept (by decide) rekeyEvents (by simp [rekeyEvents, Event.Timed])

end Mihomo.OpenVPN
