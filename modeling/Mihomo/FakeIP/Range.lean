import Mihomo.FakeIP.Pool

/-!
# The range of a pool

The prefix of a pool covers a block of numbers of its family. `New` accepts a prefix whose block has a
usable address, and the allocator never leaves the usable part of the block.
-/

namespace Mihomo.FakeIP
open Net Prefix

universe u
variable {σ : Type u}

/-- The pool's prefix covers the block `b`, which has room for at least one address
between the reserved first four and the broadcast address. -/
structure Ranged (p : Pool σ) (b : Block) : Prop where
  room : 6 ≤ b.size
  network_eq : p.ipnet.maskedAddr = .at b.fam b.base
  gateway_eq : p.gateway = .at b.fam (b.base + 1)
  first_eq : p.first = .at b.fam (b.base + 4)
  last_eq : p.last = .at b.fam (b.base + (b.size - 1))
  contains_iff : ∀ ip, p.ipnet.contains ip = true ↔
    ∃ n, b.base ≤ n ∧ n < b.base + b.size ∧ ip = .at b.fam n

theorem Ranged.congr {τ : Type u} {p : Pool σ} {q : Pool τ} {b : Block} (h : Ranged p b)
    (hi : q.ipnet = p.ipnet) (hg : q.gateway = p.gateway) (hf : q.first = p.first)
    (hl : q.last = p.last) : Ranged q b :=
  ⟨h.room, hi ▸ h.network_eq, hg ▸ h.gateway_eq, hf ▸ h.first_eq, hl ▸ h.last_eq,
    hi ▸ h.contains_iff⟩

def Usable (b : Block) (ip : Addr) : Prop :=
  ∃ n, b.base + 4 ≤ n ∧ n + 1 < b.base + b.size ∧ ip = .at b.fam n

def Positioned (b : Block) (offset : Addr) : Prop :=
  ∃ n, b.base + 3 ≤ n ∧ n + 1 < b.base + b.size ∧ offset = .at b.fam n

theorem next_at_cases {fam : Family} {n : Nat} (h : n < 2 ^ fam.bits) :
    (n + 1 < 2 ^ fam.bits ∧ (Addr.at fam n).next = .at fam (n + 1)) ∨
      (Addr.at fam n).next = .zero := by
  by_cases hn : n + 1 < 2 ^ fam.bits
  · exact .inl ⟨hn, next_at hn⟩
  · have : n = 2 ^ fam.bits - 1 := by omega
    exact .inr (this ▸ next_at_last fam)

theorem next_four {fam : Family} {n : Nat} (h : n < 2 ^ fam.bits)
    (hv : (Addr.at fam n).next.next.next.next.isValid = true) : n + 4 < 2 ^ fam.bits := by
  have hz : (Addr.zero).next = .zero := rfl
  have hbad : Addr.zero.isValid = false := rfl
  obtain ⟨h1, e1⟩ | e1 := next_at_cases h
  · obtain ⟨h2, e2⟩ | e2 := next_at_cases h1
    · obtain ⟨h3, e3⟩ | e3 := next_at_cases h2
      · obtain ⟨h4, _⟩ | e4 := next_at_cases h3
        · exact h4
        · simp [e1, e2, e3, e4, hbad] at hv
      · simp [e1, e2, e3, hz, hbad] at hv
    · simp [e1, e2, hz, hbad] at hv
  · simp [e1, hz, hbad] at hv

theorem ranged_new {ipnet : Prefix} {store : σ} {p : Pool σ} (h : Pool.new ipnet store = some p) :
    ∃ b, Ranged p b ∧ Positioned b p.offset ∧ p.store = store ∧ p.ipnet = ipnet := by
  cases ipnet with
  | invalid => simp [Pool.new, Prefix.isValid] at h
  | mk fam a len =>
    simp only [Pool.new] at h
    split at h
    · cases h
    next hok =>
      cases h
      simp only [Prefix.isValid, Bool.not_true, Bool.false_or, Bool.or_eq_true, not_or,
        Bool.not_eq_true', Bool.not_eq_false] at hok
      obtain ⟨hvalid, hless⟩ := hok
      generalize hb : Prefix.block fam a len = b
      have hfits := b.fits
      have hpos := b.size_pos
      have hfam : b.fam = fam := by rw [← hb]; rfl
      subst hfam
      rw [maskedAddr_mk, hb] at hvalid hless
      have hfour := next_four (by omega) hvalid
      have e1 := @next_at b.fam b.base (by omega)
      have e2 := @next_at b.fam (b.base + 1) (by omega)
      have e3 := @next_at b.fam (b.base + 2) (by omega)
      have e4 := @next_at b.fam (b.base + 3) (by omega)
      rw [lastIP_mk, hb, e1, e2, e3, e4, less_at hfour (by omega)] at hless
      have hroom : b.base + 4 < b.base + (b.size - 1) := by simpa using hless
      refine ⟨b, ⟨by omega, ?_, ?_, ?_, ?_, ?_⟩, ⟨b.base + 3, Nat.le_refl _, by omega, ?_⟩, rfl, rfl⟩
      · rw [maskedAddr_mk, hb]
      · rw [maskedAddr_mk, hb, e1]
      · rw [maskedAddr_mk, hb, e1, e2, e3, e4]
      · rw [lastIP_mk, hb]
      · intro ip
        constructor
        · intro hc
          obtain ⟨n, hn, rfl⟩ := eq_at_of_contains _ _ _ hc
          rw [contains_at _ _ _ hn, hb] at hc
          exact ⟨n, hc.1, hc.2, rfl⟩
        · rintro ⟨n, h1, h2, rfl⟩
          rw [contains_at _ _ _ (by omega), hb]
          exact ⟨h1, h2⟩
      · simp only [maskedAddr_mk, hb, e1, e2, e3, e4]
        exact prev_at hfour

variable {p : Pool σ} {b : Block}

theorem Usable.contains (h : Ranged p b) {ip : Addr} (hu : Usable b ip) :
    p.ipnet.contains ip = true := by
  obtain ⟨n, h1, h2, rfl⟩ := hu
  exact (h.contains_iff _).mpr ⟨n, by omega, by omega, rfl⟩

theorem Usable.positioned {ip : Addr} (hu : Usable b ip) : Positioned b ip := by
  obtain ⟨n, h1, h2, rfl⟩ := hu
  exact ⟨n, by omega, h2, rfl⟩

theorem Usable.bounds (h : Ranged p b) {ip : Addr} (hu : Usable b ip) :
    ip.less p.first = false ∧ ip.less p.last = true ∧
      ip ≠ p.ipnet.maskedAddr ∧ ip ≠ p.gateway ∧ ip ≠ p.last := by
  have hfits := b.fits
  obtain ⟨n, h1, h2, rfl⟩ := hu
  have hne : ∀ m, m < b.base + 4 ∨ m = b.base + (b.size - 1) → Addr.at b.fam n ≠ .at b.fam m := by
    intro m hm he
    have := (at_inj (by omega) (by omega) he).2
    omega
  refine ⟨?_, ?_, ?_, ?_, ?_⟩
  · rw [h.first_eq, less_at (by omega) (by omega)]
    simpa using h1
  · rw [h.last_eq, less_at (by omega) (by omega), decide_eq_true_eq]
    omega
  · rw [h.network_eq]
    exact hne _ (by omega)
  · rw [h.gateway_eq]
    exact hne _ (by omega)
  · rw [h.last_eq]
    exact hne _ (by omega)

theorem get_spec (h : Ranged p b) (ho : Positioned b p.offset) :
    Usable b p.get.1 ∧ p.get.2.offset = p.get.1 ∧ p.get.2.store = p.store ∧ Ranged p.get.2 b := by
  have hfits := b.fits
  have hroom := h.room
  have hr : ∀ cycle offset, Ranged { p with cycle, offset } b := fun _ _ => h.congr rfl rfl rfl rfl
  obtain ⟨n, h1, h2, hn⟩ := ho
  have hnext : p.offset.next = .at b.fam (n + 1) := by
    rw [hn, next_at (by omega)]
  have hless : p.offset.next.less p.last = decide (n + 1 < b.base + (b.size - 1)) := by
    rw [hnext, h.last_eq, less_at (by omega) (by omega)]
  unfold Pool.get
  simp only [hless]
  by_cases hlt : n + 1 < b.base + (b.size - 1)
  · simp only [hlt, decide_true, Bool.not_true, Bool.false_eq_true, if_false]
    exact ⟨⟨n + 1, by omega, by omega, hnext⟩, trivial, trivial, hr ..⟩
  · simp only [hlt, decide_false, Bool.not_false, if_true]
    exact ⟨⟨b.base + 4, Nat.le_refl _, by omega, h.first_eq⟩, trivial, trivial, hr ..⟩

theorem prev_first_positioned (h : Ranged p b) : Positioned b p.first.prev := by
  have hfits := b.fits
  have hroom := h.room
  refine ⟨b.base + 3, Nat.le_refl _, by omega, ?_⟩
  rw [h.first_eq]
  exact prev_at (by omega)

def net18 : Prefix := .mk .v4 (BitVec.ofNat 32 0xC6120000) ⟨16, by decide⟩

def net19 : Prefix := .mk .v4 (BitVec.ofNat 32 0xC6130000) ⟨16, by decide⟩

end Mihomo.FakeIP
