import Mathlib.Tactic.Common

/-!
# Decisions on a prefix of the input

A reader looks at what has arrived of an input and decides, or asks for more. `PrefixStable` says that
a decision does not change when more arrives, and that a reader that asks for `n` elements asks until
it has them. `Reads` is the same for a part of a reader, which runs when `m` elements are there and
promises `m' x` of them after the result `x`.
-/

namespace Mihomo.Lib
open List Nat

universe u v w
variable {α : Type u} {ε : Type v} {β γ : Type w} (asks : ε → Option Nat)

def demand : Except ε β → Option Nat
  | .ok _ => none
  | .error e => asks e

structure StableAt (f : List α → Except ε β) (b : List α) : Prop where
  decided : ∀ t, demand asks (f b) = none → f (b ++ t) = f b
  short : ∀ {n}, demand asks (f b) = some n → b.length < n
  waits : ∀ t {n}, demand asks (f b) = some n → (b ++ t).length < n → f (b ++ t) = f b

def PrefixStable (f : List α → Except ε β) : Prop := ∀ b, StableAt asks f b

structure Reads (ok : Nat → Prop) (m : Nat) (f : List α → Except ε β) (m' : β → Nat) : Prop where
  stable : ∀ b, m ≤ b.length → StableAt asks f b
  bounded : ∀ b, m ≤ b.length → ∀ {n}, demand asks (f b) = some n → ok n
  reaches : ∀ b, m ≤ b.length → ∀ {x}, f b = .ok x → m' x ≤ b.length

variable {asks} {ok : Nat → Prop} {m : Nat} {f : List α → Except ε β} {m' : β → Nat} {b : List α}

theorem StableAt.congr {f g : List α → Except ε β} (h : StableAt asks f b)
    (heq : ∀ t, g (b ++ t) = f (b ++ t)) : StableAt asks g b := by
  have hb : g b = f b := by simpa using heq []
  refine ⟨fun t hd => ?_, fun hd => ?_, fun t n hd hlt => ?_⟩
  · rw [heq, hb]
    exact h.decided t (hb ▸ hd)
  · exact h.short (hb ▸ hd)
  · rw [heq, hb]
    exact h.waits t (hb ▸ hd) hlt

theorem StableAt.of_const {r : Except ε β} (hr : demand asks r = none)
    (h : ∀ t, f (b ++ t) = r) : StableAt asks f b := by
  have hb : f b = r := by simpa using h []
  refine ⟨fun t _ => by rw [h, hb], fun hd => ?_, fun t n hd => ?_⟩
  all_goals rw [hb, hr] at hd; cases hd

theorem StableAt.bind {k : β → List α → Except ε γ} (hf : StableAt asks f b)
    (hk : ∀ x, f b = .ok x → StableAt asks (k x) b) :
    StableAt asks (fun b => f b >>= fun x => k x b) b := by
  have herror : ∀ {b e}, f b = .error e → (f b >>= fun x => k x b) = .error e := fun h => by
    rw [h]; rfl
  cases hfb : f b with
  | ok x =>
    refine (hk x hfb).congr fun t => ?_
    rw [hf.decided t (by rw [hfb]; rfl), hfb]
    rfl
  | error e =>
    have hd : demand asks (f b) = asks e := by rw [hfb]; rfl
    refine ⟨fun t hn => ?_, fun {n} hn => ?_, fun t n hn hlt => ?_⟩
    all_goals rw [herror hfb] at hn
    · have hext := (hf.decided t (hd.trans hn)).trans hfb
      exact (herror hext).trans (herror hfb).symm
    · exact hf.short (hd.trans hn)
    · have hext := (hf.waits t (hd.trans hn) hlt).trans hfb
      exact (herror hext).trans (herror hfb).symm

namespace Reads

theorem prefixStable (h : Reads asks ok 0 f m') : PrefixStable asks f :=
  fun b => h.stable b (zero_le _)

theorem pure {x : β} (h : m' x ≤ m) : Reads asks ok m (fun _ : List α => .ok x) m' := by
  refine ⟨fun b _ => .of_const rfl fun _ => rfl, fun b _ _ hd => ?_, fun b hb _ hx => ?_⟩
  · cases hd
  · cases hx
    omega

theorem const {r : Except ε β} (hr : demand asks r = none) (h : ∀ x, m' x ≤ m) :
    Reads asks ok m (fun _ : List α => r) m' := by
  refine ⟨fun b _ => .of_const hr fun _ => rfl, fun b _ n hd => ?_, fun b hb x _ => ?_⟩
  · rw [hr] at hd
    cases hd
  · exact Nat.le_trans (h x) hb

variable {e : ε} {n : Nat} {g : List α → Except ε β}

theorem error (he : asks e = none) : Reads asks ok m (fun _ : List α => .error e) m' := by
  refine ⟨fun b _ => .of_const (r := .error e) he fun _ => rfl, fun b _ n hd => ?_, fun b _ x hx => ?_⟩
  · rw [demand, he] at hd
    cases hd
  · cases hx

theorem guard (he : asks e = some n) (hn : ok n) (hf : Reads asks ok n f m') :
    Reads asks ok m (fun b => if b.length < n then .error e else f b) m' := by
  have henough : ∀ {b : List α}, ¬ b.length < n → ∀ t, ¬ (b ++ t).length < n := by
    intro b hb t
    rw [length_append]
    omega
  constructor
  · intro b _
    by_cases hb : b.length < n
    · have hdemand : ∀ {k}, demand asks (if b.length < n then .error e else f b) = some k → k = n := by
        intro k hd
        rw [if_pos hb, demand, he] at hd
        exact (Option.some.inj hd).symm
      refine ⟨fun t hd => ?_, fun hd => hdemand hd ▸ hb, fun t k hd hlt => ?_⟩
      · rw [if_pos hb, demand, he] at hd
        cases hd
      · rw [if_pos hb, if_pos (hdemand hd ▸ hlt)]
    · exact (hf.stable b (Nat.not_lt.mp hb)).congr fun t => if_neg (henough hb t)
  · intro b _ k hd
    by_cases hb : b.length < n
    · rw [if_pos hb, demand, he] at hd
      exact Option.some.inj hd ▸ hn
    · rw [if_neg hb] at hd
      exact hf.bounded b (Nat.not_lt.mp hb) hd
  · intro b _ x hx
    by_cases hb : b.length < n
    · rw [if_pos hb] at hx
      cases hx
    · rw [if_neg hb] at hx
      exact hf.reaches b (Nat.not_lt.mp hb) hx

theorem enough (hn : n ≤ m) (hf : Reads asks ok m f m') :
    Reads asks ok m (fun b => if b.length < n then g b else f b) m' := by
  have heq : ∀ b, m ≤ b.length → (if b.length < n then g b else f b) = f b :=
    fun b hb => if_neg (by omega)
  refine ⟨fun b hb => ?_, fun b hb => ?_, fun b hb => ?_⟩
  · exact (hf.stable b hb).congr fun t => heq _ (by rw [length_append]; omega)
  · rw [heq b hb]
    exact hf.bounded b hb
  · rw [heq b hb]
    exact hf.reaches b hb

theorem ite {P : Prop} [Decidable P] (hf : P → Reads asks ok m f m')
    (hg : ¬ P → Reads asks ok m g m') : Reads asks ok m (fun b => if P then f b else g b) m' := by
  by_cases h : P
  · simpa only [if_pos h] using hf h
  · simpa only [if_neg h] using hg h

theorem bind {m'' : γ → Nat} {k : β → List α → Except ε γ} (hf : Reads asks ok m f m')
    (hk : ∀ x, Reads asks ok (m' x) (k x) m'') :
    Reads asks ok m (fun b => f b >>= fun x => k x b) m'' := by
  have hok : ∀ {b x}, f b = .ok x → (f b >>= fun x => k x b) = k x b := fun h => by rw [h]; rfl
  have herror : ∀ {b e}, f b = .error e → (f b >>= fun x => k x b) = .error e := fun h => by
    rw [h]; rfl
  constructor
  · intro b hb
    exact (hf.stable b hb).bind fun x hx => (hk x).stable b (hf.reaches b hb hx)
  · intro b hb n hn
    cases hfb : f b with
    | ok x =>
      rw [hok hfb] at hn
      exact (hk x).bounded b (hf.reaches b hb hfb) hn
    | error e =>
      rw [herror hfb] at hn
      exact hf.bounded b hb (by rw [hfb]; exact hn)
  · intro b hb y hy
    cases hfb : f b with
    | ok x =>
      rw [hok hfb] at hy
      exact (hk x).reaches b (hf.reaches b hb hfb) hy
    | error e =>
      rw [herror hfb] at hy
      cases hy

theorem take {limit : Nat} {ok' : Nat → Prop} (h : Reads asks (· ≤ limit) 0 f m')
    (hok : ∀ n ≤ limit, ok' n) : Reads asks ok' m (fun b => f (b.take limit)) m' := by
  have hshort : ∀ {b : List α} {n}, demand asks (f (b.take limit)) = some n → b.length < n ∧ n ≤ limit :=
    by
    intro b n hd
    have hlt := (h.stable _ (zero_le _)).short hd
    have hle := h.bounded _ (zero_le _) hd
    rw [length_take] at hlt
    exact ⟨by omega, hle⟩
  refine ⟨fun b _ => ⟨fun t hd => ?_, fun hd => (hshort hd).1, fun t n hd hlt => ?_⟩,
    fun b _ n hd => hok n (hshort hd).2, fun b _ x hx => ?_⟩
  · rw [take_append]
    exact (h.stable _ (zero_le _)).decided _ hd
  · obtain ⟨hb, hn⟩ := hshort hd
    rw [take_of_length_le (by omega), take_of_length_le (by omega : b.length ≤ limit)] at *
    exact (h.stable b (zero_le _)).waits t hd hlt
  · have hle := h.reaches _ (zero_le _) hx
    rw [length_take] at hle
    omega

end Reads

end Mihomo.Lib
