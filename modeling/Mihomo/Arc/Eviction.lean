import Mihomo.Arc.Invariant

/-!
# Which requests find an entry to evict

`Path` says once what a successful `req` does: which list it trims, whether it evicts, and where the
requested entry ends up.
-/

namespace Mihomo.Arc

universe u v
variable {K : Type u} {V : Type v}

namespace ARC

def total (a : ARC K V) : Int := a.size .t1 + a.size .t2 + a.size .b1 + a.size .b2

/-- The target size of `t1` that `req` has set when it calls `replace`. -/
def adapted (a : ARC K V) : Option Loc → Int
  | some .b1 => min (a.p + if a.size .b1 ≥ a.size .b2 then 1 else a.size .b2 / a.size .b1) a.c
  | some .b2 => max (a.p - if a.size .b2 ≥ a.size .b1 then 1 else a.size .b1 / a.size .b2) 0
  | _ => a.p

end ARC

def Trims (a : ARC K V) : Loc → Prop
  | .b1 => a.size .t1 + a.size .b1 = a.c ∧ a.size .t1 < a.c
  | .b2 => a.size .t1 + a.size .b1 < a.c ∧ a.total = 2 * a.c
  | _ => False

instance (a : ARC K V) : (l : Loc) → Decidable (Trims a l)
  | .b1 => inferInstanceAs (Decidable (_ ∧ _))
  | .b2 => inferInstanceAs (Decidable (_ ∧ _))
  | .t1 | .t2 => inferInstanceAs (Decidable False)

def Evicts (a : ARC K V) : Option Loc → Prop
  | some .b1 | some .b2 => True
  | some .t1 | some .t2 => False
  | none => Trims a .b1 ∨ (a.size .t1 + a.size .b1 < a.c ∧ a.c ≤ a.total)

variable {a : ARC K V} {l : Loc} {ent : Entry K V}

theorem Bounds.adapted_mem (hb : Bounds a) (ll : Option Loc) :
    0 ≤ a.adapted ll ∧ a.adapted ll ≤ a.c := by
  have h1 := size_nonneg a .b1
  have h2 := size_nonneg a .b2
  obtain ⟨hc, hp, hpc, _, _, _⟩ := hb
  have hd1 := Int.ediv_nonneg h2 h1
  have hd2 := Int.ediv_nonneg h1 h2
  rcases ll with _ | _ | _ | _ | _ <;> simp only [ARC.adapted] <;> (try split) <;> omega

theorem Bounds.trims_pos (hb : Bounds a) (h : Trims a l) : 0 < a.size l := by
  obtain ⟨_, _, _, h1, h2, h3⟩ := hb
  have h4 := size_nonneg a .t1
  cases l <;> simp only [Trims, ARC.total] at h <;> omega

variable [DecidableEq K]

theorem Shape.congr {b : ARC K V} (hs : Shape a) (hl : b.lists = a.lists)
    (hc : b.cache = a.cache) : Shape b := by
  obtain ⟨h1, h2, h3, h4⟩ := hs
  exact ⟨by rwa [hl], by rwa [hl, hc], by rwa [hc], by rwa [hc]⟩

theorem Shape.retarget (hs : Shape a) (p : Int) : Shape { a with p := p } :=
  hs.congr rfl rfl

theorem delLRU_ok (hs : Shape a) (h : 0 < a.size l) : ∃ b, a.delLRU l = .ok b ∧ Dropped a l b := by
  rcases delLRU_cases hs l with ⟨he, _⟩ | hb
  · exact absurd he ((size_pos_iff a l).mp h)
  · exact hb

theorem Dropped.victim_iff {b : ARC K V} (hs : Shape a) (hd : Dropped a l b)
    (ht : Trims a l) (ll : Option Loc) : Victim b b.p ll ↔ Victim a a.p ll := by
  have h1 : b.size .t1 = a.size .t1 := by
    cases l <;> simp [hd.size hs, Trims] at ht ⊢
  have h2 : b.size .t2 = a.size .t2 := by
    cases l <;> simp [hd.size hs, Trims] at ht ⊢
  rw [Victim, Victim, h1, h2, hd.frame.2.1]

variable [Inhabited V]

/-- `Path a ent b dst`: a successful `a.req ent` reaches `b` and then makes `ent`
the most recently used entry of `dst`. -/
inductive Path (a : ARC K V) (ent : Entry K V) : ARC K V → Loc → Prop
  | hit : ent.ll = some .t1 ∨ ent.ll = some .t2 → Path a ent a .t2
  | ghost {b} : ent.ll = some .b1 ∨ ent.ll = some .b2 →
      Replaced { a with p := a.adapted ent.ll } b → Path a ent b .t2
  | trim {l b₀ b} : ent.ll = none → Trims a l → Dropped a l b₀ → Replaced b₀ b → Path a ent b .t1
  | full {b} : ent.ll = none → a.size .t1 = a.c → Dropped a .t1 b → Path a ent b .t1
  | evict {b} : ent.ll = none → a.size .t1 + a.size .b1 < a.c → a.c ≤ a.total →
      a.total ≠ 2 * a.c → Replaced a b → Path a ent b .t1
  | room : ent.ll = none → a.total < a.c → Path a ent a .t1

theorem req_ghost (a : ARC K V) (h : ent.ll = some .b1 ∨ ent.ll = some .b2) :
    a.req ent = do
      let b ← { a with p := a.adapted ent.ll }.replace ent
      return b.setMRU ent .t2 := by
  rcases h with h | h <;> simp only [ARC.req, ARC.adapted, h]

def Served (a : ARC K V) (ent : Entry K V) : Prop :=
  (Evicts a ent.ll ∧ ¬ Victim a (a.adapted ent.ll) ent.ll ∧ a.req ent = .error .nilDereference) ∨
    ((Evicts a ent.ll → Victim a (a.adapted ent.ll) ent.ll) ∧
      ∃ b dst, a.req ent = .ok (b.setMRU ent dst) ∧ Path a ent b dst)

theorem served_ghost (hs : Shape a) (h : ent.ll = some .b1 ∨ ent.ll = some .b2) : Served a ent := by
  have hev : Evicts a ent.ll := by rcases h with h | h <;> simp [Evicts, h]
  rcases replace_cases (hs.retarget (a.adapted ent.ll)) ent with ⟨hv, hr⟩ | ⟨hv, b, hr, hrep⟩
  · exact .inl ⟨hev, hv, by rw [req_ghost a h, hr]; rfl⟩
  · exact .inr ⟨fun _ => hv, b, .t2, by rw [req_ghost a h, hr]; rfl, .ghost h hrep⟩

theorem served_trim (hs : Shape a) (hb : Bounds a) (h : ent.ll = none) (ht : Trims a l)
    (hev : Evicts a none)
    (hreq : a.req ent = do let a ← a.delLRU l let a ← a.replace ent return a.setMRU ent .t1) :
    Served a ent := by
  obtain ⟨b₀, hd, hdrop⟩ := delLRU_ok hs (hb.trims_pos ht)
  have hvic := hdrop.victim_iff hs ht ent.ll
  rw [← h] at hev
  have had : a.adapted ent.ll = a.p := by rw [h]; rfl
  have hreq' : a.req ent = b₀.replace ent >>= fun b => pure (b.setMRU ent .t1) := by
    rw [hreq, hd]
    rfl
  rcases replace_cases (hdrop.shape hs) ent with ⟨hv, hr⟩ | ⟨hv, b, hr, hrep⟩
  · refine .inl ⟨hev, ?_, ?_⟩
    · rw [had]
      exact fun hv' => hv (hvic.mpr hv')
    · rw [hreq', hr]
      rfl
  · refine .inr ⟨fun _ => had ▸ hvic.mp hv, b, .t1, ?_, .trim h ht hdrop hrep⟩
    rw [hreq', hr]
    rfl

theorem served_new (hs : Shape a) (hb : Bounds a) (h : ent.ll = none) : Served a ent := by
  by_cases hA : a.size .t1 + a.size .b1 = a.c
  · by_cases hlt : a.size .t1 < a.c
    · apply served_trim hs hb (l := .b1) h ⟨hA, hlt⟩ (.inl ⟨hA, hlt⟩)
      simp [ARC.req, h, hA, hlt]
    · have hfull : a.size .t1 = a.c := by
        have := size_nonneg a .b1
        omega
      obtain ⟨b, hd, hdrop⟩ := delLRU_ok hs (l := .t1) (by have := hb.one_le; omega)
      refine .inr ⟨?_, b, .t1, ?_, .full h hfull hdrop⟩
      · rw [h]
        rintro (⟨_, hlt'⟩ | ⟨hlt', _⟩) <;> omega
      · simp only [ARC.req, h, hA, hlt, hd]
        rfl
  · have hB : a.size .t1 + a.size .b1 < a.c := by
      have := hb.t1_b1
      omega
    by_cases htot : a.total ≥ a.c
    · have hev : Evicts a none := .inr ⟨hB, htot⟩
      by_cases h2c : a.total = 2 * a.c
      · apply served_trim hs hb (l := .b2) h ⟨hB, h2c⟩ hev
        unfold ARC.total at htot h2c
        simp only [ARC.req, h]
        rw [if_neg hA, if_pos hB, if_pos htot, if_pos h2c]
      · have hreq : a.req ent = do
            let b ← a.replace ent
            return b.setMRU ent .t1 := by
          unfold ARC.total at htot h2c
          simp [ARC.req, h, hA, hB, htot, h2c]
        have had : a.adapted ent.ll = a.p := by rw [h]; rfl
        rw [← h] at hev
        rcases replace_cases hs ent with ⟨hv, hr⟩ | ⟨hv, b, hr, hrep⟩
        · exact .inl ⟨hev, had ▸ hv, by rw [hreq, hr]; rfl⟩
        · exact .inr ⟨fun _ => had ▸ hv, b, .t1, by rw [hreq, hr]; rfl, .evict h hB htot h2c hrep⟩
    · refine .inr ⟨?_, a, .t1, ?_, .room h (by omega)⟩
      · rw [h]
        rintro (⟨hA', _⟩ | ⟨_, htot'⟩) <;> omega
      · unfold ARC.total at htot
        simp only [ARC.req, h, hA, hB, htot]
        rfl

theorem req_served (hs : Shape a) (hb : Bounds a) (ent : Entry K V) : Served a ent := by
  rcases hll : ent.ll with _ | _ | _ | _ | _
  · exact served_new hs hb hll
  · exact .inr ⟨by simp [hll, Evicts], a, .t2, by simp only [ARC.req, hll], .hit (.inl hll)⟩
  · exact served_ghost hs (.inl hll)
  · exact .inr ⟨by simp [hll, Evicts], a, .t2, by simp only [ARC.req, hll], .hit (.inr hll)⟩
  · exact served_ghost hs (.inr hll)

section Path
variable {a b : ARC K V} {ent : Entry K V} {dst : Loc}

theorem Path.shape (hs : Shape a) (h : Path a ent b dst) : Shape b := by
  cases h with
  | hit | room => exact hs
  | ghost _ hr => exact hr.shape (hs.retarget _)
  | trim _ _ hd hr => exact hr.shape (hd.shape hs)
  | full _ _ hd => exact hd.shape hs
  | evict _ _ _ _ hr => exact hr.shape hs

theorem Path.agrees (hs : Shape a) (he : Agrees a ent) (h : Path a ent b dst) : Agrees b ent := by
  cases h with
  | hit | room => exact he
  | ghost hl hr =>
    exact hr.agrees (hs.retarget _) he (by rcases hl with hl | hl <;> simp [hl])
      (by rcases hl with hl | hl <;> simp [hl])
  | trim hl _ hd hr =>
    exact hr.agrees (hd.shape hs) (hd.agrees hs he (by simp [hl])) (by simp [hl]) (by simp [hl])
  | full hl _ hd => exact hd.agrees hs he (by simp [hl])
  | evict hl _ _ _ hr => exact hr.agrees hs he (by simp [hl]) (by simp [hl])

structure Roomy (b : ARC K V) : Prop where
  p_nonneg : 0 ≤ b.p
  p_le : b.p ≤ b.c
  t1_b1 : b.size .t1 + b.size .b1 < b.c
  t1_t2 : b.size .t1 + b.size .t2 < b.c
  total : b.size .t1 + b.size .t2 + b.size .b1 + b.size .b2 < 2 * b.c

omit [Inhabited V] in
theorem Roomy.place (h : Roomy b) (he : Agrees b ent) : Bounds (b.place ent .t1) := by
  obtain ⟨hp0, hpc, ht1b1, ht1t2, htotal⟩ := h
  obtain ⟨hc, hp, _⟩ := place_frame b ent .t1
  have hpos1 := size_nonneg b .t1
  have hpos2 := size_nonneg b .b1
  obtain ⟨h1, h2, h3, h4⟩ := Loc.all (place_size he .t1)
  simp at h1 h2 h3 h4
  constructor <;> omega

theorem Replaced.roomy (hs : Shape a) (hp0 : 0 ≤ a.p) (hpc : a.p ≤ a.c)
    (ht1t2 : a.size .t1 + a.size .t2 ≤ a.c) (ht1b1 : a.size .t1 + a.size .b1 < a.c)
    (htotal : a.size .t1 + a.size .t2 + a.size .b1 + a.size .b2 < 2 * a.c) (hr : Replaced a b) :
    Roomy b := by
  obtain ⟨hc, hp, _⟩ := hr.frame
  have hsizes := hr.sizes hs
  constructor <;> omega

omit [Inhabited V] in
theorem Dropped.roomy (hs : Shape a) (hb : Bounds a) (hfull : a.size .t1 = a.c)
    (hd : Dropped a .t1 b) : Roomy b := by
  obtain ⟨hone, hp0, hpc, ht1b1, ht1t2, htotal⟩ := hb
  obtain ⟨hc, hp, _⟩ := hd.frame
  obtain ⟨h1, h2, h3, h4⟩ := Loc.all (hd.size hs)
  simp at h1 h2 h3 h4
  constructor <;> omega

theorem Dropped.roomy_replaced {l : Loc} {b₀ : ARC K V} (hs : Shape a) (hb : Bounds a) (ht : Trims a l)
    (hd : Dropped a l b₀) (hr : Replaced b₀ b) : Roomy b := by
  obtain ⟨hone, hp0, hpc, ht1b1, ht1t2, htotal⟩ := hb
  obtain ⟨hc, hp, _⟩ := hd.frame
  obtain ⟨h1, h2, h3, h4⟩ := Loc.all (hd.size hs)
  cases l with
  | t1 | t2 => exact ht.elim
  | b1 =>
    simp at h1 h2 h3 h4
    apply hr.roomy (hd.shape hs) <;> omega
  | b2 =>
    obtain ⟨hless, hfull⟩ := ht
    simp at h1 h2 h3 h4 hfull
    apply hr.roomy (hd.shape hs) <;> omega

omit [Inhabited V] in
theorem Bounds.place_hit (hb : Bounds a) (he : Agrees a ent)
    (hl : ent.ll = some .t1 ∨ ent.ll = some .t2) : Bounds (a.place ent .t2) := by
  obtain ⟨hone, hp0, hpc, ht1b1, ht1t2, htotal⟩ := hb
  obtain ⟨hc, hp, _⟩ := place_frame a ent .t2
  obtain ⟨h1, h2, h3, h4⟩ := Loc.all (place_size he .t2)
  rcases hl with hl | hl <;> simp [hl] at h1 h2 h3 h4 <;> constructor <;> omega

theorem Bounds.place_ghost (hb : Bounds a) (hs : Shape { a with p := a.adapted ent.ll })
    (hl : ent.ll = some .b1 ∨ ent.ll = some .b2) (hr : Replaced { a with p := a.adapted ent.ll } b)
    (he : Agrees b ent) : Bounds (b.place ent .t2) := by
  have hadapted := hb.adapted_mem ent.ll
  obtain ⟨hone, hp0, hpc, ht1b1, ht1t2, htotal⟩ := hb
  obtain ⟨hc, hp, _⟩ := place_frame b ent .t2
  obtain ⟨hfc, hfp, _⟩ := hr.frame
  have hsizes : b.size .t1 + b.size .t2 = a.size .t1 + a.size .t2 - 1 ∧
      b.size .b1 + b.size .b2 = a.size .b1 + a.size .b2 + 1 ∧
      b.size .t1 + b.size .b1 = a.size .t1 + a.size .b1 :=
    hr.sizes (a := { a with p := a.adapted ent.ll }) hs
  simp only at hfc hfp
  obtain ⟨h1, h2, h3, h4⟩ := Loc.all (place_size he .t2)
  rcases hl with hl | hl <;> simp [hl] at h1 h2 h3 h4 <;> constructor <;> omega

theorem Path.bounds (hs : Shape a) (hb : Bounds a) (he : Agrees a ent) (h : Path a ent b dst) :
    Bounds (b.place ent dst) := by
  have hagrees := h.agrees hs he
  cases h with
  | hit hl => exact hb.place_hit he hl
  | ghost hl hr => exact hb.place_ghost (hs.retarget _) hl hr hagrees
  | trim hl ht hd hr => exact (hd.roomy_replaced hs hb ht hr).place hagrees
  | full hl hf hd => exact (hd.roomy hs hb hf).place hagrees
  | evict hl hB htot h2c hr =>
    have htotal := hb.total
    unfold ARC.total at h2c
    exact (hr.roomy hs hb.p_nonneg hb.p_le hb.t1_t2 hB (by omega)).place hagrees
  | room hl hroom =>
    obtain ⟨h1, h2, h3, h4⟩ := Loc.all (size_nonneg a)
    unfold ARC.total at hroom
    refine Roomy.place ⟨hb.p_nonneg, hb.p_le, ?_, ?_, ?_⟩ hagrees <;> omega

end Path

end Mihomo.Arc
