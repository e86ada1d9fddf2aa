import Mihomo.Lib.OneWay
import Mihomo.Rules.Flatten

/-!
# A second evaluation of nested lists

The second evaluation of a nested list starts from the metadata that the first one left. If the first
one learned the destination, a rule that does not ask for it and stands before the one that did can
match now, and another adapter is returned, or none. `Stable` says that this does not happen along the
pass.
-/

namespace Mihomo.Rules
open Go Lib

variable {M κ : Type} [Resolver M]

structure Reads (K : Learning (Context M) ProcessInfo κ) (may : Bool) (env : Env M)
    (ev : Rule M → Matching M (Bool × Str)) : Prop where
  eval : ∀ {r : Rule M}, r.Plain → OneWay K may (ev r)
  skips : ∀ m, OneWay K may (skips env m)

def Enters (ev : Rule M → Matching M (Bool × Str)) (guard : Rule M) (s t : Session M) : Prop :=
  ∃ adapter, ev guard s = (some (true, adapter), t)

def Stable (env : Env M) (ev : Rule M → Matching M (Bool × Str)) (items : Items M) (s : Session M) :
    Prop :=
  ∀ before guard inner after, items = before.append (.nested guard inner after) →
    ∀ {s₁ s₂ t : Session M} {a : Str}, pass env ev before s = (some none, s₁) → Enters ev guard s₁ s₂ →
      pass env ev inner s₂ = (some (some a), t) → (pass env ev inner t).1 = some (some a)

def Agrees (env : Env M) (ev : Rule M → Matching M (Bool × Str)) (items : Items M) : Prop :=
  ∀ {s t : Session M} {d : Option Str}, pass env ev items s = (some d, t) →
    (twice env ev items s).1 = some (verdict d)

def Items.Plain : Items M → Prop
  | .nil => True
  | .rule r rest => r.Plain ∧ rest.Plain
  | .nested guard inner rest => guard.Plain ∧ inner.Plain ∧ rest.Plain

variable {rs : List (Rule M)} {items : Items M} {a : Str} {d : Option Str}

theorem Flattens.plain {env : Env M} (h : Flattens env rs items) : items.Plain := by
  induction h with
  | nil => trivial
  | rule hr _ ih => exact ⟨hr, ih⟩
  | nested _ hguard _ _ ihinner ihrest => exact ⟨hguard, ihinner, ihrest⟩

theorem Flattens.split {env : Env M} {before inner after : Items M} {guard : Rule M}
    (h : Flattens env rs (before.append (.nested guard inner after))) :
    before.Plain ∧ guard.Plain ∧ ∃ target, Flattens env (env.list target) inner := by
  induction before generalizing rs with
  | nil =>
    cases h with
    | nested target hguard hinner _ => exact ⟨trivial, hguard, target, hinner⟩
  | rule r rest ih =>
    cases h with
    | rule hr hrest =>
      obtain ⟨hplain, hnested⟩ := ih hrest
      exact ⟨⟨hr, hplain⟩, hnested⟩
  | nested guard' inner' rest _ ih =>
    cases h with
    | nested target hguard hinner hrest =>
      obtain ⟨hplain, hnested⟩ := ih hrest
      exact ⟨⟨hguard, hinner.plain, hplain⟩, hnested⟩

theorem Flattens.unique {env : Env M} {items' : Items M}
    (h : Flattens env rs items) (h' : Flattens env rs items') : items = items' := by
  induction h generalizing items' with
  | nil =>
    cases h'
    rfl
  | rule hr _ ih =>
    cases h' with
    | rule _ hrest => rw [ih hrest]
    | nested => cases hr
  | nested target hguard _ _ ihinner ihrest =>
    cases h' with
    | rule hr => cases hr
    | nested _ _ hinner hrest => rw [ihinner hinner, ihrest hrest]

variable {K : Learning (Context M) ProcessInfo κ} {may : Bool} {env : Env M} {ev : Rule M →
  Matching M (Bool × Str)}
  {items before inner rest : Items M} {guard : Rule M} {s t u : Session M}

/-! ### The passes are one-way -/

def again (env : Env M) (ev : Rule M → Matching M (Bool × Str)) (inner rest : Items M) :
    Matching M (Bool × Str) := do
  let m ← twice env ev inner
  let skip ← skips env m
  if skip then twice env ev rest else pure m

theorem oneWay_pass (h : Reads K may env ev) (hitems : items.Plain) :
    OneWay K may (pass env ev items) := by
  induction items with
  | nil => exact .pure none
  | rule r rest ih =>
    exact (h.eval hitems.1).bind fun m =>
      .ite ((h.skips m).bind fun skip => .ite (ih hitems.2) (.pure _)) (ih hitems.2)
  | nested guard inner rest ihinner ihrest =>
    obtain ⟨hguard, hinner, hrest⟩ := hitems
    exact (h.eval hguard).bind fun m =>
      .ite ((ihinner hinner).bind fun d => .ite (.pure d) (ihrest hrest)) (ihrest hrest)

theorem oneWay_twice (h : Reads K may env ev) (hitems : items.Plain) :
    OneWay K may (twice env ev items) := by
  induction items with
  | nil => exact .pure _
  | rule r rest ih =>
    exact (h.eval hitems.1).bind fun m =>
      .ite ((h.skips m).bind fun skip => .ite (ih hitems.2) (.pure m)) (ih hitems.2)
  | nested guard inner rest ihinner ihrest =>
    obtain ⟨hguard, hinner, hrest⟩ := hitems
    have hfirst : OneWay K may (guarded ev guard (twice env ev inner)) :=
      (h.eval hguard).bind fun m => .ite (ihinner hinner) (.pure _)
    have hsecond : OneWay K may (again env ev inner rest) :=
      (ihinner hinner).bind fun m => (h.skips m).bind fun _ => .ite (ihrest hrest) (.pure m)
    exact hfirst.bind fun m => .ite hsecond (ihrest hrest)

theorem oneWay_again (h : Reads K may env ev) (hinner : inner.Plain) (hrest : rest.Plain) :
    OneWay K may (again env ev inner rest) :=
  (oneWay_twice h hinner).bind fun m => (h.skips m).bind fun _ => .ite (oneWay_twice h hrest) (.pure m)

/-! ### One item of a list -/

omit [Resolver M] in
theorem skips_apply (env : Env M) (m : Bool × Str) (s : Session M) :
    ∃ skip, skips env m s = (some skip, s) := by
  unfold skips
  split <;> exact ⟨_, rfl⟩

/-- A rule is passed over by both passes or decides both, and then with an adapter that the lists
around do not pass over either. -/
theorem rule_cases (h : Reads K may env ev) {r : Rule M} (hr : r.Plain) (s : Session M) :
    ∃ t, (∀ rest, pass env ev (.rule r rest) s = pass env ev rest t ∧
        twice env ev (.rule r rest) s = twice env ev rest t) ∨
      ∃ a, skips env (true, a) t = (some false, t) ∧ ∀ rest,
        pass env ev (.rule r rest) s = (some (some a), t) ∧
        twice env ev (.rule r rest) s = (some (true, a), t) := by
  obtain ⟨⟨matched, a⟩, t, ht⟩ := (h.eval hr).returned s
  refine ⟨t, ?_⟩
  simp only [pass, twice, bind_of_eq ht]
  cases matched with
  | false => exact .inl fun rest => ⟨rfl, rfl⟩
  | true =>
    obtain ⟨skip, hskip⟩ := skips_apply env (true, a) t
    simp only [if_true, bind_of_eq hskip]
    cases skip with
    | true => exact .inl fun rest => ⟨rfl, rfl⟩
    | false => exact .inr ⟨a, hskip, fun rest => ⟨rfl, rfl⟩⟩

section Nested

omit [Resolver M]

theorem nested_of_not {adapter : Str} (hguard : ev guard s = (some (false, adapter), t))
    (rest : Items M) :
    pass env ev (.nested guard inner rest) s = pass env ev rest t ∧
      twice env ev (.nested guard inner rest) s = twice env ev rest t := by
  have hfirst : guarded ev guard (twice env ev inner) s = (some (false, []), t) := bind_of_eq hguard _
  rw [pass, twice, bind_of_eq hguard, bind_of_eq hfirst]
  exact ⟨rfl, rfl⟩

theorem pass_nested {d : Option Str} (hguard : Enters ev guard s t)
    (hinner : pass env ev inner t = (some d, u)) (rest : Items M) :
    pass env ev (.nested guard inner rest) s = if d.isSome then (some d, u) else pass env ev rest u := by
  obtain ⟨adapter, hmatch⟩ := hguard
  rw [pass, bind_of_eq hmatch, if_pos rfl, bind_of_eq hinner]
  split <;> rfl

theorem twice_nested {r : Bool × Str} (hguard : Enters ev guard s t)
    (hinner : twice env ev inner t = (some r, u)) (rest : Items M) :
    twice env ev (.nested guard inner rest) s =
      if r.1 then again env ev inner rest u else twice env ev rest u := by
  obtain ⟨adapter, hmatch⟩ := hguard
  have hfirst : guarded ev guard (twice env ev inner) s = (some r, u) := by
    rw [guarded, bind_of_eq hmatch, if_pos rfl, hinner]
  rw [twice, bind_of_eq hfirst]
  split <;> rfl

end Nested

theorem guard_cases (h : Reads K may env ev) (hguard : guard.Plain) (s : Session M) :
    ∃ t, (∃ adapter, ev guard s = (some (false, adapter), t)) ∨ Enters ev guard s t := by
  obtain ⟨⟨matched, adapter⟩, t, ht⟩ := (h.eval hguard).returned s
  cases matched with
  | false => exact ⟨t, .inl ⟨adapter, ht⟩⟩
  | true => exact ⟨t, .inr ⟨adapter, ht⟩⟩

/-! ### Items that do not decide -/

theorem twice_of_undecided (h : Reads K may env ev) (hitems : items.Plain)
    (hpass : pass env ev items s = (some none, t)) : twice env ev items s = (some (false, []), t) := by
  induction items generalizing s t with
  | nil =>
    cases hpass
    rfl
  | rule r rest ih =>
    obtain ⟨u, hover | ⟨a, _, hdecides⟩⟩ := rule_cases h hitems.1 s
    · rw [(hover rest).1] at hpass
      rw [(hover rest).2]
      exact ih hitems.2 hpass
    · rw [(hdecides rest).1] at hpass
      cases hpass
  | nested guard inner rest ihinner ihrest =>
    obtain ⟨hguard, hinner, hrest⟩ := hitems
    obtain ⟨e, ⟨adapter, hnot⟩ | henters⟩ := guard_cases h hguard s
    · rw [(nested_of_not hnot rest).1] at hpass
      rw [(nested_of_not hnot rest).2]
      exact ihrest hrest hpass
    · obtain ⟨d, u, hu⟩ := (oneWay_pass h hinner).returned e
      rw [pass_nested henters hu] at hpass
      cases d with
      | some a => cases hpass
      | none =>
        rw [twice_nested henters (ihinner hinner hu)]
        exact ihrest hrest hpass

theorem nested_cases (h : Reads K may env ev) (hguard : guard.Plain) (hinner : inner.Plain)
    (s : Session M) :
    ∃ t, (∀ rest, pass env ev (.nested guard inner rest) s = pass env ev rest t ∧
        twice env ev (.nested guard inner rest) s = twice env ev rest t) ∨
      ∃ e a, Enters ev guard s e ∧ pass env ev inner e = (some (some a), t) ∧
        ∀ rest, pass env ev (.nested guard inner rest) s = (some (some a), t) := by
  obtain ⟨e, ⟨adapter, hnot⟩ | henters⟩ := guard_cases h hguard s
  · exact ⟨e, .inl (nested_of_not hnot)⟩
  · obtain ⟨d, t, ht⟩ := (oneWay_pass h hinner).returned e
    refine ⟨t, ?_⟩
    cases d with
    | none =>
      refine .inl fun rest => ⟨?_, ?_⟩
      · rw [pass_nested henters ht]
        rfl
      · rw [twice_nested henters (twice_of_undecided h hinner ht)]
        rfl
    | some a =>
      refine .inr ⟨e, a, henters, ht, fun rest => ?_⟩
      rw [pass_nested henters ht]
      rfl

omit [Resolver M] in
theorem append_assoc (before items rest : Items M) :
    (before.append items).append rest = before.append (items.append rest) := by
  induction before with
  | nil => rfl
  | rule r _ ih | nested guard inner _ _ ih => rw [Items.append, Items.append, Items.append, ih]

section

variable (h : Reads K may env ev)
include h

theorem undecided_append (hbefore : before.Plain)
    (hpass : pass env ev before s = (some none, t)) (items : Items M) :
    pass env ev (before.append items) s = pass env ev items t ∧
      twice env ev (before.append items) s = twice env ev items t := by
  induction before generalizing s with
  | nil =>
    cases hpass
    exact ⟨rfl, rfl⟩
  | rule r rest ih =>
    obtain ⟨u, hover | ⟨a, _, hdecides⟩⟩ := rule_cases h hbefore.1 s
    · rw [(hover rest).1] at hpass
      rw [Items.append, (hover _).1, (hover _).2]
      exact ih hbefore.2 hpass
    · rw [(hdecides rest).1] at hpass
      cases hpass
  | nested guard inner rest _ ih =>
    obtain ⟨u, hover | ⟨e, a, _, _, hdecides⟩⟩ := nested_cases h hbefore.1 hbefore.2.1 s
    · rw [(hover rest).1] at hpass
      rw [Items.append, (hover _).1, (hover _).2]
      exact ih hbefore.2.2 hpass
    · rw [hdecides rest] at hpass
      cases hpass

theorem Stable.after (hpass : pass env ev before s = (some none, t))
    (hbefore : before.Plain) (hstable : Stable env ev (before.append items) s) :
    Stable env ev items t := by
  intro b guard inner after hitems s₁ s₂ u a hb
  have hsplit : before.append items = (before.append b).append (.nested guard inner after) := by
    rw [hitems, append_assoc]
  apply hstable (before.append b) guard inner after hsplit
  rw [(undecided_append h hbefore hpass b).1, hb]

/-! ### Items that decide -/

theorem skips_of_decided (hitems : items.Plain)
    (hpass : pass env ev items s = (some (some a), t)) : skips env (true, a) t = (some false, t) := by
  induction items generalizing s with
  | nil => cases hpass
  | rule r rest ih =>
    obtain ⟨u, hover | ⟨b, hskips, hdecides⟩⟩ := rule_cases h hitems.1 s
    · rw [(hover rest).1] at hpass
      exact ih hitems.2 hpass
    · rw [(hdecides rest).1] at hpass
      cases hpass
      exact hskips
  | nested guard inner rest ihinner ihrest =>
    obtain ⟨u, hover | ⟨e, b, _, hinner, hdecides⟩⟩ := nested_cases h hitems.1 hitems.2.1 s
    · rw [(hover rest).1] at hpass
      exact ihrest hitems.2.2 hpass
    · rw [hdecides rest] at hpass
      cases hpass
      exact ihinner hitems.2.1 hinner

theorem twice_moves (hitems : items.Plain)
    (hpass : pass env ev items s = (some d, t)) : K.Moves may t (twice env ev items s).2 := by
  induction items generalizing s d with
  | nil =>
    cases hpass
    exact .refl _
  | rule r rest ih =>
    obtain ⟨u, hover | ⟨b, _, hdecides⟩⟩ := rule_cases h hitems.1 s
    · rw [(hover rest).1] at hpass
      rw [(hover rest).2]
      exact ih hitems.2 hpass
    · rw [(hdecides rest).1] at hpass
      rw [(hdecides rest).2]
      cases hpass
      exact .refl _
  | nested guard inner rest ihinner ihrest =>
    obtain ⟨hguard, hplain, hrest⟩ := hitems
    obtain ⟨u, hover | ⟨e, b, henters, hinner, hdecides⟩⟩ := nested_cases h hguard hplain s
    · rw [(hover rest).1] at hpass
      rw [(hover rest).2]
      exact ihrest hrest hpass
    · rw [hdecides rest] at hpass
      cases hpass
      obtain ⟨r, x, hx⟩ := (oneWay_twice h hplain).returned e
      have hfirst := ihinner hplain hinner
      rw [hx] at hfirst
      rw [twice_nested henters hx]
      refine hfirst.trans ?_
      split
      · exact (oneWay_again h hplain hrest).moves x
      · exact (oneWay_twice h hrest).moves x

theorem again_of_decided (hinner : inner.Plain)
    (htwice : twice env ev inner s = (some (true, a), t))
    (hpass : pass env ev inner s = (some (some a), u)) (hkey : K.key t = K.key u) (rest : Items M) :
    again env ev inner rest s = (some (true, a), t) := by
  obtain ⟨w, hskip, _⟩ := (h.skips (true, a)).of_key (skips_of_decided h hinner hpass) hkey
  obtain ⟨skip, hstay⟩ := skips_apply env (true, a) t
  rw [hskip] at hstay
  cases hstay
  rw [again, bind_of_eq htwice, bind_of_eq hskip]
  rfl

/-! ### Agreement -/

theorem Flattens.twice_eq
    (hfamily : ∀ {target : Str} {inner : Items M}, Flattens env (env.list target) inner →
      ∀ s, Stable env ev inner s)
    (hitems : Flattens env rs items) (hstable : Stable env ev items s)
    (hpass : pass env ev items s = (some d, t)) :
    ∃ u, twice env ev items s = (some (verdict d), u) ∧ K.key u = K.key t := by
  induction hitems generalizing s t d with
  | nil =>
    cases hpass
    exact ⟨_, rfl, rfl⟩
  | @rule r rs rest hr hrest ih =>
    obtain ⟨u, hover | ⟨a, _, hdecides⟩⟩ := rule_cases h hr s
    · have hone : pass env ev (.rule r .nil) s = (some none, u) := (hover .nil).1
      rw [(hover rest).1] at hpass
      rw [(hover rest).2]
      exact ih (.after h hone ⟨hr, trivial⟩ hstable) hpass
    · rw [(hdecides rest).1] at hpass
      cases hpass
      exact ⟨t, (hdecides rest).2, rfl⟩
  | @nested guard rs inner rest target hguard hinner hrest ihinner ihrest =>
    obtain ⟨u, hover | ⟨e, a, henters, hpassInner, hdecides⟩⟩ := nested_cases h hguard hinner.plain s
    · have hone : pass env ev (.nested guard inner .nil) s = (some none, u) := (hover .nil).1
      rw [(hover rest).1] at hpass
      rw [(hover rest).2]
      exact ihrest (.after h hone ⟨hguard, hinner.plain, trivial⟩ hstable) hpass
    · rw [hdecides rest] at hpass
      cases hpass
      have hagain : (pass env ev inner t).1 = some (some a) :=
        hstable .nil guard inner rest rfl rfl henters hpassInner
      -- the first evaluation ends where the pass ends, so the second one decides for the same adapter
      obtain ⟨x, htwice, hx⟩ := ihinner (hfamily hinner e) hpassInner
      have hpassAgain : pass env ev inner t = (some (some a), (pass env ev inner t).2) :=
        Prod.ext hagain rfl
      obtain ⟨w, hw, hwt⟩ := (oneWay_pass h hinner.plain).of_key hpassAgain hx
      obtain ⟨y, htwice', hy⟩ := ihinner (hfamily hinner x) hw
      refine ⟨y, ?_, ?_⟩
      · rw [twice_nested henters htwice]
        exact again_of_decided h hinner.plain htwice' hw hy rest
      · rw [hy, hwt]
        exact (oneWay_pass h hinner.plain).key_again hpassInner hpassAgain

end

theorem Flattens.stable_of_still (h : Reads K false env ev)
    (hitems : Flattens env rs items) (s : Session M) : Stable env ev items s := by
  rintro before guard inner after rfl s₁ s₂ t a _ _ hpass
  obtain ⟨_, _, target, hinner⟩ := hitems.split
  have hone := oneWay_pass h hinner.plain
  have hkey : K.key t = K.key s₂ :=
    (hone.moved hpass).resolve_right fun hmoves => Bool.false_ne_true hmoves.1
  obtain ⟨w, hw, _⟩ := hone.of_key hpass hkey
  rw [hw]

theorem Flattens.stable (h : Reads K may env ev)
    (hagrees : ∀ {target : Str} {inner : Items M}, Flattens env (env.list target) inner →
      Agrees env ev inner)
    (hitems : Flattens env rs items) (hself : Agrees env ev items)
    (s : Session M) :
    Stable env ev items s := by
  rintro before guard inner after rfl s₁ s₂ t a hbefore henters hpass
  obtain ⟨hplain, hguard, target, hinner⟩ := hitems.split
  have hone := oneWay_pass h hinner.plain
  rcases hone.moved hpass with hkey | ⟨_, hkey⟩
  · -- nothing was learned: the second pass is the first one again
    obtain ⟨w, hw, _⟩ := hone.of_key hpass hkey
    rw [hw]
  · -- the destination was learned, and with it everything the second pass depends on
    have hfirst : twice env ev inner s₂ = (some (true, a), (twice env ev inner s₂).2) :=
      Prod.ext (hagrees hinner hpass) rfl
    set x := (twice env ev inner s₂).2
    have hx : K.key x = K.key t := (twice_moves h hinner.plain hpass).eq_of_learned hkey
    obtain ⟨d, w, hw⟩ := hone.returned x
    have hwx : K.key w = K.key x := (hone.moved hw).eq_of_learned (hx.trans hkey)
    have hsecond : twice env ev inner x = (some (verdict d), (twice env ev inner x).2) :=
      Prod.ext (hagrees hinner hw) rfl
    have hy : K.key (twice env ev inner x).2 = K.key w :=
      (twice_moves h hinner.plain hw).eq_of_learned (hwx.trans (hx.trans hkey))
    -- the source returns what the second evaluation gives
    have hresult : (again env ev inner after x).1 = some (true, a) := by
      have hwhole :=
        hself (((undecided_append h hplain hbefore _).1).trans (pass_nested henters hpass after))
      rw [(undecided_append h hplain hbefore _).2, twice_nested henters hfirst] at hwhole
      exact hwhole
    have hd : d = some a := by
      cases d with
      | none =>
        rw [again, bind_of_eq hsecond] at hresult
        cases hresult
      | some b =>
        rw [again_of_decided h hinner.plain hsecond hw hy] at hresult
        cases hresult
        rfl
    obtain ⟨v, hv, _⟩ := hone.of_key hw hx.symm
    rw [hv, hd]

end Mihomo.Rules
