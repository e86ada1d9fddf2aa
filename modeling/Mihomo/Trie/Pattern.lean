import Mihomo.Trie.Set
import Mihomo.Trie.Search

/-!
# Accepted domains

What `validAndSplitDomain` accepts are labels without a dot and with `*` and `+` as
whole labels only, `+` and the empty label only in front.
-/

namespace Mihomo.Trie
open Go
open List hiding reverse

theorem step_lt : domainStepByte.toNat < 0x41 := by decide

theorem step_ascii : domainStepByte.toNat < 0x80 := by decide

theorem wildcard_lt : wildcardByte < complexWildcardByte := by decide

theorem lt_wildcard {d : UInt8} (h : d < complexWildcardByte) (hne : d ≠ wildcardByte) :
    d < wildcardByte := by
  have hne' : d.toNat ≠ wildcardByte.toNat := fun he => hne (UInt8.toNat_inj.mp he)
  have hplus : complexWildcardByte.toNat = wildcardByte.toNat + 1 := rfl
  rw [UInt8.lt_iff_toNat_lt] at h ⊢
  omega

theorem toLower_nil : toLower [] = [] := rfl

theorem toLower_wildcard : toLower wildcard = wildcard := by decide +kernel

theorem reverse_wildcard : reverse wildcard = wildcard := by decide +kernel

theorem reverse_complexWildcard : reverse complexWildcard = complexWildcard := by decide +kernel

/-! ### Splitting and joining -/

@[simp] theorem joinDomain_nil : joinDomain [] = [] := rfl

@[simp] theorem joinDomain_singleton (l : Str) : joinDomain [l] = l := intercalate_singleton

variable {ls ms : List Str} {l : Str}

theorem joinDomain_cons (l : Str) (h : ls ≠ []) :
    joinDomain (l :: ls) = l ++ domainStepByte :: joinDomain ls := by
  rw [joinDomain, intercalate_cons_of_ne_nil h, append_assoc]
  rfl

theorem joinDomain_append (hl : ls ≠ []) (hm : ms ≠ []) :
    joinDomain (ls ++ ms) = joinDomain ls ++ domainStepByte :: joinDomain ms := by
  induction ls with
  | nil => exact absurd rfl hl
  | cons l ls ih =>
    by_cases hls : ls = []
    · rw [hls, singleton_append, joinDomain_cons l hm, joinDomain_singleton]
    · rw [cons_append, joinDomain_cons l (by simp [hls]), ih hls, joinDomain_cons l hls,
        append_assoc, cons_append]

theorem joinDomain_inj (hl : ∀ l ∈ ls, domainStepByte ∉ l)
    (hm : ∀ l ∈ ms, domainStepByte ∉ l) (hls : ls ≠ []) (hms : ms ≠ [])
    (h : joinDomain ls = joinDomain ms) : ls = ms := by
  rw [← splitOn_intercalate domainStepByte hl hls, ← splitOn_intercalate domainStepByte hm hms]
  exact congrArg _ h

theorem toLower_joinDomain (ls : List Str) :
    toLower (joinDomain ls) = joinDomain (ls.map toLower) := by
  induction ls with
  | nil => rfl
  | cons l ls ih =>
    by_cases hls : ls = []
    · rw [hls]
      simp
    · rw [joinDomain_cons l hls, toLower_append l step_lt, ih, map_cons,
        joinDomain_cons _ (by simpa using hls)]

theorem reverse_joinDomain (ls : List Str) :
    reverse (joinDomain ls) = joinDomain (ls.reverse.map reverse) := by
  induction ls with
  | nil => rfl
  | cons l ls ih =>
    by_cases hls : ls = []
    · rw [hls]
      simp
    · rw [joinDomain_cons l hls, reverse_append l step_ascii, ih, reverse_cons, map_append,
        joinDomain_append (by simpa using hls) (by simp), map_singleton, joinDomain_singleton]

theorem not_mem_of_mem_splitOn {s : Str} (h : l ∈ s.splitOn domainStepByte) : domainStepByte ∉ l := by
  induction s generalizing l with
  | nil => simp_all
  | cons b s ih =>
    rw [splitOn_cons_eq_if_modifyHead] at h
    split at h
    · rcases mem_cons.mp h with rfl | h
      · exact not_mem_nil
      · exact ih h
    next hb =>
      cases hs : s.splitOn domainStepByte with
      | nil => rw [hs] at h; cases h
      | cons m ms =>
        rw [hs] at h
        rcases mem_cons.mp h with rfl | h
        · have hm : domainStepByte ∉ m := ih (hs ▸ mem_cons_self)
          rw [mem_cons, not_or]
          exact ⟨fun he => hb (beq_iff_eq.mpr he.symm), hm⟩
        · exact ih (hs ▸ mem_cons_of_mem _ h)

theorem splitOn_toLower (s : Str) :
    (toLower s).splitOn domainStepByte = (s.splitOn domainStepByte).map toLower := by
  have hjoin : toLower s = joinDomain ((s.splitOn domainStepByte).map toLower) := by
    rw [← toLower_joinDomain, joinDomain, intercalate_splitOn]
  have hstep : ∀ l ∈ (s.splitOn domainStepByte).map toLower, domainStepByte ∉ l := by
    intro l hl hmem
    obtain ⟨r, hr, rfl⟩ := mem_map.mp hl
    exact not_mem_of_mem_splitOn hr (mem_of_mem_toLower step_lt hmem)
  rw [hjoin, joinDomain, splitOn_intercalate _ hstep (by simp)]

/-! ### Accepted domains -/

structure Label (l : Str) : Prop where
  lowered : ∃ s, l = toLower s
  ne_nil : l ≠ []
  step : domainStepByte ∉ l
  complex : complexWildcardByte ∉ l
  wild : wildcardByte ∈ l → l = wildcard

inductive Pattern : List Str → Prop where
  | plain {l : Str} {ls : List Str} (h : ∀ m ∈ l :: ls, Label m) : Pattern (l :: ls)
  | suffix {ls : List Str} (hne : ls ≠ []) (h : ∀ m ∈ ls, Label m) : Pattern (dotWildcard :: ls)
  | complex {ls : List Str} (hne : ls ≠ []) (h : ∀ m ∈ ls, Label m) : Pattern (complexWildcard :: ls)

theorem label_wildcard : Label wildcard where
  lowered := ⟨wildcard, toLower_wildcard.symm⟩
  ne_nil := by decide
  step := by decide
  complex := by decide
  wild _ := rfl

theorem checkPart_eq_none {n i : Nat} {part : Str} (h : checkPart n i part = none) :
    (complexWildcardByte ∈ part → part = complexWildcard ∧ i = 0 ∧ n ≠ 1) ∧
      (wildcardByte ∈ part → part = wildcard) := by
  unfold checkPart at h
  split_ifs at h with h1 h2 h3 h4
  refine ⟨fun hc => ⟨?_, ?_, ?_⟩, fun hw => ?_⟩
  · by_contra hne
    exact h1 ⟨hc, hne⟩
  · by_contra hne
    exact h2 ⟨hc, hne⟩
  · exact fun hn => h3 ⟨hc, hn⟩
  · by_contra hne
    exact h4 ⟨hw, hne⟩

theorem checkEmpty_eq_none (h : checkEmpty (l :: ls) = none) :
    (∀ m ∈ ls, m ≠ []) ∧ (l = [] → ls ≠ []) := by
  rcases ls with _ | ⟨m, ls⟩
  · rw [checkEmpty] at h
    split_ifs at h with hl
    exact ⟨nofun, fun h0 => absurd h0 hl⟩
  · refine ⟨fun k hk hnil => ?_, fun _ => cons_ne_nil _ _⟩
    rw [checkEmpty, Option.map_eq_none_iff, findIdx?_eq_none_iff] at h
    · have := h k hk
      simp [hnil] at this
    · simp

theorem checkParts_eq_none (h : checkParts (l :: ls) = none) :
    checkEmpty (l :: ls) = none ∧ checkPart (ls.length + 1) 0 l = none ∧
      ∀ m ∈ ls, ∃ i, checkPart (ls.length + 1) (i + 1) m = none := by
  rw [checkParts, Option.or_eq_none_iff, findSome?_eq_none_iff] at h
  refine ⟨h.1, h.2 (l, 0) (by simp), fun m hm => ?_⟩
  obtain ⟨i, hi, rfl⟩ := getElem_of_mem hm
  refine ⟨i, h.2 (ls[i], i + 1) ?_⟩
  rw [mem_zipIdx_iff_getElem?]
  simp

theorem validAndSplitDomain_ok {domain : Str} {parts : List Str}
    (h : validAndSplitDomain domain = .ok parts) :
    parts = (domain.splitOn domainStepByte).map toLower ∧ Pattern parts := by
  unfold validAndSplitDomain at h
  split_ifs at h with h1 h2 h3 h4
  dsimp only at h
  split at h
  · cases h
  rename_i hcheck
  obtain rfl : _ = parts := Except.ok.inj h
  rw [splitOn_toLower] at hcheck ⊢
  refine ⟨rfl, ?_⟩
  have hlow : ∀ m ∈ (domain.splitOn domainStepByte).map toLower,
      (∃ s, m = toLower s) ∧ domainStepByte ∉ m := by
    intro m hm
    obtain ⟨r, hr, rfl⟩ := mem_map.mp hm
    exact ⟨⟨r, rfl⟩, fun hs => not_mem_of_mem_splitOn hr (mem_of_mem_toLower step_lt hs)⟩
  rcases hparts : (domain.splitOn domainStepByte).map toLower with _ | ⟨l, ls⟩
  · simp at hparts
  rw [hparts] at hcheck hlow
  obtain ⟨hempty, hfirst, hrest⟩ := checkParts_eq_none hcheck
  obtain ⟨hne, hl⟩ := checkEmpty_eq_none hempty
  have hlabels : ∀ m ∈ ls, Label m := by
    intro m hm
    obtain ⟨i, hi⟩ := hrest m hm
    obtain ⟨hs, hstep⟩ := hlow m (mem_cons_of_mem l hm)
    have hpart := checkPart_eq_none hi
    exact ⟨hs, hne m hm, hstep, fun hc => absurd (hpart.1 hc).2.1 (by omega), hpart.2⟩
  have hpart := checkPart_eq_none hfirst
  by_cases hnil : l = []
  · rw [hnil]
    exact .suffix (hl hnil) hlabels
  by_cases hplus : complexWildcardByte ∈ l
  · obtain ⟨rfl, -, hn⟩ := hpart.1 hplus
    exact .complex (fun h0 => hn (by rw [h0]; rfl)) hlabels
  · obtain ⟨hs, hstep⟩ := hlow l mem_cons_self
    exact .plain (forall_mem_cons.mpr ⟨⟨hs, hnil, hstep, hplus, hpart.2⟩, hlabels⟩)

end Mihomo.Trie
