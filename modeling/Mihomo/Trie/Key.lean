import Mihomo.Trie.Pattern

/-!
# Paths and their keys

The key of a path in the succinct structures is `encode`: the reversed labels joined by dots, with `+`
for the empty label. Different paths have different keys, `+` only ends a key, and a key that goes on
after the key of a path and a dot belongs to a longer path.
-/

namespace Mihomo.Trie
open Go
open List hiding reverse

def pathsOf (parts : List Str) : List (List Str) :=
  if parts.head? = some complexWildcard then
    [parts.tail.reverse, (dotWildcard :: parts.tail).reverse]
  else [parts.reverse]

def Path (p : List Str) : Prop :=
  ∃ ls, ls ≠ [] ∧ (∀ l ∈ ls, Label l) ∧ (p = ls ∨ p = ls ++ [dotWildcard])

variable {p parts q ls : List Str} {l s : Str}

theorem Path.ne_nil (h : Path p) : p ≠ [] := by
  obtain ⟨ls, hne, -, rfl | rfl⟩ := h
  · exact hne
  · simp

theorem Path.label_or (h : Path p) : ∀ l ∈ p, Label l ∨ l = dotWildcard := by
  obtain ⟨ls, -, hls, rfl | rfl⟩ := h
  · exact fun l hl => .inl (hls l hl)
  · intro l hl
    rcases mem_append.mp hl with hl | hl
    · exact .inl (hls l hl)
    · exact .inr (mem_singleton.mp hl)

theorem Label.ne_complexWildcard (h : Label l) : l ≠ complexWildcard := by
  rintro rfl
  exact h.complex (by decide)

theorem pathsOf_complexWildcard (ls : List Str) :
    pathsOf (complexWildcard :: ls) = [ls.reverse, (dotWildcard :: ls).reverse] := if_pos head?_cons

theorem pathsOf_cons (h : l ≠ complexWildcard) (ls : List Str) :
    pathsOf (l :: ls) = [(l :: ls).reverse] := if_neg (by simpa using h)

theorem path_of_mem_pathsOf (h : Pattern parts) : ∀ p ∈ pathsOf parts, Path p := by
  intro p hp
  have hrev : ∀ {ls : List Str}, (∀ m ∈ ls, Label m) → ∀ m ∈ ls.reverse, Label m :=
    fun h m hm => h m (mem_reverse.mp hm)
  cases h with
  | @plain l ls h =>
    rw [pathsOf_cons (h l mem_cons_self).ne_complexWildcard, mem_singleton] at hp
    exact ⟨_, by simp, hrev h, .inl hp⟩
  | @suffix ls hne h =>
    rw [pathsOf_cons (by decide), mem_singleton, reverse_cons] at hp
    exact ⟨_, by simpa using hne, hrev h, .inr hp⟩
  | @complex ls hne h =>
    rw [pathsOf_complexWildcard, mem_cons, mem_singleton, reverse_cons] at hp
    exact ⟨_, by simpa using hne, hrev h, hp⟩

def labelKey (l : Str) : Str := if l = dotWildcard then complexWildcard else reverse l

def encode (p : List Str) : Str := joinDomain (p.map labelKey)

def stem (p : List Str) : Str := if p = [] then [] else encode p ++ [domainStepByte]

theorem Label.labelKey_eq (h : Label l) : labelKey l = reverse l := if_neg h.ne_nil

theorem Label.labelKey_ne_nil (h : Label l) : labelKey l ≠ [] := by
  rw [h.labelKey_eq]
  obtain ⟨s, hs⟩ := h.lowered
  intro hnil
  have hlow : toLower s = toLower [] := toLower_eq_of_reverse (by rw [← hs, hnil]; rfl)
  exact h.ne_nil (hs.trans hlow)

variable {b w : UInt8}

theorem not_mem_labelKey (h : Label l) (hb : b.toNat < 0x80) (hl : b ∉ l) : b ∉ labelKey l := by
  rw [h.labelKey_eq]
  exact fun hmem => hl (mem_of_mem_reverse hb hmem)

theorem step_not_mem_labelKey (h : Label l ∨ l = dotWildcard) : domainStepByte ∉ labelKey l := by
  rcases h with h | rfl
  · exact not_mem_labelKey h step_ascii h.step
  · decide

theorem complex_not_mem_labelKey (h : Label l) : complexWildcardByte ∉ labelKey l :=
  not_mem_labelKey h (by decide) h.complex

theorem labelKey_inj {m : Str} (hl : Label l ∨ l = dotWildcard) (hm : Label m ∨ m = dotWildcard)
    (h : labelKey l = labelKey m) : l = m := by
  have hdot : complexWildcardByte ∈ labelKey dotWildcard := by decide
  rcases hl with hl | rfl
  · rcases hm with hm | rfl
    · rw [hl.labelKey_eq, hm.labelKey_eq] at h
      obtain ⟨s, rfl⟩ := hl.lowered
      obtain ⟨t, rfl⟩ := hm.lowered
      exact toLower_eq_of_reverse h
    · exact absurd (h ▸ hdot) (complex_not_mem_labelKey hl)
  · rcases hm with hm | rfl
    · exact absurd (h ▸ hdot) (complex_not_mem_labelKey hm)
    · rfl

theorem map_labelKey_inj (hp : ∀ l ∈ p, Label l ∨ l = dotWildcard)
    (hq : ∀ l ∈ q, Label l ∨ l = dotWildcard) (h : p.map labelKey = q.map labelKey) : p = q := by
  induction p generalizing q with
  | nil => exact (map_eq_nil_iff.mp h.symm).symm
  | cons l p ih =>
    rcases q with _ | ⟨m, q⟩
    · cases h
    · rw [map_cons, map_cons, cons.injEq] at h
      rw [forall_mem_cons] at hp hq
      rw [labelKey_inj hp.1 hq.1 h.1, ih hp.2 hq.2 h.2]

theorem encode_inj (hp : Path p) (hq : Path q) (h : encode p = encode q) : p = q := by
  refine map_labelKey_inj hp.label_or hq.label_or (joinDomain_inj ?_ ?_ ?_ ?_ h)
  · exact forall_mem_map.mpr fun l hl => step_not_mem_labelKey (hp.label_or l hl)
  · exact forall_mem_map.mpr fun l hl => step_not_mem_labelKey (hq.label_or l hl)
  · simpa using hp.ne_nil
  · simpa using hq.ne_nil

theorem encode_snoc (p : List Str) (l : Str) : encode (p ++ [l]) = stem p ++ labelKey l := by
  unfold encode stem
  split_ifs with hp
  · rw [hp]
    simp
  · rw [map_append, joinDomain_append (by simpa using hp) (by simp), encode]
    simp

theorem stem_mono (h : p <+: q) (hne : p ≠ q) : stem p <+: encode q := by
  obtain ⟨r, rfl⟩ := h
  have hr : r ≠ [] := fun h0 => hne (by rw [h0, append_nil])
  unfold stem
  split_ifs with hp
  · exact nil_prefix
  · rw [encode, encode, map_append, joinDomain_append (by simpa using hp) (by simpa using hr)]
    exact ⟨joinDomain (r.map labelKey), by simp⟩

theorem encode_mono (h : p <+: q) : encode p <+: encode q := by
  by_cases hne : p = q
  · rw [hne]
  · have hstem := stem_mono h hne
    unfold stem at hstem
    split_ifs at hstem with hp
    · rw [hp]
      exact nil_prefix
    · exact (prefix_append ..).trans hstem

theorem mem_joinDomain (h : b ∈ joinDomain ls) : b = domainStepByte ∨ ∃ l ∈ ls, b ∈ l := by
  induction ls with
  | nil => cases h
  | cons l ls ih =>
    by_cases hls : ls = []
    · rw [hls, joinDomain_singleton] at h
      exact .inr ⟨l, mem_cons_self, h⟩
    · rw [joinDomain_cons l hls, mem_append, mem_cons] at h
      rcases h with h | h | h
      · exact .inr ⟨l, mem_cons_self, h⟩
      · exact .inl h
      · exact (ih h).imp id fun ⟨m, hm, hb⟩ => ⟨m, mem_cons_of_mem l hm, hb⟩

theorem complex_not_mem_encode (h : ∀ l ∈ ls, Label l) : complexWildcardByte ∉ encode ls := by
  intro hmem
  rcases mem_joinDomain hmem with hb | ⟨s, hs, hb⟩
  · exact absurd hb (by decide)
  · obtain ⟨l, hl, rfl⟩ := mem_map.mp hs
    exact complex_not_mem_labelKey (h l hl) hb

theorem eq_encode_of_complex (hp : Path p)
    (h : s ++ [complexWildcardByte] <+: encode p) : s ++ [complexWildcardByte] = encode p := by
  obtain ⟨ls, hne, hls, rfl | rfl⟩ := hp
  · exact absurd (h.subset (by simp)) (complex_not_mem_encode hls)
  · have hno : complexWildcardByte ∉ stem ls := by
      rw [stem, if_neg hne, mem_append, not_or]
      exact ⟨complex_not_mem_encode hls, by decide⟩
    rw [encode_snoc] at h ⊢
    rcases prefix_concat_iff.mp h with he | hpre
    · exact he
    · exact absurd (hpre.subset (by simp)) hno

/-! ### Reading a key back -/

theorem eq_nil_of_concat (h : s ++ [w] <+: [w]) : s = [] := by
  have hlen := h.length_le
  rw [length_append] at hlen
  exact length_eq_zero_iff.mp (by omega)

theorem follows_dot (hw : w ≠ domainStepByte) (h : ∀ l ∈ ls, w ∈ l → l = [w])
    (hs : s ++ [w] <+: joinDomain ls) : s = [] ∨ s.getLast? = some domainStepByte := by
  induction ls generalizing s with
  | nil => simp at hs
  | cons l ls ih =>
    rw [forall_mem_cons] at h
    have hfirst : s ++ [w] <+: l → s = [] := fun hpre =>
      eq_nil_of_concat (h.1 (hpre.subset (by simp)) ▸ hpre)
    by_cases hls : ls = []
    · rw [hls, joinDomain_singleton] at hs
      exact .inl (hfirst hs)
    have hcons : joinDomain (l :: ls) = (l ++ [domainStepByte]) ++ joinDomain ls := by
      rw [joinDomain_cons l hls]
      simp
    rw [hcons] at hs
    have hlast : s ++ [w] ≠ l ++ [domainStepByte] :=
      fun he => hw (by simpa using (append_inj' he rfl).2)
    rcases prefix_or_prefix_of_prefix hs (prefix_append ..) with hpre | hpre
    · exact .inl (hfirst ((prefix_concat_iff.mp hpre).resolve_left hlast))
    · obtain ⟨s', rfl⟩ := (prefix_concat_iff.mp hpre).resolve_left hlast.symm
      rw [append_assoc, prefix_append_right_inj] at hs
      refine .inr ?_
      rw [getLast?_append]
      rcases ih h.2 hs with rfl | hlast'
      · simp
      · rw [hlast']
        rfl

theorem wildcard_alone (h : Label l ∨ l = dotWildcard) (hmem : wildcardByte ∈ labelKey l) :
    labelKey l = [wildcardByte] := by
  rcases h with h | rfl
  · rw [h.labelKey_eq] at hmem
    rw [h.wild (mem_of_mem_reverse (by decide) hmem)]
    rfl
  · exact absurd hmem (by decide)

theorem complex_alone (h : Label l ∨ l = dotWildcard) (hmem : complexWildcardByte ∈ labelKey l) :
    labelKey l = [complexWildcardByte] := by
  rcases h with h | rfl
  · exact absurd hmem (complex_not_mem_labelKey h)
  · rfl

theorem split_at_dot {a b x y : Str} (ha : domainStepByte ∉ a) (hb : domainStepByte ∉ b)
    (hy : y = [] ∨ y.head? = some domainStepByte) (h : a ++ domainStepByte :: x <+: b ++ y) :
    a = b ∧ ∃ y', y = domainStepByte :: y' ∧ x <+: y' := by
  induction a generalizing b with
  | nil =>
    rcases b with _ | ⟨d, b⟩
    · obtain ⟨z, hz⟩ := h
      exact ⟨rfl, x ++ z, hz.symm, prefix_append x z⟩
    · rw [nil_append, cons_append, cons_prefix_cons] at h
      exact absurd (h.1 ▸ mem_cons_self) hb
  | cons c a ih =>
    rw [mem_cons, not_or] at ha
    rcases b with _ | ⟨d, b⟩
    · rcases hy with rfl | hy
      · simp at h
      · obtain ⟨y, rfl⟩ := head?_eq_some_iff.mp hy
        rw [nil_append, cons_append, cons_prefix_cons] at h
        exact absurd h.1.symm ha.1
    · rw [cons_append, cons_append, cons_prefix_cons] at h
      rw [mem_cons, not_or] at hb
      obtain ⟨rfl, hrest⟩ := ih ha.2 hb.2 h.2
      exact ⟨by rw [h.1], hrest⟩

theorem encode_cons (l : Str) (p : List Str) :
    encode (l :: p) = labelKey l ++ if p = [] then [] else domainStepByte :: encode p := by
  split_ifs with hp
  · rw [hp]
    simp [encode]
  · rw [encode, map_cons, joinDomain_cons _ (by simpa using hp), encode]

theorem stem_cons (l : Str) (p : List Str) : stem (l :: p) = labelKey l ++ domainStepByte :: stem p := by
  rw [stem, if_neg (cons_ne_nil l p), encode_cons, stem]
  split_ifs <;> simp

theorem path_of_stem {c : UInt8} (hp : ∀ l ∈ p, Label l) (hq : ∀ l ∈ q, Label l ∨ l = dotWildcard)
    (h : stem p ++ [c] <+: encode q) : ∃ l r, q = p ++ l :: r ∧ (labelKey l).head? = some c := by
  induction p generalizing q with
  | nil =>
    rcases q with _ | ⟨l, r⟩
    · exact absurd h (by simp [encode])
    · refine ⟨l, r, rfl, ?_⟩
      have hne : labelKey l ≠ [] := by
        rcases hq l mem_cons_self with hl | rfl
        · exact hl.labelKey_ne_nil
        · decide
      obtain ⟨d, s, hs⟩ := exists_cons_of_ne_nil hne
      rw [encode_cons, hs, stem, if_pos rfl, nil_append, cons_append, cons_prefix_cons] at h
      rw [hs, h.1]
      rfl
  | cons m p ih =>
    rw [forall_mem_cons] at hp
    rcases q with _ | ⟨l, r⟩
    · exact absurd h (by simp [encode])
    · rw [forall_mem_cons] at hq
      rw [stem_cons, encode_cons, append_assoc] at h
      obtain ⟨hml, y, hy, hpre⟩ := split_at_dot (step_not_mem_labelKey (.inl hp.1))
        (step_not_mem_labelKey hq.1) (by split_ifs <;> simp) h
      obtain rfl : m = l := labelKey_inj (.inl hp.1) hq.1 hml
      split_ifs at hy with hr
      rw [cons.injEq] at hy
      rw [← hy.2] at hpre
      obtain ⟨l, r', rfl, hc⟩ := ih hp.2 hq.2 hpre
      exact ⟨l, r', rfl, hc⟩

/-! ### The keys of the builder -/

theorem keyOf_eq (h : ∀ l ∈ parts.tail, l ≠ []) : keyOf parts = encode parts.reverse := by
  rcases parts with _ | ⟨l, ls⟩
  · rfl
  have hfix :
      (if (l :: ls).head? = some dotWildcard then complexWildcard :: (l :: ls).tail else l :: ls) =
      (if l = dotWildcard then complexWildcard else l) :: ls := by
    by_cases hl : l = dotWildcard <;> simp [hl]
  have htail : ls.reverse.map reverse = ls.reverse.map labelKey :=
    map_congr_left fun m hm => (if_neg (h m (mem_reverse.mp hm))).symm
  have hhead : reverse (if l = dotWildcard then complexWildcard else l) = labelKey l := by
    unfold labelKey
    split_ifs
    · exact reverse_complexWildcard
    · rfl
  rw [keyOf, hfix, reverse_joinDomain, encode, reverse_cons, map_append, htail,
    map_singleton, hhead, reverse_cons, map_append, map_singleton]

theorem Pattern.tail_ne_nil (h : Pattern parts) : ∀ l ∈ parts.tail, l ≠ [] := by
  cases h with
  | plain h => exact fun m hm => (h m (mem_cons_of_mem _ hm)).ne_nil
  | suffix _ h | complex _ h => exact fun m hm => (h m hm).ne_nil

theorem insertKeys_eq {domain : Str} (h : validAndSplitDomain domain = .ok parts)
    (keys : List Str) : insertKeys keys domain = .ok (keys ++ (pathsOf parts).map encode) := by
  have htail := (validAndSplitDomain_ok h).2.tail_ne_nil
  rw [insertKeys, h]
  dsimp only
  unfold pathsOf
  split_ifs with hc
  · obtain ⟨ls, rfl⟩ : ∃ ls, parts = complexWildcard :: ls :=
      ⟨parts.tail, (cons_head?_tail hc).symm⟩
    -- the key of the pattern itself is the one of its suffix form
    have hdot : keyOf (complexWildcard :: ls) = keyOf (dotWildcard :: ls) := rfl
    have hkey : keyOf (dotWildcard :: ls) = encode (dotWildcard :: ls).reverse := keyOf_eq htail
    have hrest : keyOf ls = encode ls.reverse := keyOf_eq fun m hm => htail m (mem_of_mem_tail hm)
    rw [hdot, hkey, tail_cons, hrest]
    rfl
  · rw [keyOf_eq htail]
    rfl

end Mihomo.Trie
