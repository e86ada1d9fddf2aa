import Mihomo.Trie.Map
import Mihomo.Trie.Key

/-!
# How a query is read

The walks read a query backwards, one byte at a time, in lower case; a query with bytes above ASCII is
first brought into a form for which that gives the bytes of its reversed runes. Either way the bytes
read are `readOf`.
-/

namespace Mihomo.Trie
open Go UInt8
open List hiding reverse

def readOf (s : Str) : Str := reverse (toLower s)

theorem lowerByte_table :
    ∀ n < 256, ((0x41 ≤ n ∧ n ≤ 0x5A) ∨ lowerByte (ofNat n) = ofNat n) ∧
    (n < 0x80 → (lowerByte (ofNat n)).toNat < 0x80) ∧
    (lowerByte (ofNat n) = wildcardByte → ofNat n = wildcardByte) := by
  decide +kernel

theorem lowerByte_spec (b : UInt8) : ((0x41 ≤ b.toNat ∧ b.toNat ≤ 0x5A) ∨ lowerByte b = b) ∧
    (b.toNat < 0x80 → (lowerByte b).toNat < 0x80) ∧
    (lowerByte b = wildcardByte → b = wildcardByte) := by
  have h := lowerByte_table b.toNat b.toNat_lt
  rwa [UInt8.ofNat_toNat] at h

theorem normalize_map_reverse (s : Str) : ((normalize s).map lowerByte).reverse = readOf s := by
  unfold normalize readOf
  split_ifs with h
  · have hlow : ∀ b ∈ toLower (reverse s), lowerByte b = b := fun b hb =>
      (lowerByte_spec b).1.resolve_left (no_upper_toLower hb)
    rw [byteReverse, map_reverse, reverse_reverse, map_congr_left hlow, map_id',
      toLower_reverse]
  · have hascii : ∀ b ∈ s, b.toNat < 0x80 := by
      intro b hb
      by_contra hge
      refine h (any_eq_true.mpr ⟨b, hb, decide_eq_true (le_iff_toNat_le.mpr ?_)⟩)
      exact Nat.le_of_not_lt hge
    have hmap : ∀ b ∈ s.map lowerByte, b.toNat < 0x80 :=
      forall_mem_map.mpr fun b hb => (lowerByte_spec b).2.1 (hascii b hb)
    rw [toLower_of_ascii hascii, reverse_of_ascii hmap]

theorem length_normalize (s : Str) : (normalize s).length = (readOf s).length := by
  rw [← normalize_map_reverse, length_reverse, length_map]

theorem revLowerAt_normalize (s : Str) (i : Nat) :
    revLowerAt (normalize s) i = inRange (readOf s)[i]? := by
  have hlen := length_normalize s
  unfold revLowerAt
  split_ifs with hi
  · rw [← normalize_map_reverse, getElem?_reverse (by rwa [length_map]), length_map,
      getElem?_map]
    cases (normalize s)[(normalize s).length - 1 - i]? <;> rfl
  · rw [getElem?_eq_none (by omega)]
    rfl

theorem normalize_eq_wildcard {s : Str} : normalize s = wildcard ↔ toLower s = wildcard := by
  have hread := normalize_map_reverse s
  have hrev : readOf s = wildcard ↔ toLower s = wildcard := by
    constructor
    · intro h
      rw [← toLower_wildcard]
      exact toLower_eq_of_reverse (by rw [toLower_wildcard]; exact h)
    · intro h
      rw [readOf, h, reverse_wildcard]
  rw [← hrev, ← hread]
  constructor
  · intro h
    rw [h]
    rfl
  · intro h
    rcases hn : normalize s with _ | ⟨b, _ | ⟨c, rest⟩⟩
    · rw [hn] at h
      cases h
    · rw [hn] at h
      have hb : lowerByte b = wildcardByte := (cons.inj h).1
      rw [(lowerByte_spec b).2.2 hb]
      rfl
    · have hlen := congrArg length h
      rw [hn] at hlen
      simp [wildcard, ascii] at hlen

/-! ### Labels of a query -/

def QueryLabel (l : Str) : Prop := Label l ∨ l = complexWildcard

structure Query (q : Str) (raws : List Str) : Prop where
  join : q = joinDomain raws.reverse
  step : ∀ r ∈ raws, domainStepByte ∉ r
  label : ∀ r ∈ raws, QueryLabel (toLower r)
  ne_nil : raws ≠ []

variable {q r : Str}

theorem query_of_accepted {parts : List Str} (h : validAndSplitDomain q = .ok parts)
    (hfirst : parts.head? ≠ some []) : ∃ raws, parts.reverse = raws.map toLower ∧ Query q raws := by
  obtain ⟨hparts, hpat⟩ := validAndSplitDomain_ok h
  have hlabel : ∀ l ∈ parts, QueryLabel l := by
    cases hpat with
    | plain hl => exact fun l hm => .inl (hl l hm)
    | suffix _ hl => exact absurd head?_cons hfirst
    | complex _ hl => exact forall_mem_cons.mpr ⟨.inr rfl, fun l hm => .inl (hl l hm)⟩
  refine ⟨(q.splitOn domainStepByte).reverse, by rw [hparts, map_reverse], ?_, ?_, ?_, ?_⟩
  · rw [reverse_reverse, joinDomain, intercalate_splitOn]
  · exact fun r hr => not_mem_of_mem_splitOn (mem_reverse.mp hr)
  · intro r hr
    refine hlabel _ ?_
    rw [hparts]
    exact mem_map_of_mem (mem_reverse.mp hr)
  · simp

theorem QueryLabel.ne_nil {l : Str} (h : QueryLabel l) : l ≠ [] := by
  rcases h with h | rfl
  · exact h.ne_nil
  · decide

theorem Query.raw_ne_nil {raws : List Str} (h : Query q raws) : ∀ r ∈ raws, r ≠ [] := by
  rintro r hr rfl
  exact (h.label [] hr).ne_nil toLower_nil

theorem joinDomain_snoc (ls : List Str) (r : Str) :
    joinDomain (ls ++ [r]) = if ls = [] then r else joinDomain ls ++ domainStepByte :: r := by
  split_ifs with h
  · rw [h, nil_append, joinDomain_singleton]
  · rw [joinDomain_append h (by simp), joinDomain_singleton]

theorem takeWhile_reverse (h : domainStepByte ∉ r) (s : Str) :
    (r.reverse ++ s).takeWhile (· ≠ domainStepByte) = r.reverse ++ s.takeWhile (· ≠ domainStepByte) :=
  takeWhile_append_of_pos fun b hb => by
    simpa using fun he : b = domainStepByte => h (he ▸ mem_reverse.mp hb)

theorem dropWhile_reverse (h : domainStepByte ∉ r) (s : Str) :
    (r.reverse ++ s).dropWhile (· ≠ domainStepByte) = s.dropWhile (· ≠ domainStepByte) :=
  dropWhile_append_of_pos fun b hb => by
    simpa using fun he : b = domainStepByte => h (he ▸ mem_reverse.mp hb)

theorem lastPart_snoc (ls : List Str) (h : domainStepByte ∉ r) :
    lastPart (joinDomain (ls ++ [r])) = r := by
  rw [joinDomain_snoc, lastPart]
  split_ifs
  · have := takeWhile_reverse h []
    rw [append_nil] at this
    rw [this, takeWhile_nil, append_nil, reverse_reverse]
  · rw [List.reverse_append, reverse_cons, append_assoc, takeWhile_reverse h]
    simp

theorem remaining_snoc (ls : List Str) (h : domainStepByte ∉ r) :
    remaining (joinDomain (ls ++ [r])) = joinDomain ls := by
  rw [joinDomain_snoc, remaining]
  split_ifs with hls
  · have := dropWhile_reverse h []
    rw [append_nil] at this
    rw [this, hls]
    rfl
  · rw [List.reverse_append, reverse_cons, append_assoc, dropWhile_reverse h]
    simp

theorem length_le_joinDomain {ls : List Str} (h : ∀ l ∈ ls, l ≠ []) :
    ls.length ≤ (joinDomain ls).length := by
  induction ls with
  | nil => exact Nat.le_refl 0
  | cons l ls ih =>
    rw [forall_mem_cons] at h
    have hl := length_pos_iff.mpr h.1
    have hls := ih h.2
    by_cases hne : ls = []
    · rw [hne, joinDomain_singleton]
      exact hl
    · rw [joinDomain_cons l hne, length_append, length_cons, length_cons]
      omega

end Mihomo.Trie
