import Mihomo.Trie.Cached
import Mihomo.Trie.Stored

/-!
# Lookups in the succinct map find what the trie finds

`match` follows the priorities of `find`: the label itself, then `*`, then the suffix
edge. A node that stands in the middle of a longer label does no harm, because
neither a value nor a `.` edge is found there.
-/

namespace Mihomo.Trie
open Go Lib List Option Nat

variable {T : Type} {t : DomainTrie T} {keys : List Str} {k m : Nat} {π : List Str} {p : Str}

/-! ### One label -/

def Found (t : DomainTrie T) (keys : List Str) (v : Option T) : Option Nat → Prop
  | none => v = none
  | some k => ∃ p, Path p ∧ At keys k (encode p) ∧ t.root.lookup p = v ∧ v ≠ none

theorem Found.or {v w : Option T} {r s : Option Nat} (hr : Found t keys v r) (hs : Found t keys w s) :
    Found t keys (v.or w) (r.or s) := by
  cases r with
  | none =>
    have hv : v = none := hr
    rwa [hv]
  | some k =>
    obtain ⟨p, hp, hk, hv, hne⟩ := hr
    rw [or_of_isSome (isSome_iff_ne_none.mpr hne)]
    exact ⟨p, hp, hk, hv, hne⟩

section Scan

variable {s : Str} {below : Nat → Except Fault (Option Nat)} {v w : Option T}

def wildValue (part : Str) (v w : Option T) (ahead : List UInt8) : Option T :=
  (if wildcardByte ∈ ahead ∧ part ≠ wildcard then v else none).or
    (if complexWildcardByte ∈ ahead then w else none)

variable {part : Str} {ahead : List UInt8} {d : UInt8}

theorem wildValue_wildcard (h : wildcardByte ∉ ahead) :
    wildValue part v w (wildcardByte :: ahead) =
      (if part = wildcard then none else v).or (wildValue part v w ahead) := by
  have hne : complexWildcardByte ≠ wildcardByte := wildcard_lt.ne'
  simp [wildValue, h, hne]

theorem wildValue_complex (h : wildcardByte ∉ ahead) :
    wildValue part v w (complexWildcardByte :: ahead) = w := by
  have hne : wildcardByte ≠ complexWildcardByte := wildcard_lt.ne
  simp [wildValue, h, hne]

theorem wildValue_above (h : ∀ e ∈ ahead, complexWildcardByte < e) :
    wildValue part v w ahead = none := by
  have hstar : wildcardByte ∉ ahead := fun hmem => wildcard_lt.asymm (h _ hmem)
  have hplus : complexWildcardByte ∉ ahead := fun hmem => lt_irrefl _ (h _ hmem)
  simp [wildValue, hstar, hplus]

theorem wildValue_cons (hw : d ≠ wildcardByte) (hp : d ≠ complexWildcardByte) :
    wildValue part v w (d :: ahead) = wildValue part v w ahead := by
  simp [wildValue, hw.symm, hp.symm]

theorem wildValue_eq (hstar : wildcardByte ∉ ahead → v = none)
    (hplus : complexWildcardByte ∉ ahead → w = none) :
    wildValue part v w ahead = (if part = wildcard then none else v).or w := by
  have hw : (if complexWildcardByte ∈ ahead then w else none) = w := by
    split_ifs with h
    · rfl
    · exact (hplus h).symm
  rw [wildValue, hw]
  by_cases h : wildcardByte ∈ ahead
  · simp [h]
  · simp [hstar h]

theorem scanWildcards_succ (hk : At keys k s) {pos : Nat} (hedge : EdgeAt keys k s d pos) (fuel : Nat) :
    (indexOf keys).scanWildcards below part k (fuel + 1) pos =
      if d = wildcardByte then
        (if part = wildcard then .ok none else below (pos - k + 1)).bind fun terminal =>
          if terminal.isSome then .ok terminal
          else (indexOf keys).scanWildcards below part k fuel (pos + 1)
      else if d = complexWildcardByte then .ok (some (pos - k + 1))
      else if d > complexWildcardByte then .ok none
      else (indexOf keys).scanWildcards below part k fuel (pos + 1) := by
  rw [DomainMapIndex.scanWildcards, indexOf, hedge.bit hk, hedge.label hk]
  rfl

theorem scanWildcards_found (hne : keys ≠ []) (hk : At keys k s) (part : Str)
    (hstar : ∀ m, At keys m (s ++ [wildcardByte]) → ∃ r, below m = .ok r ∧ Found t keys v r)
    (hplus : ∀ m, At keys m (s ++ [complexWildcardByte]) → Found t keys w (some m))
    {passed ahead : List UInt8} {fuel : Nat} (hsplit : edges keys s = passed ++ ahead)
    (hfuel : ahead.length < fuel) :
    ∃ r, (indexOf keys).scanWildcards below part k fuel (start keys k + passed.length) = .ok r ∧
      Found t keys (wildValue part v w ahead) r := by
  induction ahead generalizing passed fuel with
  | nil =>
    obtain ⟨fuel, rfl⟩ := exists_eq_succ_of_ne_zero (ne_of_gt hfuel)
    have hstop := hk.stop_of_split (hsplit.trans (append_nil _))
    refine ⟨none, ?_, wildValue_above nofun⟩
    rw [DomainMapIndex.scanWildcards, indexOf, hstop]
    rfl
  | cons d ahead ih =>
    obtain ⟨fuel, rfl⟩ := exists_eq_succ_of_ne_zero (ne_of_gt (zero_lt_of_lt hfuel))
    have hedge : EdgeAt keys k s d _ := edgeAt_of_split hsplit
    have hchild := hedge.child hne hk
    have hlarger := lt_of_split hsplit
    obtain ⟨r, hr, hfound⟩ := ih (split_succ hsplit) (lt_of_succ_lt_succ hfuel)
    rw [length_append, length_singleton, ← add_assoc] at hr
    rw [scanWildcards_succ hk hedge, hr]
    by_cases hw : d = wildcardByte
    · subst hw
      have htry : ∃ r', (if part = wildcard then .ok none else
          below (start keys k + passed.length - k + 1)) = .ok r' ∧
          Found t keys (if part = wildcard then none else v) r' := by
        split_ifs
        · exact ⟨none, rfl, rfl⟩
        · exact hstar _ hchild
      obtain ⟨r', hr', hfound'⟩ := htry
      rw [wildValue_wildcard fun h => lt_irrefl _ (hlarger _ h), hr']
      refine ⟨r'.or r, ?_, hfound'.or hfound⟩
      cases r' <;> rfl
    by_cases hp : d = complexWildcardByte
    · subst hp
      rw [wildValue_complex fun h => wildcard_lt.asymm (hlarger _ h)]
      exact ⟨_, by rw [if_neg hw, if_pos rfl], hplus _ hchild⟩
    rw [if_neg hw, if_neg hp]
    by_cases hgt : d > complexWildcardByte
    · rw [wildValue_above (forall_mem_cons.mpr ⟨hgt, fun e he => hgt.trans (hlarger e he)⟩)]
      exact ⟨none, if_pos hgt, rfl⟩
    · rw [wildValue_cons hw hp]
      exact ⟨r, if_neg hgt, hfound⟩

end Scan

theorem enter_path (hne : keys ≠ []) (hπ : ∀ l ∈ π, Label l) (hk : At keys k (encode π)) :
    ∃ r, (indexOf keys).enter k = .ok (r.map fun m => (m, start keys m)) ∧
      Reached keys (stem π) r := by
  by_cases hnil : π = []
  · rw [hnil] at hk
    obtain rfl := hk.eq_zero hne
    refine ⟨some 0, by rw [map_some]; rfl, ?_⟩
    rw [stem, if_pos hnil]
    exact hk
  · have h0 : k ≠ 0 := by
      rintro rfl
      have hroot := Option.some.inj (hk.symm.trans at_root)
      exact hnil ((encode_eq_nil hπ).mp hroot)
    rw [stem, if_neg hnil]
    exact enter_spec hne hk h0

section Label

variable {raw : Str} {ls : List Str} {below : Nat → Except Fault (Option Nat)}

def Below (t : DomainTrie T) (keys : List Str) (π ls : List Str)
    (below : Nat → Except Fault (Option Nat)) : Prop :=
  ∀ l, Label l → ∀ m, At keys m (encode (π ++ [l])) →
    ∃ r, below m = .ok r ∧ Found t keys (find ls fun p => t.root.lookup (π ++ l :: p)) r

theorem static_found (hne : keys ≠ []) (hs : Stored t keys) (hm : At keys m (stem π))
    (hraw : QueryLabel (toLower raw)) (hbelow : Below t keys π ls below) :
    ∃ r, (indexOf keys).staticWalk (normalize raw) (normalize raw).length 0 m (start keys m) = .ok r ∧
      ∃ terminal, r.elim (.ok none) below = .ok terminal ∧
        Found t keys (find ls fun p => t.root.lookup (π ++ toLower raw :: p)) terminal := by
  have hlen : 0 + (normalize raw).length = (readOf raw).length := by
    rw [zero_add, length_normalize]
  obtain ⟨r, hr, hwalked⟩ :=
    staticWalk_spec hne (length_normalize raw) (revLowerAt_normalize raw) hlen hm
    fun _ => rfl
  refine ⟨r, hr, ?_⟩
  cases r with
  | none => exact ⟨none, rfl, find_eq_none (hs.lookup_through hraw hwalked)⟩
  | some node =>
    obtain ⟨hnode, hno⟩ := hwalked
    have hlabel : Label (toLower raw) := by
      refine hraw.resolve_right fun h => hno ?_
      rw [readOf, h]
      exact mem_cons_self
    refine hbelow _ hlabel node ?_
    rw [encode_snoc, hlabel.labelKey_eq]
    exact hnode

section

variable (hne : keys ≠ []) (hs : Stored t keys) (hπ : ∀ l ∈ π, Label l) (hm : At keys m (stem π))
include hne hs hπ hm

theorem wildcards_found (hbelow : Below t keys π ls below) (part : Str) :
    ∃ r, (indexOf keys).scanWildcards below part m (layoutOf keys).scanFuel (start keys m) = .ok r ∧
      Found t keys
        ((if part = wildcard then none else find ls fun p => t.root.lookup (π ++ wildcard :: p)).or
        (t.root.lookup (π ++ [dotWildcard]))) r := by
  have hkey : stem π ++ [wildcardByte] = encode (π ++ [wildcard]) := by
    rw [encode_snoc]
    rfl
  have hplus : ∀ m, At keys m (stem π ++ [complexWildcardByte]) →
      Found t keys (t.root.lookup (π ++ [dotWildcard])) (some m) := by
    intro m hm
    obtain ⟨hval, hpath⟩ := hs.complex hπ (hm.isNode hne)
    refine ⟨_, hpath, ?_, rfl, hval⟩
    rw [encode_snoc]
    exact hm
  have hsplit : edges keys (stem π) = [] ++ edges keys (stem π) := rfl
  obtain ⟨r, hr, hfound⟩ := scanWildcards_found hne hm part
    (fun m hm => hbelow wildcard label_wildcard m (hkey ▸ hm)) hplus hsplit (lt_scanFuel hm hsplit)
  refine ⟨r, hr, ?_⟩
  -- without an edge there is no value either
  have hnostar : wildcardByte ∉ edges keys (stem π) →
      (find ls fun p => t.root.lookup (π ++ wildcard :: p)) = none := by
    intro h
    refine find_eq_none
      (hs.lookup_through (.inl label_wildcard) (.inl fun hnode => h (mem_edges.mpr ?_)))
    rwa [reverse_wildcard] at hnode
  have hnoplus :
      complexWildcardByte ∉ edges keys (stem π) → t.root.lookup (π ++ [dotWildcard]) = none := by
    intro h
    by_contra hval
    refine h (mem_edges.mpr (hs.isNode hval ?_))
    rw [encode_snoc]
    exact prefix_rfl
  rwa [wildValue_eq hnostar hnoplus] at hfound

theorem label_found (hraw : QueryLabel (toLower raw)) (hbelow : Below t keys π ls below) :
    ∃ r terminal r',
      (indexOf keys).staticWalk (normalize raw) (normalize raw).length 0 m (start keys m) = .ok r ∧
      r.elim (.ok none) below = .ok terminal ∧
      (indexOf keys).scanWildcards below (normalize raw) m (layoutOf keys).scanFuel (start keys m) =
        .ok r' ∧
      Found t keys (find (toLower raw :: ls) fun p => t.root.lookup (π ++ p)) (terminal.or r') := by
  obtain ⟨r, hr, terminal, hterminal, hfound⟩ := static_found hne hs hm hraw hbelow
  obtain ⟨r', hr', hfound'⟩ := wildcards_found hne hs hπ hm hbelow (normalize raw)
  refine ⟨r, terminal, r', hr, hterminal, hr', ?_⟩
  rw [find]
  by_cases hpart : normalize raw = wildcard
  · rw [if_pos hpart] at hfound'
    -- the label is `*` itself, so the `*` edge has been tried
    rw [normalize_eq_wildcard.mp hpart] at hfound ⊢
    rw [← Option.or_assoc, Option.or_self]
    exact hfound.or hfound'
  · rw [if_neg hpart] at hfound'
    exact hfound.or hfound'

end

theorem find_below (hs : Stored t keys) (h : ¬ IsNode keys (stem π)) (l : Str) :
    (find (l :: ls) fun p => t.root.lookup (π ++ p)) = none := by
  have hno : ∀ l' p, t.root.lookup (π ++ l' :: p) = none := fun l' p =>
    hs.lookup_below h (cons_ne_nil l' p)
  rw [find, find_eq_none (hno _), find_eq_none (hno _), hno]
  rfl

end Label

/-! ### Whole queries -/

theorem leaf_found (hs : Stored t keys) (hπ : ∀ l ∈ π, Label l) (hk : At keys k (encode π)) :
    Found t keys (t.root.lookup π) (if encode π ∈ keys then some k else none) := by
  have hmem := hs.mem_keys hπ
  by_cases hval : t.root.lookup π = none
  · rw [if_neg fun h => hmem.mp h hval]
    exact hval
  · rw [if_pos (hmem.mpr hval)]
    exact ⟨π, hs.path π hval, hk, rfl, hval⟩

theorem match_found (hne : keys ≠ []) (hs : Stored t keys) {raws : List Str} {fuel : Nat}
    (hstep : ∀ r ∈ raws, domainStepByte ∉ r) (hlabel : ∀ r ∈ raws, QueryLabel (toLower r))
    (hπ : ∀ l ∈ π, Label l) (hk : At keys k (encode π)) (hfuel : raws.length < fuel) :
    ∃ r, (indexOf keys).match fuel k (joinDomain raws.reverse) = .ok r ∧
      Found t keys (find (raws.map toLower) fun p => t.root.lookup (π ++ p)) r := by
  induction raws generalizing π k fuel with
  | nil =>
    obtain ⟨fuel, rfl⟩ := exists_eq_succ_of_ne_zero (ne_of_gt hfuel)
    refine ⟨_, ?_, by simpa only [map_nil, find, append_nil] using leaf_found hs hπ hk⟩
    rw [DomainMapIndex.match, indexOf, hk.leaf]
    by_cases h : encode π ∈ keys
    · simp only [h]
      rfl
    · simp only [h]
      rfl
  | cons raw raws ih =>
    obtain ⟨fuel, rfl⟩ := exists_eq_succ_of_ne_zero (ne_of_gt (zero_lt_of_lt hfuel))
    rw [forall_mem_cons] at hstep hlabel
    have hraw : raw ≠ [] := by
      rintro rfl
      exact hlabel.1.ne_nil toLower_nil
    have hdomain : joinDomain (raws.reverse ++ [raw]) ≠ [] := by
      rw [joinDomain_snoc]
      split_ifs <;> simp [hraw]
    have hbelow : Below t keys π (raws.map toLower) fun child =>
        (indexOf keys).match fuel child (joinDomain raws.reverse) := by
      intro l hl m hm
      simpa using
        ih hstep.2 hlabel.2 (forall_snoc hπ hl) hm (lt_of_succ_lt_succ hfuel)
    rw [reverse_cons, DomainMapIndex.match, if_neg hdomain, lastPart_snoc _ hstep.1,
      remaining_snoc _ hstep.1]
    obtain ⟨entered, henter, hreached⟩ := enter_path hne hπ hk
    rw [henter]
    cases entered with
    | none => exact ⟨none, rfl, find_below hs hreached _⟩
    | some m =>
      obtain ⟨r, terminal, r', hr, hterminal, hr', hfound⟩ :=
        label_found hne hs hπ hreached hlabel.1 hbelow
      refine ⟨terminal.or r', ?_, hfound⟩
      change ((indexOf keys).staticWalk (normalize raw) (normalize raw).length 0 m
        (start keys m)).bind _ = _
      rw [hr]
      have hgo : ((r.elim (.ok none) fun child =>
            (indexOf keys).match fuel child (joinDomain raws.reverse)).bind fun terminal =>
          if terminal.isSome then .ok terminal else .ok r') = .ok (terminal.or r') := by
        rw [hterminal]
        cases terminal <;> rfl
      rw [← hgo, ← hr']
      cases r <;> rfl

def terminalsOf (keys : List Str) : List Str := (nodesOf keys).filter fun p => decide (p ∈ keys)

theorem terminalsOf_ne_nil (hne : keys ≠ []) : terminalsOf keys ≠ [] := by
  rcases eq_nil_or_concat (nodesOf keys) with h | ⟨init, p, h⟩
  · have hroot : At keys 0 [] := at_root
    rw [At, h] at hroot
    cases hroot
  · rw [concat_eq_append] at h
    refine ne_nil_of_mem (mem_filter.mpr ⟨?_, decide_eq_true (last_node hne h)⟩)
    rw [h]
    exact mem_append_right _ mem_cons_self

theorem values_eq {f : Str → T} {key : Str} (hk : At keys k key) (hkey : key ∈ keys) :
    ((terminalsOf keys).map f)[rank1 (layoutOf keys).leaves k]? = some (f key) := by
  rw [getElem?_map, terminalsOf]
  have h := getElem?_filter_rank1 (fun p => decide (p ∈ keys)) hk (decide_eq_true hkey)
  rw [layoutOf, h]
  rfl

theorem At.lt_words (hk : At keys k p) : k / 64 < words (layoutOf keys).leaves := by
  have hlen : (layoutOf keys).leaves.length = (nodesOf keys).length := List.length_map _
  have := (List.getElem?_eq_some_iff.mp hk).1
  unfold words
  omega

def mapOf (keys : List Str) (f : Str → T) : DomainMap T := ⟨indexOf keys, (terminalsOf keys).map f⟩

theorem build_eq [Inhabited T] (b : DomainMapBuilder T) (hne : b.keys ≠ []) :
    b.build = .ok (some (mapOf (sortedKeys b.keys) fun key => (b.valueKeys key).getD default)) := by
  rw [DomainMapBuilder.build, buildDomainSet_eq hne]
  change (initSelectDeltas (layoutOf (sortedKeys b.keys))).bind _ = _
  rw [initSelectDeltas_eq (sortedKeys_ne_nil hne)]
  rfl

theorem lookup_of_found {f : Str → T} {q : Str} {v : Option T} {r : Option Nat} (hne : keys ≠ [])
    (hs : Stored t keys) (hf : ∀ p x, Path p → t.root.lookup p = some x → f (encode p) = x)
    (hr : (indexOf keys).match (q.length + 1) 0 q = .ok r) (hfound : Found t keys v r) :
    lookup (some (mapOf keys f)) q = .ok v := by
  have hvalues : (mapOf keys f).values ≠ [] := by
    simpa [mapOf] using terminalsOf_ne_nil hne
  rw [lookup, if_neg hvalues]
  change ((indexOf keys).match (q.length + 1) 0 q).bind _ = _
  rw [hr]
  cases r with
  | none =>
    have hv : v = none := hfound
    rw [hv]
    rfl
  | some k =>
    obtain ⟨p, hp, hk, hv, hval⟩ := hfound
    obtain ⟨x, hx⟩ := ne_none_iff_exists'.mp hval
    have hkey : encode p ∈ keys := (hs.keys _).mpr ⟨p, hv ▸ hval, rfl⟩
    have hvalue : (mapOf keys f).values[rank1 (layoutOf keys).leaves k]? = some x := by
      rw [← hf p x hp (hv.trans hx)]
      exact values_eq hk hkey
    change (if k / 64 < words (layoutOf keys).leaves then
      some <$> inRange (mapOf keys f).values[rank1 (layoutOf keys).leaves k]? else _) = _
    rw [if_pos hk.lt_words, hvalue, hx]
    rfl

/-- After the same insertions `Lookup` and `Search` agree on every accepted domain with a
first label: both find the same value or none, and no index of the walk is out of range. -/
theorem lookup_eq_search [Inhabited T] (entries : List (Str × T))
    (hentries : ∀ e ∈ entries, Accepted e.1) (q : Str) (parts : List Str)
    (hq : validAndSplitDomain q = .ok parts) (hfirst : parts.head? ≠ some []) :
    ∃ t b m, DomainTrie.new.insertAll entries = .ok t ∧ DomainMapBuilder.new.insertAll entries = .ok b ∧
      b.build = .ok m ∧ lookup m q = .ok ((t.search q).bind Node.data) ∧
      ∀ v, lookup m q = .ok (some v) ↔ ∃ n, t.search q = some n ∧ n.data = some v := by
  obtain ⟨t, b, ht, hb, hs, hv⟩ := insertAll_map hentries stored_new valued_new
  obtain ⟨raws, hraws, hquery⟩ := query_of_accepted hq hfirst
  have hsearch := t.search_eq hq hfirst
  suffices h : ∃ m, b.build = .ok m ∧ lookup m q = .ok ((t.search q).bind Node.data) by
    obtain ⟨m, hm, hlookup⟩ := h
    refine ⟨t, b, m, ht, hb, hm, hlookup, fun v => ?_⟩
    rw [hlookup, Except.ok.injEq, Option.bind_eq_some_iff]
  by_cases hkeys : b.keys = []
  · -- nothing was stored
    refine ⟨none, ?_, ?_⟩
    · rw [DomainMapBuilder.build, hkeys]
      rfl
    · have hnone : ∀ p, t.root.lookup p = none := by
        intro p
        by_contra hp
        have hmem := (hs.keys (encode p)).mpr ⟨p, hp, rfl⟩
        rw [hkeys] at hmem
        cases hmem
      rw [hsearch, find_eq_none hnone]
      rfl
  · have hsorted := sortedKeys_ne_nil hkeys
    have hfuel : raws.length < q.length + 1 := by
      have hle := length_le_joinDomain fun r hr => hquery.raw_ne_nil r (List.mem_reverse.mp hr)
      rw [List.length_reverse, ← hquery.join] at hle
      omega
    obtain ⟨r, hr, hfound⟩ := match_found hsorted hs.sorted hquery.step hquery.label
      (forall_mem_nil _) at_root hfuel
    rw [← hquery.join] at hr
    refine ⟨_, build_eq b hkeys, ?_⟩
    rw [hsearch, hraws]
    refine lookup_of_found hsorted hs.sorted (fun p x hp hx => ?_) hr hfound
    rw [hv p hp, hx]
    rfl

theorem lookup_eq_search_priority :
    ∃ t b m, DomainTrie.new.insertAll [(ascii "+.b", 1), (ascii "*.b", 2), (ascii "A.b", 3)] = .ok t ∧
      DomainMapBuilder.new.insertAll [(ascii "+.b", 1), (ascii "*.b", 2), (ascii "A.b", 3)] = .ok b ∧
      b.build = .ok m ∧ lookup m (ascii "a.B") = .ok ((t.search (ascii "a.B")).bind Node.data) ∧
      ∀ v, lookup m (ascii "a.B") = .ok (some v) ↔
        ∃ n, t.search (ascii "a.B") = some n ∧ n.data = some v :=
  lookup_eq_search _
    (List.forall_mem_cons.mpr ⟨⟨[ascii "+", ascii "b"], by decide +kernel⟩,
      List.forall_mem_cons.mpr ⟨⟨[ascii "*", ascii "b"], by decide +kernel⟩,
        List.forall_mem_cons.mpr ⟨⟨[ascii "a", ascii "b"], by decide +kernel⟩,
          (forall_mem_nil _)⟩⟩⟩)
    (ascii "a.B") [ascii "a", ascii "b"] (by decide +kernel) (by decide)

end Mihomo.Trie
