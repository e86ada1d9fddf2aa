import Mihomo.Trie.Index
import Mihomo.Trie.Query

/-!
# The edges of a node, by way of the cached select distances

`edgesOf` finds the first edge of a node from the select index and one cached byte,
or by a select where the byte overflowed. `findEdge` and `staticWalk` then reach the
node of a longer prefix exactly if there is one.
-/

namespace Mihomo.Trie
open Go Lib List Nat

theorem mapM_eq_ok {ε α β : Type} {f : α → Except ε β} {g : α → β} {l : List α}
    (h : ∀ a ∈ l, f a = .ok (g a)) : l.mapM f = .ok (l.map g) := by
  induction l with
  | nil => rfl
  | cons a l ih =>
    rw [forall_mem_cons] at h
    rw [mapM_cons, h.1, ih h.2]
    rfl

variable {keys : List Str} {k i : Nat} {p : Str} {c : UInt8}

/-! ### The cached starts -/

def oneAt (keys : List Str) (i : Nat) : Nat := ((select1 (layoutOf keys).labelBitmap i).getD 0)

def deltaAt (keys : List Str) (i : Nat) : Nat :=
  let delta : Int := oneAt keys i - oneAt keys (32 * (i / 32))
  if delta < 0 ∨ delta ≥ domainMapSelectOverflow then domainMapSelectOverflow else delta.toNat

theorem select_eq_oneAt (hi : i < (nodesOf keys).length) :
    select1 (layoutOf keys).labelBitmap i = some (oneAt keys i) := by
  have h := select1_of_node (kids keys) (getElem?_eq_getElem hi)
  change select1 (layoutOf keys).labelBitmap i = _ at h
  rw [oneAt, h]
  rfl

theorem oneAt_eq (h : At keys (k + 1) p) : oneAt keys k + 1 = start keys (k + 1) := by
  have hk : k < (nodesOf keys).length := lt_of_succ_lt (List.getElem?_eq_some_iff.mp h).1
  have hs := h.select_before
  rw [selectIthOne, select_eq_oneAt hk] at hs
  rw [Except.ok.inj hs, Nat.sub_add_cancel (one_le_start keys k)]

theorem selects_eq (hi : i < (nodesOf keys).length) :
    (layoutOf keys).selects[i / 32]? = some (oneAt keys (32 * (i / 32))) := by
  have hcount : (bitsOf (kids keys) (nodesOf keys)).count true = (nodesOf keys).length := count_bitsOf _
  have hmap : (layoutOf keys).selects =
      (range (((nodesOf keys).length + 31) / 32)).map fun j => oneAt keys (32 * j) := by
    rw [← hcount]
    refine filterMap_eq_map_iff_forall_eq_some.mpr fun j hj => select_eq_oneAt ?_
    rw [mem_range] at hj
    omega
  have hlt : i / 32 < ((nodesOf keys).length + 31) / 32 := by omega
  rw [hmap, getElem?_map, getElem?_range hlt]
  rfl

theorem selectDelta_eq (hi : i < (nodesOf keys).length) :
    selectDelta (layoutOf keys) i = .ok (deltaAt keys i) := by
  rw [selectDelta, selectIthOne, select_eq_oneAt hi, selects_eq hi]
  rfl

theorem length_labels (hne : keys ≠ []) :
    (layoutOf keys).labels.length + 1 = (nodesOf keys).length := by
  have hlen : (layoutOf keys).labels.length =
      ((nodesOf keys).flatMap fun p => (kids keys p).map Prod.snd).length := by
    simp [layoutOf, labelsOf]
  conv_rhs => rw [numbered_nodesOf hne]
  rw [hlen, length_cons]

def deltasOf (keys : List Str) : List Nat :=
  (range (layoutOf keys).labels.length).map (deltaAt keys)

theorem initSelectDeltas_eq (hne : keys ≠ []) :
    initSelectDeltas (layoutOf keys) = .ok (deltasOf keys) := by
  refine mapM_eq_ok fun i hi => selectDelta_eq ?_
  have := length_labels hne
  rw [mem_range] at hi
  omega

def indexOf (keys : List Str) : DomainMapIndex := ⟨layoutOf keys, deltasOf keys⟩

theorem childStart_eq (h : At keys (k + 1) p) :
    (indexOf keys).childStart k (deltaAt keys k) = .ok (start keys (k + 1)) := by
  have hk : k < (nodesOf keys).length := lt_of_succ_lt (List.getElem?_eq_some_iff.mp h).1
  rw [← oneAt_eq h, DomainMapIndex.childStart]
  split_ifs with hd
  · rw [selectIthOne, indexOf, select_eq_oneAt hk]
    rfl
  · rw [indexOf, selects_eq hk]
    have hdelta : oneAt keys (32 * (k / 32)) + deltaAt keys k = oneAt keys k := by
      unfold deltaAt at hd ⊢
      dsimp only at hd ⊢
      split_ifs at hd ⊢ with hover
      · exact absurd rfl hd
      · omega
    change Except.ok (oneAt keys (32 * (k / 32)) + deltaAt keys k + 1) = _
    rw [hdelta]

theorem At.edgesOf (hne : keys ≠ []) (h : At keys k p) (hk : k ≠ 0) :
    (indexOf keys).edgesOf k = .ok (start keys k) := by
  rcases k with _ | k
  · exact absurd rfl hk
  · have hlt : k < (layoutOf keys).labels.length := by
      have := length_labels hne
      have := (List.getElem?_eq_some_iff.mp h).1
      omega
    have hdelta : (indexOf keys).selectDeltas[k]? = some (deltaAt keys k) := by
      rw [indexOf, deltasOf, getElem?_map, getElem?_range hlt]
      rfl
    rw [DomainMapIndex.edgesOf, Nat.add_sub_cancel, hdelta]
    exact childStart_eq h

/-! ### The search for an edge -/

theorem skipEdges_spec (hk : At keys k p) {passed ahead : List UInt8} {fuel : Nat}
    (hsplit : edges keys p = passed ++ ahead) (hfuel : ahead.length < fuel) :
    ∃ i, (indexOf keys).skipEdges k c fuel (start keys k + passed.length) = .ok i ∧
      ((EdgeAt keys k p c i ∧ c ∈ ahead) ∨ (c ∉ ahead ∧
        (getBit (layoutOf keys).labelBitmap i = .ok true ∨ ∃ d ≠ c, EdgeAt keys k p d i))) := by
  induction ahead generalizing passed fuel with
  | nil =>
    obtain ⟨fuel, rfl⟩ := exists_eq_succ_of_ne_zero (ne_of_gt hfuel)
    have hstop := hk.stop_of_split (hsplit.trans (append_nil _))
    refine ⟨start keys k + passed.length, ?_, .inr ⟨not_mem_nil, .inl hstop⟩⟩
    rw [DomainMapIndex.skipEdges, indexOf, hstop]
    rfl
  | cons d ahead ih =>
    obtain ⟨fuel, rfl⟩ := exists_eq_succ_of_ne_zero (ne_of_gt (zero_lt_of_lt hfuel))
    have hedge : EdgeAt keys k p d _ := edgeAt_of_split hsplit
    have hlarger := lt_of_split hsplit
    have hround : (indexOf keys).skipEdges k c (fuel + 1) (start keys k + passed.length) =
        if d < c then (indexOf keys).skipEdges k c fuel (start keys k + passed.length + 1)
        else .ok (start keys k + passed.length) := by
      rw [DomainMapIndex.skipEdges, indexOf, hedge.bit hk, hedge.label hk]
      rfl
    by_cases hlt : d < c
    · obtain ⟨i, hi, hspec⟩ := ih (split_succ hsplit) (lt_of_succ_lt_succ hfuel)
      rw [length_append, length_singleton, ← add_assoc] at hi
      refine ⟨i, by rw [hround, if_pos hlt, hi], ?_⟩
      have hmem : c ∈ d :: ahead ↔ c ∈ ahead := by
        simp [hlt.ne']
      rwa [hmem]
    · refine ⟨_, by rw [hround, if_neg hlt], ?_⟩
      by_cases hd : d = c
      · subst hd
        exact .inl ⟨hedge, mem_cons_self⟩
      · refine .inr ⟨fun hmem => ?_, .inr ⟨d, hd, hedge⟩⟩
        rcases mem_cons.mp hmem with h | h
        · exact hd h.symm
        · exact hlt (hlarger c h)

def Reached (keys : List Str) (q : Str) : Option Nat → Prop
  | some m => At keys m q
  | none => ¬ IsNode keys q

theorem findEdge_spec (hne : keys ≠ []) (hk : At keys k p) (c : UInt8) :
    ∃ r, (indexOf keys).findEdge k (start keys k) c = .ok r ∧
      Reached keys (p ++ [c]) (r.map fun i => i - k + 1) := by
  have hsplit : edges keys p = [] ++ edges keys p := rfl
  obtain ⟨i, hi, hspec⟩ := skipEdges_spec hk hsplit (lt_scanFuel hk hsplit)
  rw [length_nil, add_zero] at hi
  change ∃ r, ((indexOf keys).skipEdges k c (layoutOf keys).scanFuel (start keys k)).bind _ = .ok r ∧ _
  rw [hi]
  change ∃ r, (getBit (layoutOf keys).labelBitmap i).bind _ = .ok r ∧ _
  rcases hspec with ⟨hedge, hmem⟩ | ⟨hmem, hstop | ⟨d, hd, hedge⟩⟩
  · refine ⟨some i, ?_, hedge.child hne hk⟩
    rw [hedge.bit hk]
    change ((layoutOf keys).labelAt i k).bind _ = _
    rw [hedge.label hk]
    exact if_neg fun h => h rfl
  · refine ⟨none, ?_, fun hnode => hmem (mem_edges.mpr hnode)⟩
    rw [hstop]
    rfl
  · refine ⟨none, ?_, fun hnode => hmem (mem_edges.mpr hnode)⟩
    rw [hedge.bit hk]
    change ((layoutOf keys).labelAt i k).bind _ = _
    rw [hedge.label hk]
    exact if_pos hd

theorem enter_spec (hne : keys ≠ []) (hk : At keys k p) (h0 : k ≠ 0) :
    ∃ r, (indexOf keys).enter k = .ok (r.map fun m => (m, start keys m)) ∧
      Reached keys (p ++ [domainStepByte]) r := by
  obtain ⟨r, hr, hreached⟩ := findEdge_spec hne hk domainStepByte
  refine ⟨r.map fun i => i - k + 1, ?_, hreached⟩
  rw [DomainMapIndex.enter, if_neg h0, hk.edgesOf hne h0]
  change ((indexOf keys).findEdge k (start keys k) domainStepByte).bind _ = _
  rw [hr]
  cases r with
  | none => rfl
  | some i =>
    change ((indexOf keys).edgesOf (i - k + 1)).bind _ = _
    have hchild : At keys (i - k + 1) (p ++ [domainStepByte]) := hreached
    rw [hchild.edgesOf hne (succ_ne_zero _)]
    rfl

def Walked (keys : List Str) (p bs : Str) : Option Nat → Prop
  | some m => At keys m (p ++ bs) ∧ complexWildcardByte ∉ bs
  | none => ¬ IsNode keys (p ++ bs) ∨ complexWildcardByte ∈ bs

theorem staticWalk_spec (hne : keys ≠ []) {part bs : Str} (hlen : part.length = bs.length)
    (hread : ∀ i, revLowerAt part i = inRange bs[i]?) {n offset idx : Nat}
    (hn : offset + n = bs.length) (hk : At keys k p) (hidx : n ≠ 0 → idx = start keys k) :
    ∃ r, (indexOf keys).staticWalk part n offset k idx = .ok r ∧ Walked keys p (bs.drop offset) r := by
  induction n generalizing offset k p idx with
  | zero =>
    rw [drop_of_length_le (by omega)]
    exact ⟨some k, rfl, by rwa [append_nil], not_mem_nil⟩
  | succ n ih =>
    have hlt : offset < bs.length := by omega
    obtain rfl := hidx (succ_ne_zero n)
    have hdrop : bs.drop offset = bs[offset] :: bs.drop (offset + 1) := drop_eq_getElem_cons hlt
    obtain ⟨r, hr, hreached⟩ := findEdge_spec hne hk bs[offset]
    rw [hdrop, DomainMapIndex.staticWalk, hread, getElem?_eq_getElem hlt]
    change ∃ r, ((indexOf keys).findEdge k (start keys k) bs[offset]).bind _ = .ok r ∧ _
    rw [hr]
    cases r with
    | none =>
      refine ⟨none, rfl, .inl fun hnode => ?_⟩
      have hno : ¬ IsNode keys (p ++ [bs[offset]]) := hreached
      exact hno (.of_append (s := bs.drop (offset + 1)) (by simpa using hnode))
    | some i =>
      have hchild : At keys (i - k + 1) (p ++ [bs[offset]]) := hreached
      by_cases hplus : bs[offset] = complexWildcardByte
      · exact ⟨none, if_pos hplus, .inr (hplus ▸ mem_cons_self)⟩
      · -- the edges of the child are looked up only if another byte follows
        have hnext :
            ∃ next, (if offset + 1 < part.length then (indexOf keys).edgesOf (i - k + 1) else .ok i) =
            .ok next ∧ (n ≠ 0 → next = start keys (i - k + 1)) := by
          split_ifs with hmore
          · exact ⟨_, hchild.edgesOf hne (succ_ne_zero _), fun _ => rfl⟩
          · exact ⟨i, rfl, fun h => (hmore (by omega)).elim⟩
        obtain ⟨next, hnext, hstart⟩ := hnext
        have hn' : offset + 1 + n = bs.length := by omega
        obtain ⟨r, hr, hwalked⟩ := ih hn' hchild hstart
        refine ⟨r, ?_, ?_⟩
        · change (if bs[offset] = complexWildcardByte then Except.ok none else _) = _
          rw [if_neg hplus, hnext]
          exact hr
        · cases r with
          | none =>
            refine hwalked.imp (fun h => ?_) (mem_cons_of_mem _)
            rwa [append_assoc] at h
          | some m =>
            obtain ⟨hm, hno⟩ := hwalked
            rw [append_assoc] at hm
            exact ⟨hm, not_mem_cons_of_ne_of_not_mem (.symm hplus) hno⟩

end Mihomo.Trie
