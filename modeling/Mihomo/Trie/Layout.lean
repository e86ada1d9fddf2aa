import Mihomo.Lib.PrefixTree
import Mihomo.Trie.Set

/-!
# What the construction of a domain set writes down

The queue elements of `buildDomainSet` are the keys with a common prefix, so its levels are those of
the prefix tree of the keys and its arrays the level-order coding of that tree.
-/

namespace Mihomo.Trie
open Go Lib List Nat

theorem mem_compact {k : Str} {keys : List Str} : k ∈ compact keys ↔ k ∈ keys := by
  induction keys using compact.induct with
  | case1 | case2 => rfl
  | case3 k' ks ih =>
    rw [compact, if_pos rfl, ih]
    simp
  | case4 k' k'' ks hne ih =>
    rw [compact, if_neg hne, mem_cons, ih, ← mem_cons]

theorem compact_increasing {keys : List Str} (h : keys.Pairwise (· ≤ ·)) :
    (compact keys).Pairwise (· < ·) := by
  induction keys using compact.induct with
  | case1 => exact .nil
  | case2 k => exact pairwise_singleton ..
  | case3 k ks ih =>
    rw [compact, if_pos rfl]
    exact ih (pairwise_cons.mp h).2
  | case4 k k' ks hne ih =>
    rw [pairwise_cons] at h
    rw [compact, if_neg hne, pairwise_cons]
    refine ⟨fun x hx => ?_, ih h.2⟩
    have hk : k < k' := lt_of_le_of_ne (h.1 k' mem_cons_self) hne
    rcases mem_cons.mp (mem_compact.mp hx) with rfl | hx
    · exact hk
    · exact lt_of_lt_of_le hk ((pairwise_cons.mp h.2).1 x hx)

theorem mem_sortKeys {k : Str} {keys : List Str} : k ∈ sortKeys keys ↔ k ∈ keys :=
  (perm_insertionSort _ _).mem_iff

theorem sortKeys_sorted (keys : List Str) : (sortKeys keys).Pairwise (· ≤ ·) :=
  pairwise_insertionSort _ _

def sortedKeys (keys : List Str) : List Str := compact (sortKeys keys)

theorem mem_sortedKeys {k : Str} {keys : List Str} : k ∈ sortedKeys keys ↔ k ∈ keys := by
  rw [sortedKeys, mem_compact, mem_sortKeys]

theorem sortedKeys_increasing (keys : List Str) : (sortedKeys keys).Pairwise (· < ·) :=
  compact_increasing (sortKeys_sorted keys)

theorem sortedKeys_ne_nil {keys : List Str} (h : keys ≠ []) : sortedKeys keys ≠ [] := by
  obtain ⟨k, hk⟩ := exists_mem_of_ne_nil keys h
  exact ne_nil_of_mem (mem_sortedKeys.mpr hk)

theorem sortedKeys_congr {keys keys' : List Str} (h : ∀ k, k ∈ keys ↔ k ∈ keys') :
    sortedKeys keys = sortedKeys keys' :=
  (sortedKeys_increasing keys).eq_of_mem_iff (sortedKeys_increasing keys') fun k => by
    rw [mem_sortedKeys, mem_sortedKeys, h]

def under (keys : List Str) (p : Str) : List Str := keys.filter fun k => p <+: k

theorem mem_under {keys : List Str} {p k : Str} : k ∈ under keys p ↔ k ∈ keys ∧ p <+: k := by
  simp [under]

theorem isNode_cons {k : Str} {ks : List Str} {p : Str} :
    IsNode (k :: ks) p ↔ p <+: k ∨ IsNode ks p := by
  simp [IsNode]

theorem prefix_append_singleton {p s : Str} {c d : UInt8} : p ++ [d] <+: p ++ c :: s ↔ d = c := by
  simp

theorem head_le_of_append_le {p s t : Str} {c d : UInt8} (h : p ++ c :: s ≤ p ++ d :: t) : c ≤ d := by
  by_contra hlt
  have hdc : p ++ d :: t < p ++ c :: s := .append_left _ (.rel (not_le.mp hlt)) p
  exact not_le.mpr hdc h

theorem head_le_edges {p s : Str} {c : UInt8} {ks : List Str} (hle : ∀ k ∈ ks, p ++ c :: s ≤ k)
    {d : UInt8} (hd : d ∈ edges ks p) : c ≤ d := by
  obtain ⟨k, hk, t, rfl⟩ := mem_edges.mp hd
  have hkey := hle _ hk
  rw [append_assoc] at hkey
  exact head_le_of_append_le hkey

theorem under_cons {p s : Str} {c d : UInt8} {ks : List Str} :
    under ((p ++ c :: s) :: ks) (p ++ [d]) =
      if d = c then (p ++ c :: s) :: under ks (p ++ [d]) else under ks (p ++ [d]) := by
  rw [under, filter_cons]
  simp only [prefix_append_singleton, decide_eq_true_eq]
  rfl

theorem under_eq_nil {p : Str} {c : UInt8} {ks : List Str} (h : c ∉ edges ks p) :
    under ks (p ++ [c]) = [] :=
  eq_nil_iff_forall_not_mem.mpr fun k hk =>
    h (mem_edges.mpr ⟨k, (mem_under.mp hk).1, (mem_under.mp hk).2⟩)

section Cons

variable {p s : Str} {c : UInt8} {ks : List Str}

theorem groups_cons {cs : List UInt8} (h : ∀ d ∈ cs, c < d) :
    cs.map (fun d => (d, under ((p ++ c :: s) :: ks) (p ++ [d]))) = cs.map fun d =>
      (d, under ks (p ++ [d])) :=
  map_congr_left fun d hd => by rw [under_cons, if_neg (h d hd).ne']

theorem edges_cons_new (hle : ∀ k ∈ ks, p ++ c :: s ≤ k) (h : c ∉ edges ks p) :
    (∀ d ∈ edges ks p, c < d) ∧ edges ((p ++ c :: s) :: ks) p = c :: edges ks p := by
  have hlt : ∀ d ∈ edges ks p, c < d := fun d hd =>
    lt_of_le_of_ne (head_le_edges hle hd) fun he => h (he ▸ hd)
  refine ⟨hlt, edges_eq_of_mem (pairwise_cons.mpr ⟨hlt, edges_increasing ks p⟩) fun d => ?_⟩
  rw [isNode_cons, prefix_append_singleton, mem_cons, mem_edges]

theorem edges_cons_old (hle : ∀ k ∈ ks, p ++ c :: s ≤ k) (h : c ∈ edges ks p) :
    ∃ cs, (∀ d ∈ cs, c < d) ∧ edges ks p = c :: cs ∧ edges ((p ++ c :: s) :: ks) p = c :: cs := by
  have hinc := edges_increasing ks p
  have hsame : edges ((p ++ c :: s) :: ks) p = edges ks p := by
    refine edges_eq_of_mem hinc fun d => ?_
    rw [isNode_cons, prefix_append_singleton, ← mem_edges]
    exact ⟨.inr, fun hd => hd.elim (fun he => he ▸ h) id⟩
  rcases he : edges ks p with _ | ⟨c', cs⟩
  · rw [he] at h
    cases h
  · rw [he, pairwise_cons] at hinc
    obtain rfl : c = c' := by
      have hc' : c ≤ c' := head_le_edges hle (he ▸ mem_cons_self)
      rw [he, mem_cons] at h
      exact h.resolve_right fun hmem => not_lt.mpr hc' (hinc.1 c hmem)
    exact ⟨cs, hinc.1, rfl, hsame.trans he⟩

end Cons

theorem groupKeys_eq {p : Str} {ks : List Str} (hs : ks.Pairwise (· ≤ ·))
    (hp : ∀ k ∈ ks, ∃ c s, k = p ++ c :: s) :
    groupKeys p.length ks = .ok ((edges ks p).map fun c => (c, under ks (p ++ [c]))) := by
  induction ks with
  | nil => rfl
  | cons k ks ih =>
    rw [pairwise_cons] at hs
    rw [forall_mem_cons] at hp
    obtain ⟨⟨c, s, rfl⟩, hp⟩ := hp
    have hc : (p ++ c :: s)[p.length]? = some c := by
      rw [getElem?_append_right le_rfl, Nat.sub_self]
      rfl
    rw [groupKeys, ih hs.2 hp, hc]
    by_cases hmem : c ∈ edges ks p
    · -- the key joins the first run
      obtain ⟨cs, hlt, he, he'⟩ := edges_cons_old hs.1 hmem
      rw [he, he', map_cons, map_cons, groups_cons hlt, under_cons]
      simp [inRange, bind, Except.bind]
    · -- the key starts a run
      obtain ⟨hlt, he⟩ := edges_cons_new hs.1 hmem
      rw [he, map_cons, groups_cons hlt, under_cons, if_pos rfl, under_eq_nil hmem]
      cases hedges : edges ks p with
      | nil => rfl
      | cons c' cs =>
        have hne : c ≠ c' := (hlt c' (hedges ▸ mem_cons_self)).ne
        simp [inRange, bind, Except.bind, hne]

/-! ### One node -/

def beyond (keys : List Str) (p : Str) : List Str := keys.filter fun k => p <+: k ∧ k ≠ p

theorem mem_beyond {keys : List Str} {p k : Str} :
    k ∈ beyond keys p ↔ k ∈ keys ∧ p <+: k ∧ k ≠ p := by
  simp [beyond]

theorem exists_of_mem_beyond {keys : List Str} {p k : Str} (hk : k ∈ beyond keys p) :
    ∃ c s, k = p ++ c :: s := by
  obtain ⟨-, ⟨s, rfl⟩, hne⟩ := mem_beyond.mp hk
  rcases s with _ | ⟨c, s⟩
  · simp at hne
  · exact ⟨c, s, rfl⟩

theorem lt_append_cons (p : Str) (c : UInt8) (s : Str) : p < p ++ c :: s := by
  have h : p ++ [] < p ++ c :: s := .append_left _ .nil p
  rwa [append_nil] at h

variable {keys : List Str} {p : Str}

theorem under_eq (hinc : keys.Pairwise (· < ·)) :
    under keys p = if p ∈ keys then p :: beyond keys p else beyond keys p := by
  have hunder : (under keys p).Pairwise (· < ·) := hinc.filter _
  have hbeyond : (beyond keys p).Pairwise (· < ·) := hinc.filter _
  split_ifs with hp
  · refine hunder.eq_of_mem_iff (pairwise_cons.mpr ⟨fun k hk => ?_, hbeyond⟩) fun k => ?_
    · obtain ⟨c, s, rfl⟩ := exists_of_mem_beyond hk
      exact lt_append_cons p c s
    · rw [mem_cons, mem_under, mem_beyond]
      by_cases hk : k = p
      · simp [hk, hp]
      · simp [hk]
  · refine hunder.eq_of_mem_iff hbeyond fun k => ?_
    rw [mem_under, mem_beyond]
    refine and_congr_right fun hk => (and_iff_left ?_).symm
    rintro rfl
    exact hp hk

theorem beyond_of_prefix {k : Str} {c : UInt8} (h : p ++ [c] <+: k) : p <+: k ∧ k ≠ p := by
  refine ⟨(prefix_append ..).trans h, ?_⟩
  rintro rfl
  have := h.length_le
  rw [length_append, length_singleton] at this
  omega

theorem edges_beyond (keys : List Str) (p : Str) : edges (beyond keys p) p = edges keys p := by
  refine edges_eq_of_mem (edges_increasing keys p) fun c => ?_
  rw [mem_edges]
  refine exists_congr fun k => ?_
  rw [mem_beyond]
  exact ⟨fun h => ⟨⟨h.1, beyond_of_prefix h.2⟩, h.2⟩, fun h => ⟨h.1.1, h.2⟩⟩

theorem under_beyond (keys : List Str) (p : Str) (c : UInt8) :
    under (beyond keys p) (p ++ [c]) = under keys (p ++ [c]) := by
  rw [under, beyond, filter_filter]
  refine filter_congr fun k _ => ?_
  rw [← Bool.decide_and, decide_eq_decide]
  exact ⟨fun h => h.1, fun h => ⟨h, beyond_of_prefix h⟩⟩

theorem modify_length_append {α : Type} (l r : List α) (x : α) (f : α → α) :
    (l ++ x :: r).modify l.length f = l ++ f x :: r := by
  induction l with
  | nil => rfl
  | cons y l ih => simp [ih]

theorem setBit_eq {bm : Bitmap} {i : Nat} (h : bm.length ≤ i) (v : Bool) :
    setBit bm i v = bm ++ List.replicate (i - bm.length) false ++ [v] := by
  obtain ⟨d, rfl⟩ := Nat.exists_eq_add_of_le h
  have hlen : (bm ++ .replicate d false).length = bm.length + d := by
    rw [length_append, length_replicate]
  have hpad : bm.length + d + 1 - bm.length = d + 1 := by omega
  rw [setBit, hpad, Nat.add_sub_cancel_left, replicate_succ', ← append_assoc, ← hlen,
    modify_length_append, Bool.false_or]

theorem pushBit_eq (bm : Bitmap) (v : Bool) : pushBit bm v = bm ++ [v] := by
  rw [pushBit, setBit_eq le_rfl, Nat.sub_self, replicate_zero, append_nil]

theorem foldl_pushBit (vs : List Bool) (bm : Bitmap) : vs.foldl pushBit bm = bm ++ vs := by
  induction vs generalizing bm with
  | nil => simp
  | cons v vs ih => rw [foldl_cons, ih, pushBit_eq, append_assoc, singleton_append]

def Build.add (keys : List Str) (b : Build) (p : Str) : Build where
  leaves := if p ∈ keys then setBit b.leaves b.nodeID true else b.leaves
  labelBitmap := b.labelBitmap ++ unary (kids keys) p
  labels := b.labels ++ (kids keys p).map Prod.fst
  terminals := if p ∈ keys then b.terminals ++ [p] else b.terminals
  nodeID := b.nodeID + 1

theorem groupKeys_beyond (hinc : keys.Pairwise (· < ·)) :
    groupKeys p.length (beyond keys p) =
      .ok ((edges keys p).map fun c => (c, under keys (p ++ [c]))) := by
  have hsorted : (beyond keys p).Pairwise (· ≤ ·) := (hinc.filter _).imp le_of_lt
  rw [groupKeys_eq hsorted fun k hk => exists_of_mem_beyond hk, edges_beyond]
  simp only [under_beyond]

theorem visit_eq (hinc : keys.Pairwise (· < ·)) (hp : IsNode keys p) (b : Build) :
    visit p.length b (under keys p) =
      .ok (((kids keys p).map Prod.snd).map (under keys), b.add keys p) := by
  have hgroups := groupKeys_beyond (p := p) hinc
  have hbits : pushBit (((edges keys p).map fun _ => false).foldl pushBit b.labelBitmap) true =
      b.labelBitmap ++ unary (kids keys) p := by
    rw [foldl_pushBit, pushBit_eq, unary, kids, map_map, append_assoc]
    rfl
  rw [under_eq hinc]
  split_ifs with hk
  · simp only [visit, if_true, hgroups, Build.add, if_pos hk]
    simp only [bind, Except.bind, map_map, Function.comp_def, hbits, kids]
  · obtain ⟨k, ks, hb⟩ : ∃ k ks, beyond keys p = k :: ks := by
      obtain ⟨k, hkey, hpre⟩ := hp
      refine exists_cons_of_ne_nil (ne_nil_of_mem (mem_beyond.mpr ⟨hkey, hpre, ?_⟩))
      rintro rfl
      exact hk hkey
    obtain ⟨c, s, hks⟩ := exists_of_mem_beyond (hb ▸ mem_cons_self : k ∈ beyond keys p)
    have hlen : k.length ≠ p.length := by
      rw [hks, length_append, length_cons]
      omega
    rw [hb] at hgroups ⊢
    simp only [visit, if_neg hlen, hgroups, Build.add, if_neg hk]
    simp only [bind, Except.bind, map_map, Function.comp_def, hbits, kids]

/-! ### All nodes -/

theorem visitAll_eq (hinc : keys.Pairwise (· < ·)) {col : Nat} {ps : List Str}
    (hps : ∀ p ∈ ps, p.length = col ∧ IsNode keys p) (b : Build) :
    visitAll col b (ps.map (under keys)) =
      .ok ((ps.flatMap fun p => (kids keys p).map Prod.snd).map (under keys),
        ps.foldl (Build.add keys) b) := by
  induction ps generalizing b with
  | nil => rfl
  | cons p ps ih =>
    rw [forall_mem_cons] at hps
    obtain ⟨⟨rfl, hp⟩, hps⟩ := hps
    rw [map_cons, visitAll, visit_eq hinc hp]
    simp [bind, Except.bind, ih hps]

theorem kids_level {col : Nat} {ps : List Str} (hps : ∀ p ∈ ps, p.length = col ∧ IsNode keys p) :
    ∀ q ∈ ps.flatMap fun p => (kids keys p).map Prod.snd, q.length = col + 1 ∧ IsNode keys q := by
  intro q hq
  obtain ⟨p, hp, hq⟩ := mem_flatMap.mp hq
  rw [kids, map_map] at hq
  obtain ⟨c, hc, rfl⟩ := mem_map.mp hq
  refine ⟨?_, mem_edges.mp hc⟩
  rw [Function.comp_apply, length_append, (hps p hp).1, length_singleton]

theorem levels_nil (children : Str → List (UInt8 × Str)) (fuel : Nat) :
    levels children fuel [] = [] := by
  induction fuel with
  | zero => rfl
  | succ fuel ih => exact ih

theorem buildLoop_succ {fuel col : Nat} {queue : List (List Str)} (h : queue ≠ []) (b : Build) :
    buildLoop (fuel + 1) col queue b =
      (visitAll col b queue).bind fun r => buildLoop fuel (col + 1) r.1 r.2 := by
  rcases queue with _ | ⟨elt, queue⟩
  · exact absurd rfl h
  · rfl

theorem buildLoop_eq (hinc : keys.Pairwise (· < ·)) {fuel col : Nat} {ps : List Str}
    (hps : ∀ p ∈ ps, p.length = col ∧ IsNode keys p) (hend : queueAfter (kids keys) fuel ps = [])
    (b : Build) :
    buildLoop fuel col (ps.map (under keys)) b =
      .ok ((levels (kids keys) fuel ps).foldl (Build.add keys) b) := by
  induction fuel generalizing col ps b with
  | zero =>
    cases hend
    rfl
  | succ fuel ih =>
    rcases ps with _ | ⟨p, ps⟩
    · rw [levels_nil]
      rfl
    · rw [buildLoop_succ (by simp), visitAll_eq hinc hps, levels, foldl_append]
      exact ih (kids_level hps) hend _

/-- What the arrays hold after the nodes in `done`; the bits of the last leaves are only
written with the next leaf. -/
structure Built (keys done : List Str) (b : Build) : Prop where
  count : b.nodeID = done.length
  bits : b.labelBitmap = bitsOf (kids keys) done
  labels : b.labels = labelsOf (kids keys) done
  terminals : b.terminals = done.filter fun p => p ∈ keys
  short : b.leaves.length ≤ done.length
  leaves : b.leaves ++ List.replicate (done.length - b.leaves.length) false =
    done.map fun p => decide (p ∈ keys)

theorem Built.add {done : List Str} {b : Build} (h : Built keys done b) (p : Str) :
    Built keys (done ++ [p]) (b.add keys p) where
  count := by rw [Build.add, h.count, length_append, length_singleton]
  bits := by
    rw [Build.add, h.bits, bitsOf, bitsOf, flatMap_append]
    simp
  labels := by
    rw [Build.add, h.labels, labelsOf, labelsOf, flatMap_append]
    simp
  terminals := by
    rw [Build.add, filter_append, ← h.terminals]
    by_cases hp : p ∈ keys <;> simp [hp]
  short := by
    rw [Build.add, h.count, length_append, length_singleton]
    split_ifs
    · rw [setBit_eq h.short, length_append, length_append, length_replicate, length_singleton]
      have := h.short
      omega
    · exact le_succ_of_le h.short
  leaves := by
    have hshort := h.short
    rw [Build.add, h.count, length_append, length_singleton, map_append, ← h.leaves]
    by_cases hp : p ∈ keys
    · have hfull : (b.leaves ++ List.replicate (done.length - b.leaves.length) false ++ [true]).length =
          done.length + 1 := by
        rw [length_append, length_append, length_replicate, length_singleton]
        omega
      rw [if_pos hp, setBit_eq hshort, hfull, Nat.sub_self, replicate_zero, append_nil]
      simp [hp]
    · rw [if_neg hp, append_assoc, show done.length + 1 - b.leaves.length =
        done.length - b.leaves.length + 1 by omega, replicate_succ']
      simp [hp]

theorem Built.foldl {done : List Str} {b : Build} (h : Built keys done b) (ps : List Str) :
    Built keys (done ++ ps) (ps.foldl (Build.add keys) b) := by
  induction ps generalizing done b with
  | nil => rwa [append_nil]
  | cons p ps ih => simpa using ih (h.add p)

theorem length_lt_columns {k : Str} (hk : k ∈ keys) : k.length < columns keys := by
  have hle : ∀ ns : List Nat, ∀ n ∈ ns, n ≤ ns.foldr max 0 := by
    intro ns
    induction ns with
    | nil => simp
    | cons m ns ih =>
      exact forall_mem_cons.mpr ⟨le_max_left .., fun n hn => (ih n hn).trans (le_max_right ..)⟩
  exact lt_succ_of_le (hle _ _ (mem_map_of_mem hk))

def nodesOf (keys : List Str) : List Str := levels (kids keys) (columns keys) [[]]

def layoutOf (keys : List Str) : DomainSet where
  leaves := (nodesOf keys).map fun p => decide (p ∈ keys)
  labelBitmap := bitsOf (kids keys) (nodesOf keys)
  labels := labelsOf (kids keys) (nodesOf keys)
  selects := indexSelect32 (bitsOf (kids keys) (nodesOf keys))

theorem root_level (hne : keys ≠ []) : ∀ p ∈ [([] : Str)], p.length = 0 ∧ IsNode keys p := by
  intro p hp
  rw [mem_singleton.mp hp]
  exact ⟨rfl, isNode_nil hne⟩

theorem numbered_nodesOf (hne : keys ≠ []) : Numbered (kids keys) [] (nodesOf keys) :=
  numbered_levels (queueAfter_eq_nil hne fun _ hk => length_lt_columns hk)

theorem levels_length {fuel col : Nat} {ps : List Str}
    (hps : ∀ p ∈ ps, p.length = col ∧ IsNode keys p) :
    (levels (kids keys) fuel ps).Pairwise (fun p q => p.length ≤ q.length) ∧
      ∀ q ∈ levels (kids keys) fuel ps, col ≤ q.length ∧ IsNode keys q := by
  induction fuel generalizing col ps with
  | zero => exact ⟨.nil, fun q hq => by cases hq⟩
  | succ fuel ih =>
    obtain ⟨hpw, hge⟩ := ih (kids_level hps)
    refine ⟨pairwise_append.mpr ⟨?_, hpw, fun p hp q hq => ?_⟩, fun q hq => ?_⟩
    · exact pairwise_of_forall_mem_list fun p hp q hq => by rw [(hps p hp).1, (hps q hq).1]
    · rw [(hps p hp).1]
      exact le_of_succ_le (hge q hq).1
    · rcases mem_append.mp hq with hq | hq
      · exact ⟨(hps q hq).1.ge, (hps q hq).2⟩
      · exact ⟨le_of_succ_le (hge q hq).1, (hge q hq).2⟩

theorem last_node {init : List Str} (hne : keys ≠ []) (h : nodesOf keys = init ++ [p]) :
    p ∈ keys := by
  obtain ⟨hpw, hnode⟩ := @levels_length keys (columns keys) 0 [[]] (root_level hne)
  have hp : p ∈ nodesOf keys := h ▸ mem_append_right _ mem_cons_self
  refine mem_of_edges_eq_nil (hnode p hp).2 (eq_nil_iff_forall_not_mem.mpr fun c hc => ?_)
  -- a child would be listed, but nothing listed is longer than the last node
  have hchild : p ++ [c] ∈ nodesOf keys := by
    rw [numbered_nodesOf hne]
    refine mem_cons_of_mem _ (mem_flatMap.mpr ⟨p, hp, ?_⟩)
    exact mem_map.mpr ⟨(c, p ++ [c]), mem_map_of_mem hc, rfl⟩
  have hlong : ∀ q ∈ nodesOf keys, q.length ≤ p.length := by
    intro q hq
    change (nodesOf keys).Pairwise _ at hpw
    rw [h, pairwise_append] at hpw
    rw [h] at hq
    rcases mem_append.mp hq with hq | hq
    · exact hpw.2.2 q hq p mem_cons_self
    · rw [mem_singleton.mp hq]
  have := hlong _ hchild
  rw [length_append, length_singleton] at this
  omega

theorem built_nodesOf (hne : keys ≠ []) :
    ∀ b, Built keys [] b → b.leaves = [] →
      ((nodesOf keys).foldl (Build.add keys) b).leaves =
        (nodesOf keys).map fun p => decide (p ∈ keys) := by
  intro b hb hl
  rcases eq_nil_or_concat (nodesOf keys) with h | ⟨init, p, h⟩
  · rw [h]
    exact hl
  · have hinit := hb.foldl init
    have hshort := hinit.short
    rw [h, concat_eq_append, foldl_append, foldl_cons, Build.add, hinit.count, setBit_eq hshort,
        hinit.leaves]
    simp [last_node hne (by rw [h, concat_eq_append] : nodesOf keys = init ++ [p])]

/-- The construction succeeds and writes down the prefix tree of the keys; `onTerminal` is
called on the keys in the order of their nodes. -/
theorem buildDomainSet_eq (hne : keys ≠ []) :
    buildDomainSet keys =
      .ok (some (layoutOf (sortedKeys keys)),
        (nodesOf (sortedKeys keys)).filter fun p => p ∈ sortedKeys keys) := by
  have hinc := sortedKeys_increasing keys
  have hne' := sortedKeys_ne_nil hne
  have hroot : [sortedKeys keys] = [([] : Str)].map (under (sortedKeys keys)) := by
    simp [under]
  have hloop := buildLoop_eq hinc (root_level hne')
    (queueAfter_eq_nil hne' fun _ hk => length_lt_columns hk) ⟨[], [], [], [], 0⟩
  have hempty : Built (sortedKeys keys) [] ⟨[], [], [], [], 0⟩ := ⟨rfl, rfl, rfl, rfl, le_rfl, rfl⟩
  have hbuilt := hempty.foldl (nodesOf (sortedKeys keys))
  have hleaves := built_nodesOf hne' _ hempty rfl
  rw [nil_append] at hbuilt
  rw [← hroot] at hloop
  rw [buildDomainSet, if_neg hne]
  change (do
    let b ← buildLoop (columns (sortedKeys keys)) 0 [sortedKeys keys] _
    .ok _) = _
  rw [hloop]
  rw [layoutOf, ← hleaves, ← hbuilt.bits, ← hbuilt.labels, ← hbuilt.terminals]
  rfl

end Mihomo.Trie
