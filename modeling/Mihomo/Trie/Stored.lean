import Mihomo.Trie.Layout
import Mihomo.Trie.Query

/-!
# The same insertions in the trie and in the builders

After the same accepted insertions the keys of a builder are those of the paths that
have a value in the trie (`Stored`), and the values of a map builder are the values
of the trie (`Valued`).
-/

namespace Mihomo.Trie
open Go Lib
open List hiding reverse

variable {T : Type}

def DomainTrie.insertAll (t : DomainTrie T) (entries : List (Str × T)) :
    Except InvalidDomain (DomainTrie T) :=
  entries.foldlM (fun t e => t.insert e.1 e.2) t

def DomainMapBuilder.insertAll (b : DomainMapBuilder T) (entries : List (Str × T)) :
    Except InvalidDomain (DomainMapBuilder T) :=
  entries.foldlM (fun b e => b.insert e.1 e.2) b

def insertAllKeys (keys patterns : List Str) : Except InvalidDomain (List Str) :=
  patterns.foldlM insertKeys keys

def Accepted (domain : Str) : Prop := ∃ parts, validAndSplitDomain domain = .ok parts

structure Stored (t : DomainTrie T) (keys : List Str) : Prop where
  path : ∀ p, t.root.lookup p ≠ none → Path p
  keys : ∀ k, k ∈ keys ↔ ∃ p, t.root.lookup p ≠ none ∧ k = encode p

def Valued (t : DomainTrie T) (valueKeys : Str → Option T) : Prop :=
  ∀ p, Path p → valueKeys (encode p) = t.root.lookup p

theorem stored_new : Stored (DomainTrie.new : DomainTrie T) [] where
  path p h := absurd (lookup_new p) h
  keys k := by
    constructor
    · intro hk
      cases hk
    · rintro ⟨p, h, -⟩
      exact absurd (lookup_new p) h

theorem valued_new :
    Valued (DomainTrie.new : DomainTrie T) (DomainMapBuilder.new : DomainMapBuilder T).valueKeys :=
  fun p _ => (lookup_new p).symm

theorem lookup_foldl_insert (d : T) (paths : List (List Str)) (q : List Str) (n : Node T) :
    (paths.foldl (fun n p => n.insert d p) n).lookup q = if q ∈ paths then some d else n.lookup q := by
  induction paths generalizing n with
  | nil => rfl
  | cons p paths ih =>
    rw [foldl_cons, ih, Node.lookup_insert, record]
    by_cases hq : q ∈ paths
    · simp [hq]
    · by_cases hp : p = q
      · simp [hp]
      · simp [hp, Ne.symm hp]

variable {parts : List Str} {domain : Str} {t : DomainTrie T} {entries : List (Str × T)}

theorem DomainTrie.insert_eq
    (h : validAndSplitDomain domain = .ok parts) (t : DomainTrie T) (d : T) :
    ∃ t', t.insert domain d = .ok t' ∧
      ∀ q, t'.root.lookup q = if q ∈ pathsOf parts then some d else t.root.lookup q := by
  refine ⟨⟨(pathsOf parts).foldl (fun n p => n.insert d p) t.root⟩, ?_,
    fun q => lookup_foldl_insert d (pathsOf parts) q t.root⟩
  rw [DomainTrie.insert, h]
  dsimp only
  unfold pathsOf
  split_ifs <;> rfl

section Step

variable {t t' : DomainTrie T} {parts : List Str} {d : T}

theorem Stored.insert {keys : List Str} (h : Stored t keys) (hpat : Pattern parts)
    (ht : ∀ q, t'.root.lookup q = if q ∈ pathsOf parts then some d else t.root.lookup q) :
    Stored t' (keys ++ (pathsOf parts).map encode) where
  path p hp := by
    rw [ht] at hp
    split_ifs at hp with hmem
    · exact path_of_mem_pathsOf hpat p hmem
    · exact h.path p hp
  keys k := by
    rw [mem_append, mem_map, h.keys]
    constructor
    · rintro (⟨p, hp, rfl⟩ | ⟨p, hp, rfl⟩)
      · refine ⟨p, ?_, rfl⟩
        rw [ht]
        split_ifs
        · exact Option.some_ne_none d
        · exact hp
      · exact ⟨p, by rw [ht, if_pos hp]; exact Option.some_ne_none d, rfl⟩
    · rintro ⟨p, hp, rfl⟩
      rw [ht] at hp
      split_ifs at hp with hmem
      · exact .inr ⟨p, hmem, rfl⟩
      · exact .inl ⟨p, hp, rfl⟩

theorem Valued.insert {valueKeys : Str → Option T} (h : Valued t valueKeys) (hpat : Pattern parts)
    (ht : ∀ q, t'.root.lookup q = if q ∈ pathsOf parts then some d else t.root.lookup q) :
    Valued t' fun k => if k ∈ (pathsOf parts).map encode then some d else valueKeys k := by
  intro p hp
  have hmem : encode p ∈ (pathsOf parts).map encode ↔ p ∈ pathsOf parts := by
    constructor
    · intro hk
      obtain ⟨q, hq, he⟩ := mem_map.mp hk
      rwa [← encode_inj (path_of_mem_pathsOf hpat q hq) hp he]
    · exact mem_map_of_mem
  simp [hmem, ht, h p hp]

end Step

theorem DomainMapBuilder.insert_eq
    (h : validAndSplitDomain domain = .ok parts) (b : DomainMapBuilder T) (d : T) :
    b.insert domain d = .ok ⟨b.keys ++ (pathsOf parts).map encode,
      fun k => if k ∈ (pathsOf parts).map encode then some d else b.valueKeys k⟩ := by
  rw [DomainMapBuilder.insert, insertKeys_eq h]
  dsimp only
  rw [drop_left]

theorem insertAll_map (hacc : ∀ e ∈ entries, Accepted e.1)
    {b : DomainMapBuilder T} (hs : Stored t b.keys) (hv : Valued t b.valueKeys) :
    ∃ t' b', t.insertAll entries = .ok t' ∧ b.insertAll entries = .ok b' ∧
      Stored t' b'.keys ∧ Valued t' b'.valueKeys := by
  induction entries generalizing t b with
  | nil => exact ⟨t, b, rfl, rfl, hs, hv⟩
  | cons e entries ih =>
    rw [forall_mem_cons] at hacc
    obtain ⟨⟨parts, hparts⟩, hacc⟩ := hacc
    have hpat := (validAndSplitDomain_ok hparts).2
    obtain ⟨t', ht', hlook⟩ := DomainTrie.insert_eq hparts t e.2
    have hb' := DomainMapBuilder.insert_eq hparts b e.2
    obtain ⟨t'', b'', h⟩ := ih hacc (b := ⟨_, _⟩) (hs.insert hpat hlook) (hv.insert hpat hlook)
    refine ⟨t'', b'', ?_⟩
    rwa [DomainTrie.insertAll, DomainMapBuilder.insertAll, foldlM_cons, foldlM_cons, ht', hb']

theorem insertAll_set (hacc : ∀ e ∈ entries, Accepted e.1)
    {keys : List Str} (hs : Stored t keys) :
    ∃ t' keys', t.insertAll entries = .ok t' ∧ insertAllKeys keys (entries.map Prod.fst) = .ok keys' ∧
      Stored t' keys' := by
  induction entries generalizing t keys with
  | nil => exact ⟨t, keys, rfl, rfl, hs⟩
  | cons e entries ih =>
    rw [forall_mem_cons] at hacc
    obtain ⟨⟨parts, hparts⟩, hacc⟩ := hacc
    obtain ⟨t', ht', hlook⟩ := DomainTrie.insert_eq hparts t e.2
    have hkeys := insertKeys_eq hparts keys
    obtain ⟨t'', keys'', h⟩ := ih hacc (hs.insert (validAndSplitDomain_ok hparts).2 hlook)
    refine ⟨t'', keys'', ?_⟩
    rwa [DomainTrie.insertAll, insertAllKeys, map_cons, foldlM_cons, foldlM_cons,
      ht', hkeys]

/-! ### Nodes and paths -/

/-! ### The order of the insertions -/

def written (domain : Str) : List (List Str) := (validAndSplitDomain domain).toOption.elim [] pathsOf

def write (g : List Str → Option T) (e : Str × T) : List Str → Option T := fun q =>
  if q ∈ written e.1 then some e.2 else g q

theorem lookup_insertAll (hacc : ∀ e ∈ entries, Accepted e.1) (t : DomainTrie T) :
    ∃ t', t.insertAll entries = .ok t' ∧
      (fun q => t'.root.lookup q) = entries.foldl write fun q => t.root.lookup q := by
  induction entries generalizing t with
  | nil => exact ⟨t, rfl, rfl⟩
  | cons e entries ih =>
    obtain ⟨⟨parts, hparts⟩, hacc⟩ := forall_mem_cons.mp hacc
    obtain ⟨t₁, ht₁, hlookup⟩ := DomainTrie.insert_eq hparts t e.2
    obtain ⟨t', ht', heq⟩ := ih hacc t₁
    have hwrite : (fun q => t₁.root.lookup q) = write (fun q => t.root.lookup q) e := by
      funext q
      rw [hlookup, write, written, hparts]
      rfl
    refine ⟨t', ?_, by rw [heq, hwrite, foldl_cons]⟩
    rw [DomainTrie.insertAll, foldlM_cons, ht₁]
    exact ht'

theorem search_congr {t' : DomainTrie T}
    (h : (fun p => t.root.lookup p) = fun p => t'.root.lookup p) (q : Str) :
    (t.search q).bind Node.data = (t'.search q).bind Node.data := by
  cases hq : validAndSplitDomain q with
  | error e => simp [DomainTrie.search, hq]
  | ok parts =>
    by_cases hfirst : parts.head? = some []
    · simp [DomainTrie.search, hq, hfirst]
    · rw [t.search_eq hq hfirst, t'.search_eq hq hfirst, h]

/-- Insertions that agree on the paths they share can be made in any order: no search tells them
apart. -/
theorem search_insertAll_perm {entries' : List (Str × T)} (hperm : entries.Perm entries')
    (hacc : ∀ e ∈ entries, Accepted e.1)
    (hshared : ∀ e ∈ entries, ∀ f ∈ entries, ∀ p ∈ written e.1, p ∈ written f.1 → e.2 = f.2) :
    ∃ t t', DomainTrie.new.insertAll entries = .ok t ∧ DomainTrie.new.insertAll entries' = .ok t' ∧
      ∀ q, (t.search q).bind Node.data = (t'.search q).bind Node.data := by
  obtain ⟨t, ht, hlookup⟩ := lookup_insertAll hacc .new
  obtain ⟨t', ht', hlookup'⟩ := lookup_insertAll (fun e he => hacc e (hperm.mem_iff.mpr he)) .new
  refine ⟨t, t', ht, ht', search_congr ?_⟩
  rw [hlookup, hlookup']
  refine hperm.foldl_eq' (fun e he f hf g => ?_) _
  funext q
  have heq := hshared e he f hf q
  unfold write
  split_ifs <;> simp_all

theorem search_insertAll_swap :
    ∃ t t', DomainTrie.new.insertAll [(ascii "+.b", 1), (ascii "*.b", 2)] = .ok t ∧
      DomainTrie.new.insertAll [(ascii "*.b", 2), (ascii "+.b", 1)] = .ok t' ∧
      ∀ q, (t.search q).bind Node.data = (t'.search q).bind Node.data :=
  search_insertAll_perm (.swap ..)
    (forall_mem_cons.mpr ⟨⟨[ascii "+", ascii "b"], by decide +kernel⟩,
      forall_mem_singleton.mpr ⟨[ascii "*", ascii "b"], by decide +kernel⟩⟩) (by decide +kernel)

section Nodes

variable {t : DomainTrie T} {keys : List Str} {π : List Str} {l : Str}

theorem forall_snoc (hπ : ∀ m ∈ π, Label m) (hl : Label l) : ∀ m ∈ π ++ [l], Label m := by
  simpa [or_imp, forall_and] using ⟨hπ, hl⟩

theorem encode_ne_nil {p : List Str} (h : Label l) : encode (l :: p) ≠ [] := by
  have hpre : encode [l] <+: encode (l :: p) := encode_mono ⟨p, rfl⟩
  intro hnil
  rw [hnil] at hpre
  exact h.labelKey_ne_nil (by simpa [encode] using hpre)

theorem encode_eq_nil (h : ∀ l ∈ π, Label l) : encode π = [] ↔ π = [] := by
  rcases π with _ | ⟨l, p⟩
  · exact iff_of_true rfl rfl
  · exact iff_of_false (encode_ne_nil (h l mem_cons_self)) (cons_ne_nil l p)

section
variable (hs : Stored t keys)
include hs

theorem Stored.sorted : Stored t (sortedKeys keys) where
  path := hs.path
  keys key := by rw [mem_sortedKeys, hs.keys]

theorem Stored.isNode {q : List Str} (hq : t.root.lookup q ≠ none) {s : Str}
    (h : s <+: encode q) : IsNode keys s :=
  ⟨encode q, (hs.keys _).mpr ⟨q, hq, rfl⟩, h⟩

theorem Stored.mem_keys (hπ : ∀ l ∈ π, Label l) : encode π ∈ keys ↔ t.root.lookup π ≠ none := by
  rw [hs.keys]
  constructor
  · rintro ⟨q, hq, he⟩
    have hpath := hs.path q hq
    by_cases hnil : π = []
    · obtain ⟨ls, hne, hls, hq'⟩ := hpath
      obtain ⟨l, ls, rfl⟩ := exists_cons_of_ne_nil hne
      rw [hnil] at he
      have hl := hls l mem_cons_self
      rcases hq' with rfl | rfl <;> exact absurd he.symm (encode_ne_nil hl)
    · rwa [encode_inj ⟨π, hnil, hπ, .inl rfl⟩ hpath he]
  · exact fun h => ⟨π, h, rfl⟩

theorem Stored.complex (hπ : ∀ l ∈ π, Label l)
    (h : IsNode keys (stem π ++ [complexWildcardByte])) :
    t.root.lookup (π ++ [dotWildcard]) ≠ none ∧ Path (π ++ [dotWildcard]) := by
  obtain ⟨key, hkey, hpre⟩ := h
  obtain ⟨q, hq, rfl⟩ := (hs.keys key).mp hkey
  have hpath := hs.path q hq
  have heq := eq_encode_of_complex hpath hpre
  obtain ⟨ls, hne, hls, rfl | rfl⟩ := hpath
  · exact absurd (heq ▸ by simp) (complex_not_mem_encode hls)
  · rw [encode_snoc] at heq
    have hstem : stem π = stem ls := append_cancel_right heq
    have hπne : π ≠ [] := by
      rintro rfl
      rw [stem, stem, if_neg hne] at hstem
      simp at hstem
    rw [stem, if_neg hπne, stem, if_neg hne] at hstem
    have hls' : π = ls :=
      encode_inj ⟨π, hπne, hπ, .inl rfl⟩ ⟨ls, hne, hls, .inl rfl⟩ (append_cancel_right hstem)
    exact hls' ▸ ⟨hq, ls, hne, hls, .inr rfl⟩

theorem Stored.lookup_below (h : ¬ IsNode keys (stem π)) {p : List Str}
    (hp : p ≠ []) : t.root.lookup (π ++ p) = none := by
  by_contra hne
  exact h (hs.isNode hne (stem_mono (prefix_append π p) (by simpa using hp)))

theorem Stored.lookup_through {l : Str} (hl : QueryLabel l)
    (h : ¬ IsNode keys (stem π ++ reverse l) ∨ complexWildcardByte ∈ reverse l) (p : List Str) :
    t.root.lookup (π ++ l :: p) = none := by
  by_contra hne
  have hpath := hs.path _ hne
  have hlabel : Label l := by
    rcases hl with hl | rfl
    · exact hl
    · rcases hpath.label_or complexWildcard (by simp) with h' | h'
      · exact h'
      · exact absurd h' (by decide)
  rw [← hlabel.labelKey_eq, ← encode_snoc] at h
  rcases h with h | h
  · exact h (hs.isNode hne (encode_mono ⟨p, by simp⟩))
  · exact complex_not_mem_labelKey hlabel h

end

end Nodes

end Mihomo.Trie
