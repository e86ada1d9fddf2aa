import Mihomo.Trie.Foreach
import Mihomo.Trie.Walk

/-!
# What the walk of `Has` accepts

`Fits hidden [] p ls` says that the path `p` covers the labels `ls` of a domain without using a
wildcard where `hidden` holds. The walk of `Has` passes over the wildcards of a node when the node has
an edge for the next byte of the query and that byte comes before `*`; so it finds a stored path only
if it fits with the shadowed wildcards hidden.
-/

namespace Mihomo.Trie
open Go Lib Option
open List hiding reverse

inductive Fits (hidden : List Str → Str → Prop) : List Str → List Str → List Str → Prop where
  | done (π : List Str) : Fits hidden π [] []
  | label {π p ls : List Str} {l : Str} (h : Fits hidden (π ++ [l]) p ls) :
      Fits hidden π (l :: p) (l :: ls)
  | wild {π p ls : List Str} {l : Str} (hl : ¬ hidden π l) (h : Fits hidden (π ++ [wildcard]) p ls) :
      Fits hidden π (wildcard :: p) (l :: ls)
  | suffix {π ls : List Str} {l : Str} (hl : ¬ hidden π l) : Fits hidden π [dotWildcard] (l :: ls)

variable {T : Type}

/-- Label `l` shadows the wildcards after `π`: it ends in a byte below `*`, and so does, in the
same byte, the next label of a stored path that goes on after `π`. -/
def Shadows (t : DomainTrie T) (π : List Str) (l : Str) : Prop :=
  ∃ l' p c, t.root.lookup (π ++ l' :: p) ≠ none ∧ (reverse l').head? = some c ∧
    (reverse l).head? = some c ∧ c < wildcardByte

def Covered (t : DomainTrie T) (hidden : List Str → Str → Prop) (ls : List Str) : Prop :=
  ∃ p, t.root.lookup p ≠ none ∧ Fits hidden [] p ls

def Reach (t : DomainTrie T) (hidden : List Str → Str → Prop) : List Str → List Str → Prop
  | π, [] => t.root.lookup π ≠ none
  | π, l :: ls => Reach t hidden (π ++ [l]) ls ∨
      ¬ hidden π l ∧ (Reach t hidden (π ++ [wildcard]) ls ∨ t.root.lookup (π ++ [dotWildcard]) ≠ none)

variable {t : DomainTrie T} {hidden : List Str → Str → Prop} {π ls : List Str}

theorem reach_iff : Reach t hidden π ls ↔ ∃ p, t.root.lookup (π ++ p) ≠ none ∧ Fits hidden π p ls := by
  induction ls generalizing π with
  | nil =>
    constructor
    · exact fun h => ⟨[], by rwa [append_nil], .done π⟩
    · rintro ⟨p, h, hfits⟩
      cases hfits
      rwa [append_nil] at h
  | cons l ls ih =>
    rw [Reach, ih, ih]
    constructor
    · rintro (⟨p, h, hfits⟩ | ⟨hl, ⟨p, h, hfits⟩ | h⟩)
      · exact ⟨l :: p, by simpa using h, .label hfits⟩
      · exact ⟨wildcard :: p, by simpa using h, .wild hl hfits⟩
      · exact ⟨[dotWildcard], h, .suffix hl⟩
    · rintro ⟨p, h, hfits⟩
      cases hfits with
      | label hfits => exact .inl ⟨_, by simpa using h, hfits⟩
      | wild hl hfits => exact .inr ⟨hl, .inl ⟨_, by simpa using h, hfits⟩⟩
      | suffix hl => exact .inr ⟨hl, .inr h⟩

theorem find_ne_none_iff (t : DomainTrie T) (π ls : List Str) :
    (find ls fun p => t.root.lookup (π ++ p)) ≠ none ↔ Reach t (fun _ _ => False) π ls := by
  induction ls generalizing π with
  | nil => rw [find, append_nil, Reach]
  | cons l ls ih =>
    have hih : ∀ l', (find ls fun p => t.root.lookup (π ++ l' :: p)) ≠ none ↔
        Reach t (fun _ _ => False) (π ++ [l']) ls := by
      intro l'
      rw [← ih]
      simp
    rw [find, Reach, ← hih, ← hih, ne_eq, or_eq_none_iff, or_eq_none_iff]
    tauto

variable {q l : Str}

theorem DomainTrie.data_of_search {t : DomainTrie T} {n : Node T} (h : t.search q = some n) :
    n.data ≠ none := by
  rw [DomainTrie.search] at h
  split_ifs at h
  split at h
  · cases h
  · split_ifs at h
    have hdata := (filter_eq_some_iff.mp h).2
    simpa [Node.isEmpty, isSome_iff_ne_none] using hdata

variable {parts raws p : List Str}

theorem search_ne_none_iff (t : DomainTrie T)
    (hq : validAndSplitDomain q = .ok parts) (hfirst : parts.head? ≠ some []) :
    t.search q ≠ none ↔ Covered t (fun _ _ => False) parts.reverse := by
  have hdata : t.search q ≠ none ↔ (t.search q).bind Node.data ≠ none := by
    cases hn : t.search q with
    | none => simp
    | some n => simpa using DomainTrie.data_of_search hn
  rw [hdata, t.search_eq hq hfirst]
  exact (find_ne_none_iff t [] parts.reverse).trans reach_iff

/-! ### Nodes on the way -/

variable {keys : List Str}

theorem Stored.plain (hs : Stored t keys) {s u : Str} (hu : u ≠ []) (hstep : domainStepByte ∉ u) :
    Plain keys (s ++ u) := by
  have hno : ∀ w, w ≠ domainStepByte →
      (∀ l, Label l ∨ l = dotWildcard → w ∈ labelKey l → labelKey l = [w]) →
      ¬ IsNode keys (s ++ u ++ [w]) := by
    rintro w hw halone ⟨key, hkey, hpre⟩
    obtain ⟨q, hq, rfl⟩ := (hs.keys key).mp hkey
    have hlabels := (hs.path q hq).label_or
    rcases follows_dot hw (forall_mem_map.mpr fun l hl => halone l (hlabels l hl)) hpre with h | h
    · exact hu (append_eq_nil_iff.mp h).2
    · rw [getLast?_append_of_ne_nil s hu] at h
      exact hstep (mem_of_getLast? h)
  exact ⟨hno _ (by decide) fun l hl => wildcard_alone hl, hno _ (by decide) fun l hl => complex_alone hl⟩

theorem QueryLabel.labelKey_eq (h : QueryLabel l) : labelKey l = reverse l := if_neg h.ne_nil

theorem QueryLabel.step (h : QueryLabel l) : domainStepByte ∉ labelKey l := by
  rcases h with h | rfl
  · exact step_not_mem_labelKey (.inl h)
  · decide

theorem QueryLabel.labelKey_ne_nil (h : QueryLabel l) : labelKey l ≠ [] := by
  rcases h with h | rfl
  · exact h.labelKey_ne_nil
  · decide

theorem Stored.shadows (hs : Stored t keys) (hπ : ∀ l ∈ π, Label l) {c : UInt8}
    (hc : (reverse l).head? = some c) : Shadowed keys (stem π) c ↔ Shadows t π l := by
  constructor
  · rintro ⟨hlt, key, hkey, hpre⟩
    obtain ⟨q, hq, rfl⟩ := (hs.keys key).mp hkey
    obtain ⟨l', p, rfl, hl'⟩ := path_of_stem hπ (hs.path q hq).label_or hpre
    refine ⟨l', p, c, hq, ?_, hc, hlt⟩
    unfold labelKey at hl'
    split_ifs at hl' with hdot
    · obtain rfl : complexWildcardByte = c := some.inj hl'
      exact absurd hlt wildcard_lt.asymm
    · exact hl'
  · rintro ⟨l', p, c', hq, hl', hl, hlt⟩
    obtain rfl : c = c' := some.inj (hc.symm.trans hl)
    refine ⟨hlt, hs.isNode hq ?_⟩
    have hkey : labelKey l' = reverse l' := by
      refine if_neg ?_
      rintro rfl
      cases hl'
    obtain ⟨v, hv⟩ := head?_eq_some_iff.mp hl'
    have hpre : stem π ++ labelKey l' <+: encode (π ++ l' :: p) := by
      rw [← encode_snoc]
      exact encode_mono ⟨p, by simp⟩
    refine .trans ?_ hpre
    rw [hkey, hv]
    exact ⟨v, by simp⟩

/-- A covered path goes through the node at the end of its first label, and past it if more
labels follow. -/
theorem Reach.isNode (hs : Stored t keys) (h : Reach t hidden (π ++ [l]) ls) :
    (Label l ∨ l = dotWildcard) ∧ IsNode keys (stem π ++ labelKey l) ∧
      (ls ≠ [] → IsNode keys (stem (π ++ [l]))) := by
  obtain ⟨p, hp, hfits⟩ := reach_iff.mp h
  rw [← encode_snoc]
  refine ⟨(hs.path _ hp).label_or l (by simp), hs.isNode hp (encode_mono (prefix_append ..)), ?_⟩
  intro hls
  refine hs.isNode hp (stem_mono (prefix_append ..) ?_)
  have hne : p ≠ [] := by
    rintro rfl
    cases hfits
    exact hls rfl
  simpa using hne

/-! ### Labels of the query -/

section Labels

variable {key bs : Str} {k i pos : Nat} {stack : List Cursor} {c : UInt8} {v l : Str}

theorem lookup_ne_none_iff (hs : Stored t keys) (hπ : ∀ m ∈ π, Label m) (hl : Label l) :
    t.root.lookup (π ++ [l]) ≠ none ↔ stem π ++ labelKey l ∈ keys := by
  rw [← encode_snoc]
  exact (hs.mem_keys (forall_snoc hπ hl)).symm

theorem static_last (hne : keys ≠ []) (hs : Stored t keys) (hr : Reads key bs) (hl : Label l)
    (hπ : ∀ m ∈ π, Label m) (hk : At keys k (stem π)) (hv : labelKey l = c :: v)
    (hdrop : bs.drop i = labelKey l) (hedge : EdgeAt keys k (stem π) c pos) :
    Answered keys key Takes ⟨k, pos, i, stack⟩
      (t.root.lookup (π ++ [l]) ≠ none) := by
  have hstep := step_not_mem_labelKey (.inl hl)
  have hlen := congrArg length hdrop
  rw [length_drop, hv, length_cons] at hlen
  rw [lookup_ne_none_iff hs hπ hl, hv] at *
  have hdrop' : bs.drop i = c :: v ++ [] := by rw [hdrop, append_nil]
  refine answers_follow hne hr hdrop' hk hedge ?_ (fun h => ⟨_, h, prefix_rfl⟩) ?_
  · intro u w hu hw he
    exact hs.plain hu fun h => hstep (he ▸ mem_append_left _ h)
  · intro k' p' c' pos' hk' hedge' htarget hbyte
    rw [← htarget]
    exact takes_last hne hr hbyte hk' hedge' (by omega)

theorem static_step (hne : keys ≠ []) (hs : Stored t keys) (hr : Reads key bs) (hl : Label l)
    (hk : At keys k (stem π)) (hv : labelKey l = c :: v) (hls : ls ≠ [])
    {rest : Str} (hdrop : bs.drop i = labelKey l ++ domainStepByte :: rest) (hrest : rest ≠ [])
    (hedge : EdgeAt keys k (stem π) c pos)
    (h : ∀ m, At keys m (stem (π ++ [l])) → Answered keys key Ends ⟨m, start keys m, i + (labelKey l).length + 1, stack⟩
      (Reach t hidden (π ++ [l]) ls)) :
    Answered keys key Takes ⟨k, pos, i, stack⟩
      (Reach t hidden (π ++ [l]) ls) := by
  have hstep := step_not_mem_labelKey (.inl hl)
  have hlen := congrArg length hdrop
  have hpos := length_pos_iff.mpr hrest
  have hstem : stem (π ++ [l]) = stem π ++ c :: (v ++ [domainStepByte]) := by
    rw [stem, encode_snoc, hv]
    simp
  rw [length_drop, length_append, length_cons] at hlen
  rw [hstem] at h
  have hdrop' : bs.drop i = c :: (v ++ [domainStepByte]) ++ rest := by
    rw [hdrop, hv]
    simp
  refine answers_follow hne hr hdrop' hk hedge ?_ ?_ ?_
  · intro u w hu hw he
    have hpre : u <+: labelKey l ++ [domainStepByte] := ⟨w, by rw [← he, hv]; rfl⟩
    rcases prefix_concat_iff.mp hpre with hall | hpre
    · rw [hall, ← cons_append, ← hv] at he
      exact absurd (self_eq_append_right.mp he) hw
    · exact hs.plain hu fun hmem => hstep (hpre.subset hmem)
  · intro hreach
    rw [← hstem]
    exact (hreach.isNode hs).2.2 hls
  · intro k' p' c' pos' hk' hedge' htarget hbyte
    have hlen' : (v ++ [domainStepByte]).length = (labelKey l).length := by
      rw [hv]
      simp
    have hchild := hedge'.child hne hk'
    rw [htarget] at hchild
    rw [hlen']
    exact (h _ hchild).mono fun b hb => ⟨_, advance_eq hne hr hk' hedge' (by omega), .go hb⟩

theorem answers_label (hs : Stored t keys) (hr : Reads key bs) (hl : QueryLabel l)
    (hπ : ∀ m ∈ π, Label m) (hk : At keys k (stem π)) (hpre : labelKey l <+: bs.drop i)
    (hstatic : ∀ c v stack' pos, Label l → labelKey l = c :: v → EdgeAt keys k (stem π) c pos →
      Answered keys key Takes ⟨k, pos, i, stack'⟩
        (Reach t (Shadows t) (π ++ [l]) ls))
    (hstar : ∀ pos, EdgeAt keys k (stem π) wildcardByte pos →
      Answers (layoutOf keys) key (Resumes (layoutOf keys) key (⟨pos, i⟩ :: stack)) stack
        (Reach t (Shadows t) (π ++ [wildcard]) ls)) :
    Answered keys key Ends ⟨k, start keys k, i, stack⟩
      (Reach t (Shadows t) π (l :: ls)) := by
  obtain ⟨c, v, hv⟩ := exists_cons_of_ne_nil hl.labelKey_ne_nil
  have hbyte : bs[i]? = some c := by
    obtain ⟨s, hs'⟩ := hpre
    rw [hv] at hs'
    exact (byte_of_drop hs'.symm).1
  have hhead : (reverse l).head? = some c := by
    rw [← hl.labelKey_eq, hv]
    rfl
  have hQ : Reach t (Shadows t) (π ++ [l]) ls → c ∈ edges keys (stem π) := by
    intro h
    have hnode := (h.isNode hs).2.1
    rw [hv] at hnode
    exact mem_edges.mpr (.of_append (by simpa using hnode))
  have hQP : c = wildcardByte → Reach t (Shadows t) (π ++ [l]) ls →
      Reach t (Shadows t) (π ++ [wildcard]) ls := by
    intro hc h
    have hlabel : Label l := (h.isNode hs).1.resolve_right hl.ne_nil
    have hmem : wildcardByte ∈ reverse l := by
      rw [← hlabel.labelKey_eq, hv, hc]
      exact mem_cons_self
    rwa [← hlabel.wild (mem_of_mem_reverse (by decide) hmem)]
  have hP : Reach t (Shadows t) (π ++ [wildcard]) ls → wildcardByte ∈ edges keys (stem π) := by
    intro h
    have hnode := (h.isNode hs).2.1
    exact mem_edges.mpr hnode
  refine (answers_start hr hbyte hk hQ hQP hP (fun _ hplus stack' pos hpos => ?_) hstar).congr ?_
  · refine hstatic c v stack' pos (hl.resolve_right ?_) hv hpos
    rintro rfl
    exact hplus (cons.inj hv).1.symm
  · have hcomplex : IsNode keys (stem π ++ [complexWildcardByte]) ↔
        t.root.lookup (π ++ [dotWildcard]) ≠ none := by
      refine ⟨fun h => (hs.complex hπ h).1, fun h => hs.isNode h ?_⟩
      rw [encode_snoc]
      exact prefix_rfl
    rw [Reach, hs.shadows hπ hhead, hcomplex]

theorem answers_labels (hne : keys ≠ []) (hs : Stored t keys) (hr : Reads key bs)
    (hlabels : ∀ m ∈ l :: ls, QueryLabel m) (hπ : ∀ m ∈ π, Label m) (hk : At keys k (stem π))
    (hdrop : bs.drop i = encode (l :: ls)) :
    Answered keys key Ends ⟨k, start keys k, i, stack⟩
      (Reach t (Shadows t) π (l :: ls)) := by
  induction ls generalizing l π k i stack with
  | nil =>
    have hl := hlabels l mem_cons_self
    have hdrop' : bs.drop i = labelKey l := by
      rw [hdrop, encode_cons, if_pos rfl, append_nil]
    refine answers_label hs hr hl hπ hk (by rw [hdrop']) (fun c v stack' pos hlabel hv hpos => ?_)
      fun pos hpos => ?_
    · exact static_last hne hs hr hlabel hπ hk hv hdrop' hpos
    · have hkey := lookup_ne_none_iff hs hπ label_wildcard
      exact (resumes_last hne hr hl.step hdrop' hl.labelKey_ne_nil hk hpos).congr hkey.symm
  | cons m ls ih =>
    rw [forall_mem_cons] at hlabels
    obtain ⟨hl, hlabels⟩ := hlabels
    have hdrop' : bs.drop i = labelKey l ++ domainStepByte :: encode (m :: ls) := by
      rw [hdrop, encode_cons, if_neg (cons_ne_nil m ls)]
    have hrest : encode (m :: ls) ≠ [] := by
      rw [encode_cons]
      simp [(hlabels m mem_cons_self).labelKey_ne_nil]
    have hnext : bs.drop (i + (labelKey l).length + 1) = encode (m :: ls) := by
      rw [Nat.add_assoc, ← drop_drop, hdrop', ← drop_drop, drop_left]
      rfl
    refine answers_label hs hr hl hπ hk (by rw [hdrop']; exact prefix_append ..)
      (fun c v stack' pos hlabel hv hpos => ?_) fun pos hpos => ?_
    · exact static_step hne hs hr hlabel hk hv (cons_ne_nil m ls) hdrop' hrest hpos fun n hn =>
        ih hlabels (forall_snoc hπ hlabel) hn hnext
    · have hstem : stem (π ++ [wildcard]) = stem π ++ [wildcardByte, domainStepByte] := by
        rw [stem, if_neg (by simp), encode_snoc, append_assoc]
        rfl
      refine resumes_step hne hr hl.step hdrop' hrest hk hpos (fun h => ?_) fun n hn => ?_
      · rw [← hstem]
        exact (h.isNode hs).2.2 (cons_ne_nil m ls)
      · exact ih hlabels (forall_snoc hπ label_wildcard) (hstem ▸ hn) hnext

end Labels

/-! ### Whole queries -/

def setOf (keys : List Str) : Option DomainSet :=
  if keys = [] then none else some (layoutOf (sortedKeys keys))

theorem buildSet_eq (keys : List Str) : buildSet keys = .ok (setOf keys) := by
  unfold buildSet setOf
  split_ifs with hne
  · rw [hne]
    rfl
  · rw [buildDomainSet_eq hne]
    rfl

theorem Stored.setOf_eq {keys' : List Str} (hs : Stored t keys) (hs' : Stored t keys') :
    setOf keys = setOf keys' := by
  have hmem : ∀ k, k ∈ keys ↔ k ∈ keys' := fun k => (hs.keys k).trans (hs'.keys k).symm
  have hnil : keys = [] ↔ keys' = [] := by
    simp [eq_nil_iff_forall_not_mem, hmem]
  rw [setOf, setOf, sortedKeys_congr hmem]
  simp only [hnil]

theorem Query.readOf_eq (h : Query q raws) : readOf q = encode (raws.map toLower) := by
  have hkeys : (raws.map toLower).map reverse = (raws.map toLower).map labelKey :=
    map_congr_left fun l hl => by
      obtain ⟨r, hr, rfl⟩ := mem_map.mp hl
      exact (h.label r hr).labelKey_eq.symm
  rw [readOf, h.join, toLower_joinDomain, reverse_joinDomain, ← map_reverse,
    reverse_reverse, hkeys, encode]

theorem reads_normalize (q : Str) : Reads (normalize q) (readOf q) :=
  ⟨length_normalize q, revLowerAt_normalize q⟩

theorem Stored.newDomainSet_eq {entries : List (Str × T)} (hs : Stored t keys)
    (ht : DomainTrie.new.insertAll entries = .ok t) (domains : List Str)
    (hdomains : domains.Perm (t.foreach.map Prod.fst)) : newDomainSet domains = .ok (setOf keys) := by
  have hwf : t.root.Wf := DomainTrie.wf_insertAll (t := .new) trivial ht
  rw [newDomainSet, buildSet_eq, hs.setOf_eq (hs.listed hwf hdomains)]

/-- `Has` ends on every query, and it finds the stored paths that fit without the shadowed
wildcards. -/
theorem has_ends (hs : Stored t keys) (hq : Query q raws) :
    ∃ b fuel, (∀ n ≥ fuel, has (setOf keys) n q = .ok b) ∧
      (b = true ↔ Covered t (Shadows t) (raws.map toLower)) := by
  by_cases hkeys : keys = []
  · refine ⟨false, 0, fun n _ => by rw [setOf, if_pos hkeys]; rfl, iff_of_false Bool.false_ne_true ?_⟩
    rintro ⟨p, hp, -⟩
    have hmem := (hs.keys _).mpr ⟨p, hp, rfl⟩
    rw [hkeys] at hmem
    cases hmem
  have hqne : q ≠ [] := by
    have hle := length_le_joinDomain fun r hr => hq.raw_ne_nil r (mem_reverse.mp hr)
    rw [length_reverse, ← hq.join] at hle
    have hpos := length_pos_iff.mpr hq.ne_nil
    exact length_pos_iff.mp (by omega)
  have hrun : ∀ n, has (setOf keys) n q =
      (layoutOf (sortedKeys keys)).walk (normalize q) n ⟨0, start (sortedKeys keys) 0, 0, []⟩ := by
    intro n
    rw [setOf, if_neg hkeys, has, if_neg hqne, start_zero]
  have hlabels : ∀ l ∈ raws.map toLower, QueryLabel l := forall_mem_map.mpr hq.label
  have hdrop : (readOf q).drop 0 = encode (raws.map toLower) := by rw [drop_zero, hq.readOf_eq]
  have hroot : At (sortedKeys keys) 0 (stem []) := at_root
  obtain ⟨l, ls, hls⟩ := exists_cons_of_ne_nil (fun h => hq.ne_nil (map_eq_nil_iff.mp h) :
    raws.map toLower ≠ [])
  rw [hls] at hlabels hdrop ⊢
  have hwalk : Answers _ _ _ [] _ := answers_labels (sortedKeys_ne_nil hkeys) hs.sorted
    (reads_normalize q) hlabels (forall_mem_nil _) hroot hdrop
  by_cases hreach : Reach t (Shadows t) [] (l :: ls)
  · obtain ⟨fuel, hfuel⟩ := hwalk.1 hreach
    exact ⟨true, fuel, fun n hn => (hrun n).trans (walk_le hfuel hn),
      iff_of_true rfl (reach_iff.mp hreach)⟩
  · obtain ⟨fuel, hfuel⟩ := hwalk.2 hreach false (resumes_nil.mpr rfl)
    exact ⟨false, fuel, fun n hn => (hrun n).trans (walk_le hfuel hn),
      iff_of_false Bool.false_ne_true fun h => hreach (reach_iff.mpr h)⟩

theorem Fits.mono {hidden' : List Str → Str → Prop} (hsub : ∀ π l, hidden' π l → hidden π l)
    {π ls : List Str} (h : Fits hidden π p ls) : Fits hidden' π p ls := by
  induction h with
  | done π => exact .done π
  | label _ ih => exact .label ih
  | wild hl _ ih => exact .wild (fun h' => hl (hsub _ _ h')) ih
  | suffix hl => exact .suffix fun h' => hl (hsub _ _ h')

/-- `Has` on the set of some patterns, from the builder or from the trie, agrees with `Search`
on the trie exactly if a domain that some stored path covers is covered by one that uses no
shadowed wildcard. -/
theorem has_iff_search_iff (entries : List (Str × T)) (hentries : ∀ e ∈ entries, Accepted e.1)
    (q : Str) (parts : List Str) (hq : validAndSplitDomain q = .ok parts)
    (hfirst : parts.head? ≠ some []) :
    ∃ t keys set, DomainTrie.new.insertAll entries = .ok t ∧
      insertAllKeys [] (entries.map Prod.fst) = .ok keys ∧ buildSet keys = .ok set ∧
      (∀ domains, domains.Perm (t.foreach.map Prod.fst) → newDomainSet domains = .ok set) ∧
      ∃ b fuel, (∀ n ≥ fuel, has set n q = .ok b) ∧
        ((b = true ↔ t.search q ≠ none) ↔
          (Covered t (fun _ _ => False) parts.reverse → Covered t (Shadows t) parts.reverse)) := by
  obtain ⟨t, keys, ht, hkeys, hs⟩ := insertAll_set hentries stored_new
  obtain ⟨raws, hraws, hquery⟩ := query_of_accepted hq hfirst
  obtain ⟨b, fuel, hends, hb⟩ := has_ends hs hquery
  refine ⟨t, keys, setOf keys, ht, hkeys, buildSet_eq keys, hs.newDomainSet_eq ht, b, fuel, hends, ?_⟩
  rw [hb, search_ne_none_iff t hq hfirst, ← hraws]
  have hweaken : Covered t (Shadows t) parts.reverse → Covered t (fun _ _ => False) parts.reverse :=
    fun ⟨p, hp, hfits⟩ => ⟨p, hp, hfits.mono fun _ _ h => h.elim⟩
  exact ⟨fun h => h.mpr, fun h => ⟨hweaken, h⟩⟩

/-- In `y!.com` the last byte of `y!` is below `*` and shadows the pattern `*.com`, since
`x!.com` is stored as well. -/
theorem has_misses_shadowed :
    (validAndSplitDomain (ascii "x!.com")).isOk = true ∧
      (validAndSplitDomain (ascii "*.com")).isOk = true ∧
      validAndSplitDomain (ascii "y!.com") = .ok [ascii "y!", ascii "com"] ∧
      ((DomainTrie.new.insertAll [(ascii "x!.com", ()), (ascii "*.com", ())]).toOption.bind fun t =>
        t.search (ascii "y!.com")).isSome = true ∧
      ((insertAllKeys [] [ascii "x!.com", ascii "*.com"]).toOption.bind fun keys =>
        (buildSet keys).toOption.map fun set => has set 20 (ascii "y!.com")) = some (.ok false) := by
  decide +kernel

theorem has_iff_search_iff_unshadowed :
    ∃ t keys set, DomainTrie.new.insertAll [(ascii "x!.com", ()), (ascii "*.com", ())] = .ok t ∧
      insertAllKeys [] ([(ascii "x!.com", ()), (ascii "*.com", ())].map Prod.fst) = .ok keys ∧
      buildSet keys = .ok set ∧
      (∀ domains, domains.Perm (t.foreach.map Prod.fst) → newDomainSet domains = .ok set) ∧
      ∃ b fuel, (∀ n ≥ fuel, has set n (ascii "y.com") = .ok b) ∧
        ((b = true ↔ t.search (ascii "y.com") ≠ none) ↔
          (Covered t (fun _ _ => False) [ascii "y", ascii "com"].reverse →
            Covered t (Shadows t) [ascii "y", ascii "com"].reverse)) :=
  has_iff_search_iff _
    (List.forall_mem_cons.mpr ⟨⟨[ascii "x!", ascii "com"], by decide +kernel⟩,
      List.forall_mem_cons.mpr ⟨⟨[ascii "*", ascii "com"], by decide +kernel⟩,
        (forall_mem_nil _)⟩⟩)
    (ascii "y.com") [ascii "y", ascii "com"] (by decide +kernel) (by decide)

theorem readOf_ne_nil (hq : q ≠ []) : readOf q ≠ [] := by
  intro h
  rw [readOf, reverse_toLower] at h
  obtain ⟨b, s, rfl⟩ := exists_cons_of_ne_nil hq
  rw [lowered, runes_cons] at h
  simp [ofRunes, encodeRune_ne_nil] at h

/-- `Has` ends on every byte string, without an access out of range. -/
theorem has_returns (entries : List (Str × T)) (hentries : ∀ e ∈ entries, Accepted e.1) :
    ∃ t keys set, DomainTrie.new.insertAll entries = .ok t ∧
      insertAllKeys [] (entries.map Prod.fst) = .ok keys ∧ buildSet keys = .ok set ∧
      (∀ domains, domains.Perm (t.foreach.map Prod.fst) → newDomainSet domains = .ok set) ∧
      ∀ key : Str, ∃ b fuel, ∀ n ≥ fuel, has set n key = .ok b := by
  obtain ⟨t, keys, ht, hkeys, hs⟩ := insertAll_set hentries stored_new
  refine ⟨t, keys, setOf keys, ht, hkeys, buildSet_eq keys, hs.newDomainSet_eq ht, fun key => ?_⟩
  unfold setOf
  split_ifs with hnil
  · exact ⟨false, 0, fun _ _ => rfl⟩
  · have hsorted := sortedKeys_ne_nil hnil
    have hroot : At (sortedKeys keys) 0 [] := at_root
    by_cases hkey : key = []
    · exact ⟨_, 0, fun n _ => (if_pos hkey).trans hroot.leaf⟩
    · obtain ⟨b, fuel, hfuel⟩ := exists_ends hsorted (reads_normalize key) hroot
        (length_pos_iff.mpr (readOf_ne_nil hkey)) (nil_append _).symm ⟨false, resumes_nil.mpr rfl⟩
      rw [start_zero] at hfuel
      exact ⟨b, fuel, fun n hn => (if_neg hkey).trans (walk_le hfuel hn)⟩

theorem has_returns_wildcard :
    ∃ t keys set, DomainTrie.new.insertAll [(ascii "*.com", ())] = .ok t ∧
      insertAllKeys [] [ascii "*.com"] = .ok keys ∧ buildSet keys = .ok set ∧
      (∀ domains, domains.Perm (t.foreach.map Prod.fst) → newDomainSet domains = .ok set) ∧
      ∀ key : Str, ∃ b fuel, ∀ n ≥ fuel, has set n key = .ok b :=
  has_returns [(ascii "*.com", ())]
    (forall_mem_singleton.mpr ⟨[ascii "*", ascii "com"], by decide +kernel⟩)

end Mihomo.Trie
