import Mihomo.Trie.Stored

/-!
# The patterns that a trie lists

`Foreach` lists the paths with a value, each as a domain. That needs the keys of a child map to be
distinct, which insertions keep (`Node.Wf`).
-/

namespace Mihomo.Trie
open Go
open List hiding reverse

variable {T : Type}

mutual

def Node.Wf : Node T → Prop
  | .mk _ kids => kids.Wf

def Kids.Wf : Kids T → Prop
  | .none => True
  | .one _ n => n.Wf
  | .map m => m.Wf

def Entries.Wf : Entries T → Prop
  | .nil => True
  | .cons s n rest => rest.get s = none ∧ n.Wf ∧ rest.Wf

end

theorem Entries.wf_get {m : Entries T} (h : m.Wf) {s : Str} {c : Node T} (hc : m.get s = some c) :
    c.Wf := by
  match m with
  | .nil => cases hc
  | .cons key child rest =>
    rw [Entries.get] at hc
    split_ifs at hc with hkey
    · exact Option.some.inj hc ▸ h.2.1
    · exact Entries.wf_get h.2.2 hc

theorem Entries.wf_set {m : Entries T} (h : m.Wf) (s : Str) {c : Node T} (hc : c.Wf) :
    (m.set s c).Wf := by
  match m with
  | .nil => exact ⟨rfl, hc, trivial⟩
  | .cons key child rest =>
    rw [Entries.set]
    split_ifs with hkey
    · exact ⟨h.1, hc, h.2.2⟩
    · refine ⟨?_, h.2.1, Entries.wf_set h.2.2 s hc⟩
      rw [Entries.get_set, if_neg (Ne.symm hkey), h.1]

theorem Node.wf_getChild {n : Node T} (h : n.Wf) {s : Str} {c : Node T} (hc : n.getChild s = some c) :
    c.Wf := by
  obtain ⟨d, kids⟩ := n
  cases kids with
  | none => cases hc
  | one key child =>
    simp only [Node.getChild, Node.kids] at hc
    split_ifs at hc
    exact Option.some.inj hc ▸ h
  | map m => exact Entries.wf_get h hc

theorem Node.wf_setChild {n : Node T} (h : n.Wf) (s : Str) {c : Node T} (hc : c.Wf) :
    (n.setChild s c).Wf := by
  obtain ⟨d, kids⟩ := n
  cases kids with
  | none => exact hc
  | one key child =>
    simp only [Node.setChild, Node.kids]
    split_ifs with hkey
    · exact hc
    · exact ⟨if_neg (Ne.symm hkey), h, rfl, hc, trivial⟩
  | map m => exact Entries.wf_set h s hc

theorem Node.wf_insert (d : T) (path : List Str) {n : Node T} (h : n.Wf) : (n.insert d path).Wf := by
  induction path generalizing n with
  | nil =>
    obtain ⟨d', kids⟩ := n
    exact h
  | cons s path ih =>
    refine Node.wf_setChild h s (ih ?_)
    cases hc : n.getChild s with
    | none => exact trivial
    | some c => exact Node.wf_getChild h hc

theorem DomainTrie.wf_insert {t t' : DomainTrie T} (h : t.root.Wf) {domain : Str} {d : T}
    (ht : t.insert domain d = .ok t') : t'.root.Wf := by
  rw [DomainTrie.insert] at ht
  split at ht
  · cases ht
  · split_ifs at ht
    · rw [← Except.ok.inj ht]
      exact Node.wf_insert d _ (Node.wf_insert d _ h)
    · rw [← Except.ok.inj ht]
      exact Node.wf_insert d _ h

theorem DomainTrie.wf_insertAll {entries : List (Str × T)} {t t' : DomainTrie T} (h : t.root.Wf)
    (ht : t.insertAll entries = .ok t') : t'.root.Wf := by
  induction entries generalizing t with
  | nil =>
    rw [← Except.ok.inj ht]
    exact h
  | cons e entries ih =>
    rw [DomainTrie.insertAll, foldlM_cons] at ht
    cases he : t.insert e.1 e.2 with
    | error err => rw [he] at ht; cases ht
    | ok t₁ =>
      rw [he] at ht
      exact ih (DomainTrie.wf_insert h he) ht

/-! ### Listing -/

def Listed (c : Node T) (items : List Str) (e : Str × T) : Prop :=
  ∃ p, c.lookup p = some e.2 ∧ e.1 = joinDomain (p.reverse ++ items)

theorem mem_entry {n : Node T} {s : Str} {items : List Str} {e : Str × T}
    (hwalk : e ∈ n.walk (s :: items) ↔ ∃ s' c, n.getChild s' = some c ∧ Listed c (s' :: s :: items) e) :
    (e ∈ (n.data.toList.map fun d => (joinDomain (s :: items), d)) ∨ e ∈ n.walk (s :: items)) ↔
      Listed n (s :: items) e := by
  rw [hwalk, mem_map]
  constructor
  · rintro (⟨d, hd, rfl⟩ | ⟨s', c, hc, p, hp, he⟩)
    · exact ⟨[], Option.mem_toList.mp hd, rfl⟩
    · refine ⟨s' :: p, ?_, by rw [he]; simp⟩
      rw [Node.lookup, hc]
      exact hp
  · rintro ⟨p, hp, he⟩
    rcases p with _ | ⟨s', p⟩
    · exact .inl
        ⟨e.2, Option.mem_toList.mpr hp, by rw [reverse_nil, nil_append] at he; rw [← he]⟩
    · obtain ⟨c, hc, hp⟩ := Option.bind_eq_some_iff.mp hp
      exact .inr ⟨s', c, hc, p, hp, by rw [he]; simp⟩

mutual

theorem Node.mem_walk (n : Node T) (h : n.Wf) (items : List Str) (e : Str × T) :
    e ∈ n.walk items ↔ ∃ s c, n.getChild s = some c ∧ Listed c (s :: items) e := by
  match n with
  | .mk d .none => simp [Node.walk, Kids.walk, Node.getChild, Node.kids]
  | .mk d (.one s c) =>
    rw [Node.walk, Kids.walk, mem_append, mem_entry (Node.mem_walk c h (s :: items) e)]
    simp [Node.getChild, Node.kids]
  | .mk d (.map m) =>
    exact Entries.mem_walk m h items e

theorem Entries.mem_walk (m : Entries T) (h : m.Wf) (items : List Str) (e : Str × T) :
    e ∈ m.walk items ↔ ∃ s c, m.get s = some c ∧ Listed c (s :: items) e := by
  match m with
  | .nil => simp [Entries.walk, Entries.get]
  | .cons s n rest =>
    rw [Entries.walk, mem_append, mem_append, mem_entry (Node.mem_walk n h.2.1 (s :: items) e),
      Entries.mem_walk rest h.2.2 items e]
    constructor
    · rintro (hn | ⟨s', c, hc, hlisted⟩)
      · exact ⟨s, n, if_pos rfl, hn⟩
      · have hne : s ≠ s' := by
          rintro rfl
          rw [h.1] at hc
          cases hc
        exact ⟨s', c, (if_neg hne).trans hc, hlisted⟩
    · rintro ⟨s', c, hc, hlisted⟩
      rw [Entries.get] at hc
      split_ifs at hc with hs
      · subst hs
        exact .inl (Option.some.inj hc ▸ hlisted)
      · exact .inr ⟨s', c, hc, hlisted⟩

end

theorem Entries.mem_toList {m : Entries T} (h : m.Wf) (s : Str) (c : Node T) :
    (s, c) ∈ m.toList ↔ m.get s = some c := by
  match m with
  | .nil => simp [Entries.toList, Entries.get]
  | .cons key child rest =>
    rw [Entries.toList, mem_cons, Entries.mem_toList h.2.2 s c, Entries.get]
    split_ifs with hs
    · subst hs
      simp [h.1, eq_comm]
    · simp [Ne.symm hs]

theorem Node.mem_getChildren {n : Node T} (h : n.Wf) (s : Str) (c : Node T) :
    (s, c) ∈ n.getChildren ↔ n.getChild s = some c := by
  obtain ⟨d, kids⟩ := n
  cases kids with
  | none => simp [Node.getChildren, Node.getChild, Node.kids]
  | one key child =>
    simp only [Node.getChildren, Node.getChild, Node.kids]
    split_ifs with hs
    · simp [hs, eq_comm]
    · simp [Ne.symm hs]
  | map m => exact Entries.mem_toList h s c

theorem DomainTrie.mem_foreach {t : DomainTrie T} (h : t.root.Wf) (e : Str × T) :
    e ∈ t.foreach ↔ ∃ p, p ≠ [] ∧ t.root.lookup p = some e.2 ∧ e.1 = joinDomain p.reverse := by
  have hchild : ∀ s c, (s, c) ∈ t.root.getChildren → (e ∈ c.walk [s] ++ c.data.toList.map
      (fun d => (joinDomain [s], d)) ↔ Listed c [s] e) := by
    intro s c hc
    have hwf := Node.wf_getChild h ((Node.mem_getChildren h s c).mp hc)
    rw [mem_append, or_comm]
    exact mem_entry (Node.mem_walk c hwf [s] e)
  rw [DomainTrie.foreach, mem_flatMap]
  constructor
  · rintro ⟨⟨s, c⟩, hc, he⟩
    obtain ⟨p, hp, he⟩ := (hchild s c hc).mp he
    refine ⟨s :: p, cons_ne_nil s p, ?_, by rw [he, reverse_cons]⟩
    rw [Node.lookup, (Node.mem_getChildren h s c).mp hc]
    exact hp
  · rintro ⟨p, hne, hp, he⟩
    obtain ⟨s, p, rfl⟩ := exists_cons_of_ne_nil hne
    obtain ⟨c, hc, hp⟩ := Option.bind_eq_some_iff.mp hp
    have hmem := (Node.mem_getChildren h s c).mpr hc
    exact ⟨(s, c), hmem, (hchild s c hmem).mpr ⟨p, hp, by rw [he, reverse_cons]⟩⟩

/-! ### The keys of the listed domains -/

theorem reverse_joinDomain_labels {ls : List Str} (h : ∀ l ∈ ls, Label l) :
    reverse (joinDomain ls.reverse) = encode ls := by
  rw [reverse_joinDomain, reverse_reverse]
  exact congrArg joinDomain (map_congr_left fun l hl => (h l hl).labelKey_eq.symm)

theorem keyOfDomain_eq {p : List Str} (hp : Path p) : keyOfDomain (joinDomain p.reverse) = encode p := by
  obtain ⟨ls, hne, hls, rfl | rfl⟩ := hp
  · have hhead : (joinDomain p.reverse).head? ≠ some domainStepByte := by
      obtain ⟨l, rest, hl⟩ :=
        exists_cons_of_ne_nil (fun h => hne (reverse_eq_nil_iff.mp h) : p.reverse ≠ [])
      have hlabel := hls l (mem_reverse.mp (hl ▸ mem_cons_self))
      obtain ⟨c, s, rfl⟩ := exists_cons_of_ne_nil hlabel.ne_nil
      intro h
      refine hlabel.step ?_
      rw [hl] at h
      by_cases hrest : rest = []
      · rw [hrest, joinDomain_singleton, head?_cons, Option.some.injEq] at h
        exact h ▸ mem_cons_self
      · rw [joinDomain_cons _ hrest, cons_append, head?_cons, Option.some.injEq] at h
        exact h ▸ mem_cons_self
    rw [keyOfDomain, if_neg hhead, reverse_joinDomain_labels hls]
  · have hrev : ls.reverse ≠ [] := fun h => hne (reverse_eq_nil_iff.mp h)
    have hdomain :
        joinDomain (ls ++ [dotWildcard]).reverse = domainStepByte :: joinDomain ls.reverse := by
      rw [List.reverse_append, reverse_singleton, singleton_append, joinDomain_cons _ hrev]
      rfl
    rw [keyOfDomain, hdomain, if_pos head?_cons, reverse_append complexWildcard step_ascii,
      reverse_joinDomain_labels hls, encode_snoc, stem, if_neg hne,
        append_assoc]
    rfl

theorem Stored.listed {t : DomainTrie T} {keys : List Str} (hs : Stored t keys) (hwf : t.root.Wf)
    {domains : List Str} (hdomains : domains.Perm (t.foreach.map Prod.fst)) :
    Stored t (domains.map keyOfDomain) where
  path := hs.path
  keys k := by
    rw [mem_map]
    constructor
    · rintro ⟨d, hd, rfl⟩
      obtain ⟨e, he, rfl⟩ := mem_map.mp (hdomains.mem_iff.mp hd)
      obtain ⟨p, -, hp, hdom⟩ := (DomainTrie.mem_foreach hwf e).mp he
      have hval : t.root.lookup p ≠ none := by
        rw [hp]
        exact Option.some_ne_none _
      exact ⟨p, hval, by rw [hdom, keyOfDomain_eq (hs.path p hval)]⟩
    · rintro ⟨p, hval, rfl⟩
      obtain ⟨v, hv⟩ := Option.ne_none_iff_exists'.mp hval
      have hpath := hs.path p hval
      refine ⟨joinDomain p.reverse,
        hdomains.mem_iff.mpr (mem_map.mpr ⟨(joinDomain p.reverse, v), ?_, rfl⟩),
        keyOfDomain_eq hpath⟩
      exact (DomainTrie.mem_foreach hwf _).mpr ⟨p, hpath.ne_nil, hv, rfl⟩

end Mihomo.Trie
