import Mihomo.Trie.Domain

/-!
# What a search of the trie finds

A trie is a map from paths of labels to values (`Node.lookup`). `find` says in terms of such a map
which pattern wins: at each label the label itself before `*`, and both before the suffix pattern.
-/

namespace Mihomo.Trie
open Go Option

variable {T : Type}

def Node.lookup : List Str → Node T → Option T
  | [], n => n.data
  | part :: parts, n => (n.getChild part).bind (Node.lookup parts)

def find : List Str → (List Str → Option T) → Option T
  | [], g => g []
  | l :: ls, g =>
    (find ls fun p => g (l :: p)).or ((find ls fun p => g (wildcard :: p)).or (g [dotWildcard]))

def record (g : List Str → Option T) (path : List Str) (d : T) : List Str → Option T := fun q =>
  if path = q then some d else g q

theorem Entries.get_set (m : Entries T) (s t : Str) (n : Node T) :
    (m.set s n).get t = if s = t then some n else m.get t := by
  match m with
  | .nil => rfl
  | .cons key child rest =>
    by_cases hk : key = s
    · subst hk
      simp only [Entries.set, if_true, Entries.get]
      split_ifs <;> rfl
    · simp only [Entries.set, if_neg hk, Entries.get, Entries.get_set rest s t n]
      split_ifs with h1 h2 h3 <;> first | rfl | exact absurd (h1.trans h2.symm) hk

theorem Node.getChild_setChild (n : Node T) (s t : Str) (c : Node T) :
    (n.setChild s c).getChild t = if s = t then some c else n.getChild t := by
  obtain ⟨d, kids⟩ := n
  cases kids with
  | none => rfl
  | one key child =>
    by_cases hk : key = s
    · subst hk
      simp only [setChild, getChild, Node.kids, if_true]
      split_ifs <;> rfl
    · simp only [setChild, getChild, Node.kids, if_neg hk, Entries.get]
      split_ifs with h1 h2 <;> first | rfl | exact absurd (h1.trans h2.symm) hk
  | map m => exact m.get_set s t c

theorem lookup_new (path : List Str) : (Node.new : Node T).lookup path = none := by
  cases path <;> rfl

theorem lookup_getD (n : Node T) (s : Str) (path : List Str) :
    ((n.getChild s).getD .new).lookup path = n.lookup (s :: path) := by
  rw [Node.lookup]
  cases n.getChild s with
  | none => exact lookup_new path
  | some c => rfl

theorem Node.lookup_insert (d : T) (path q : List Str) (n : Node T) :
    (n.insert d path).lookup q = record (fun p => n.lookup p) path d q := by
  induction path generalizing n q with
  | nil =>
    rcases q with _ | ⟨r, rs⟩ <;> rfl
  | cons p ps ih =>
    rcases q with _ | ⟨r, rs⟩
    · rfl
    · rw [Node.insert, Node.lookup, Node.getChild_setChild, record]
      by_cases hp : p = r
      · subst hp
        rw [if_pos rfl, bind_some, ih, record, lookup_getD]
        simp
      · rw [if_neg hp, if_neg (by simp [hp])]
        rfl

theorem find_none (ls : List Str) : find ls (fun _ => (none : Option T)) = none := by
  induction ls with
  | nil => rfl
  | cons l ls ih => rw [find, ih, none_or, none_or]

theorem or_bind_data (x y : Option (Node T)) :
    ((x.filter fun m => !m.isEmpty).or y).bind Node.data = (x.bind Node.data).or (y.bind Node.data) := by
  cases x with
  | none => rfl
  | some m =>
    cases hd : m.data with
    | none | some => simp [Option.filter, Node.isEmpty, hd]

theorem Node.search_eq (ls : List Str) (n : Node T) :
    (n.search ls).bind Node.data = find ls fun p => n.lookup p := by
  induction ls generalizing n with
  | nil => rfl
  | cons l ls ih =>
    have hbelow : ∀ s, ((n.getChild s).bind (Node.search ls)).bind Node.data =
        find ls fun p => n.lookup (s :: p) := by
      intro s
      cases hc : n.getChild s with
      | none => simp [Node.lookup, hc, find_none]
      | some c => simp [Node.lookup, hc, ih]
    have hdot : (n.getChild dotWildcard).bind Node.data = n.lookup [dotWildcard] := rfl
    rw [Node.search, or_bind_data, or_bind_data, hbelow, hbelow, hdot, find]

variable {ls parts : List Str} {q : Str}

theorem find_eq_none {g : List Str → Option T} (h : ∀ p, g p = none) : find ls g = none := by
  rw [funext h]
  exact find_none ls

theorem filter_bind_data (x : Option (Node T)) :
    (x.filter fun m => !m.isEmpty).bind Node.data = x.bind Node.data := by
  have h := or_bind_data x none
  rwa [or_none, bind_none, or_none] at h

theorem find_of_hasNoChild {n : Node T} (h : n.hasNoChild = true) (hls : ls ≠ []) :
    find ls (fun p => n.lookup p) = none := by
  obtain ⟨d, kids⟩ := n
  cases kids with
  | none =>
    obtain ⟨l, ls, rfl⟩ := List.exists_cons_of_ne_nil hls
    exact find_none (l :: ls)
  | one | map => cases h

theorem validAndSplitDomain_ne_nil (h : validAndSplitDomain q = .ok parts) : parts ≠ [] := by
  unfold validAndSplitDomain at h
  split_ifs at h
  dsimp only at h
  split at h
  · cases h
  · obtain rfl : _ = parts := Except.ok.inj h
    exact List.splitOn_ne_nil _ _

theorem DomainTrie.search_eq (t : DomainTrie T)
    (hq : validAndSplitDomain q = .ok parts) (hfirst : parts.head? ≠ some []) :
    (t.search q).bind Node.data = find parts.reverse fun p => t.root.lookup p := by
  rw [DomainTrie.search]
  split_ifs with hroot
  · have hne : parts.reverse ≠ [] := List.reverse_ne_nil_iff.mpr (validAndSplitDomain_ne_nil hq)
    rw [find_of_hasNoChild hroot hne]
    rfl
  · rw [hq]
    dsimp only
    rw [if_neg hfirst, filter_bind_data, Node.search_eq]

end Mihomo.Trie
