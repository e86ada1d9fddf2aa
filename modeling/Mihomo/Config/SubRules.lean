import Mihomo.Rules.Named

/-!
# The sub-rules of a configuration

`parseSubRules` parses the named lists of sub-rules, which may refer to each other, and `verifySubRule`
rejects references to unknown lists and circular references. The calls append the names on the way to a
shared slice, but a caller looks at no more of it than it has written itself, so the path is a value
here.
-/

namespace Mihomo.Config
open Go Rules.Named List

inductive VerifyError where
  | notFound (index : Nat) (name adapter : Str)
  | circular (path : List Str)
  deriving DecidableEq, Repr

def VerifyError.message : VerifyError → Str
  | .notFound index name adapter =>
    ascii "sub-rule[" ++ ascii (toString index) ++ ascii ":" ++ name ++ ascii "] error: [" ++ adapter ++
      ascii "] not found"
  | .circular path =>
      ascii "sub-rule error: circular references [" ++ (ascii "->").intercalate path ++ ascii "]"

inductive ParseError (ε : Type) where
  | emptyName
  | rules (e : ε)
  | verify (e : VerifyError)

/-- `parseRules` has its own messages. -/
def ParseError.message {ε : Type} (rulesMessage : ε → Str) : ParseError ε → Str
  | .emptyName => ascii "sub-rule name is empty"
  | .rules e => rulesMessage e
  | .verify e => e.message

variable {M : Type}

/-- The loop over the rules of the list `name`; `next` is the recursive call. -/
def verifyRules (subRules : SubRules M) (next : Str → List Str → Option (Except VerifyError Unit))
    (name : Str) (arr : List Str) : Nat → List (ListRule M) → Option (Except VerifyError Unit)
  | _, [] => some (.ok ())
  | i, .test _ :: rules => verifyRules subRules next name arr (i + 1) rules
  | i, .subRules _ adapter :: rules =>
    if adapter ∉ subRules then some (.error (.notFound i name adapter))
    else if adapter ∈ arr then some (.error (.circular (arr ++ [adapter])))
    else
      match next adapter arr with
      | some (.ok ()) => verifyRules subRules next name arr (i + 1) rules
      | r => r

def verifySubRuleCircularReferences (subRules : SubRules M) :
    Nat → Str → List Str → Option (Except VerifyError Unit)
  | 0, _, _ => none
  | n + 1, name, arr =>
    verifyRules subRules (verifySubRuleCircularReferences subRules n) name (arr ++ [name]) 0
      (subRules.list name)

def verifySubRule (subRules : SubRules M) (fuel : Nat) : List Str → Option (Except VerifyError Unit)
  | [] => some (.ok ())
  | name :: names =>
    match verifySubRuleCircularReferences subRules fuel name [] with
    | some (.ok ()) => verifySubRule subRules fuel names
    | r => r

/-- The second loop of `parseSubRules`; `parse` is `parseRules`. -/
def parseLists {ε : Type} (parse : Str → List Str → Except ε (List (ListRule M))) :
    List (Str × List Str) → SubRules M → Except (ParseError ε) (SubRules M)
  | [], subRules => .ok subRules
  | (name, rawRules) :: rest, subRules =>
    if name = [] then .error .emptyName
    else
      match parse name rawRules with
      | .error e => .error (.rules e)
      | .ok rules => parseLists parse rest (subRules.insert name rules)

/-- `order` is the order in which the check iterates the map. -/
def parseSubRules {ε : Type} (parse : Str → List Str → Except ε (List (ListRule M)))
    (raw : List (Str × List Str)) (order : List Str) :
    Option (Except (ParseError ε) (SubRules M)) :=
  match parseLists parse raw (raw.foldl (fun subRules r => subRules.insert r.1 []) ∅) with
  | .error e => some (.error e)
  | .ok subRules =>
    match verifySubRule subRules subRules.keys.length order with
    | none => none
    | some (.error e) => some (.error (.verify e))
    | some (.ok ()) => some (.ok subRules)

/-! ### The reference graph -/

def Refers (subRules : SubRules M) (name target : Str) : Prop :=
  ∃ cond, ListRule.subRules cond target ∈ subRules.list name

def Closed (subRules : SubRules M) : Prop :=
  ∀ name target, Refers subRules name target → target ∈ subRules

def Acyclic (subRules : SubRules M) : Prop := ∀ name, ¬ Relation.TransGen (Refers subRules) name name

variable {subRules : SubRules M} {name target : Str} {arr : List Str} {n : Nat}

theorem mem_of_refers (h : Refers subRules name target) : name ∈ subRules := by
  obtain ⟨cond, hmem⟩ := h
  unfold SubRules.list at hmem
  cases hlookup : subRules.lookup name with
  | none =>
    rw [hlookup] at hmem
    cases hmem
  | some rules => exact AList.lookup_isSome.mp (by rw [hlookup]; rfl)

/-! ### The check -/

section Loop

variable {next : Str → List Str → Option (Except VerifyError Unit)} {name : Str} {arr : List Str}

theorem verifyRules_cons_ok_iff (i : Nat) (cond : Test M) (adapter : Str) (rules : List (ListRule M)) :
    verifyRules subRules next name arr i (.subRules cond adapter :: rules) = some (.ok ()) ↔
      (adapter ∈ subRules ∧ adapter ∉ arr ∧ next adapter arr = some (.ok ())) ∧
        verifyRules subRules next name arr (i + 1) rules = some (.ok ()) := by
  rw [verifyRules]
  by_cases hknown : adapter ∈ subRules
  · rw [if_neg (not_not.mpr hknown)]
    by_cases hpath : adapter ∈ arr
    · rw [if_pos hpath]
      exact iff_of_false nofun fun h => h.1.2.1 hpath
    · rw [if_neg hpath]
      split
      next hnext =>
        exact (and_iff_right ⟨hknown, hpath, hnext⟩).symm
      next hnext =>
        exact iff_of_false hnext fun h => hnext h.1.2.2
  · rw [if_pos hknown]
    exact iff_of_false nofun fun h => hknown h.1.1

theorem verifyRules_ok_iff (i : Nat) (rules : List (ListRule M)) :
    verifyRules subRules next name arr i rules = some (.ok ()) ↔
      ∀ cond target, .subRules cond target ∈ rules →
        target ∈ subRules ∧ target ∉ arr ∧ next target arr = some (.ok ()) := by
  induction rules generalizing i with
  | nil => exact iff_of_true rfl fun _ _ h => nomatch h
  | cons rule rules ih =>
    cases rule with
    | test t =>
      rw [verifyRules, ih]
      refine forall₂_congr fun cond target => ?_
      rw [mem_cons, or_iff_right (by nofun)]
    | subRules cond adapter =>
      rw [verifyRules_cons_ok_iff, ih]
      constructor
      · rintro ⟨hfirst, hrest⟩ cond' target hmem
        rcases mem_cons.mp hmem with heq | hmem
        · cases heq
          exact hfirst
        · exact hrest cond' target hmem
      · intro h
        exact ⟨h cond adapter mem_cons_self, fun cond' target hmem =>
          h cond' target (mem_cons_of_mem _ hmem)⟩

theorem verifyRules_isSome
    (hnext : ∀ target ∈ subRules, target ∉ arr → (next target arr).isSome = true) (i : Nat)
    (rules : List (ListRule M)) : (verifyRules subRules next name arr i rules).isSome = true := by
  induction rules generalizing i with
  | nil => rfl
  | cons rule rules ih =>
    cases rule with
    | test t => exact ih (i + 1)
    | subRules cond adapter =>
      rw [verifyRules]
      split_ifs with hknown hpath
      · rfl
      · have hsome := hnext adapter hknown hpath
        split
        · exact ih (i + 1)
        · exact hsome
      · rfl

theorem verifyRules_mono {next' : Str → List Str → Option (Except VerifyError Unit)}
    (hnext : ∀ target r, next target arr = some r → next' target arr = some r) {i : Nat}
    {rules : List (ListRule M)} {r : Except VerifyError Unit}
    (h : verifyRules subRules next name arr i rules = some r) :
    verifyRules subRules next' name arr i rules = some r := by
  induction rules generalizing i with
  | nil => exact h
  | cons rule rules ih =>
    cases rule with
    | test t => exact ih h
    | subRules cond adapter =>
      rw [verifyRules] at h ⊢
      split_ifs at h ⊢ with hknown hpath
      · exact h
      · cases hn : next adapter arr with
        | none =>
          rw [hn] at h
          cases h
        | some r' =>
          rw [hn] at h
          rw [hnext adapter r' hn]
          cases r' with
          | error e => exact h
          | ok u => exact ih h
      · exact h

end Loop

variable {r : Except VerifyError Unit} {path order : List Str} {fuel : Nat}

theorem verify_mono
    (h : verifySubRuleCircularReferences subRules n name arr = some r) :
    verifySubRuleCircularReferences subRules (n + 1) name arr = some r := by
  induction n generalizing name arr r with
  | zero => cases h
  | succ n ih =>
    exact verifyRules_mono (fun _ _ => ih) h

theorem verify_ok_iff (n : Nat) (name : Str) (arr : List Str) :
    verifySubRuleCircularReferences subRules (n + 1) name arr = some (.ok ()) ↔
      ∀ target, Refers subRules name target → target ∈ subRules ∧ target ∉ arr ++ [name] ∧
        verifySubRuleCircularReferences subRules n target (arr ++ [name]) = some (.ok ()) := by
  rw [verifySubRuleCircularReferences, verifyRules_ok_iff]
  constructor
  · rintro h target ⟨cond, hmem⟩
    exact h cond target hmem
  · intro h cond target hmem
    exact h target ⟨cond, hmem⟩

structure Path (subRules : SubRules M) (path : List Str) : Prop where
  nodup : path.Nodup
  known : ∀ name ∈ path, name ∈ subRules

theorem Path.lt (h : Path subRules (arr ++ [name])) : arr.length < subRules.keys.length := by
  have hle := (subperm_of_subset h.nodup h.known).length_le
  rwa [length_append] at hle

theorem Path.concat (h : Path subRules path)
    (hknown : target ∈ subRules) (hnew : target ∉ path) : Path subRules (path ++ [target]) := by
  refine ⟨?_, forall_mem_append.mpr ⟨h.known, forall_mem_singleton.mpr hknown⟩⟩
  rw [← concat_eq_append]
  exact h.nodup.concat hnew

theorem verify_isSome (hpath : Path subRules (arr ++ [name]))
    (hn : subRules.keys.length ≤ n + arr.length) :
    (verifySubRuleCircularReferences subRules n name arr).isSome = true := by
  induction n generalizing name arr with
  | zero =>
    have hlt := hpath.lt
    omega
  | succ n ih =>
    refine verifyRules_isSome (fun target hknown hnew => ?_) 0 _
    refine ih (hpath.concat hknown hnew) ?_
    rw [length_append, length_singleton]
    omega

theorem accepted_of_transGen
    (h : verifySubRuleCircularReferences subRules n name arr = some (.ok ()))
    (hgen : Relation.TransGen (Refers subRules) name target) :
    ∃ m path, name ∈ path ∧ target ∉ path ∧
      verifySubRuleCircularReferences subRules m target path = some (.ok ()) := by
  induction hgen with
  | single href =>
    cases n with
    | zero => cases h
    | succ n =>
      obtain ⟨-, hnew, hnext⟩ := (verify_ok_iff n name arr).mp h _ href
      exact ⟨n, arr ++ [name], mem_append_right _ mem_cons_self, hnew, hnext⟩
  | @tail mid last _ href ih =>
    obtain ⟨m, path, hmem, -, hok⟩ := ih
    cases m with
    | zero => cases hok
    | succ m =>
      obtain ⟨-, hnew, hnext⟩ := (verify_ok_iff m _ path).mp hok _ href
      exact ⟨m, path ++ [mid], mem_append_left _ hmem, hnew, hnext⟩

/-- On a graph without unknown lists and cycles the check accepts; every list on the path leads to
the present one. -/
theorem accepted_of_acyclic (hclosed : Closed subRules) (hacyclic : Acyclic subRules)
    (hreach : ∀ a ∈ arr, Relation.TransGen (Refers subRules) a name)
    (hpath : Path subRules (arr ++ [name])) (hn : subRules.keys.length ≤ n + arr.length) :
    verifySubRuleCircularReferences subRules n name arr = some (.ok ()) := by
  induction n generalizing name arr with
  | zero =>
    have hlt := hpath.lt
    omega
  | succ n ih =>
    refine (verify_ok_iff n name arr).mpr fun target href => ?_
    have hreach' : ∀ a ∈ arr ++ [name], Relation.TransGen (Refers subRules) a target :=
      forall_mem_append.mpr
        ⟨fun a ha => (hreach a ha).tail href, forall_mem_singleton.mpr (.single href)⟩
    have hnew : target ∉ arr ++ [name] := fun hmem => hacyclic target (hreach' target hmem)
    have hknown := hclosed name target href
    refine ⟨hknown, hnew, ih hreach' (hpath.concat hknown hnew) ?_⟩
    rw [length_append, length_singleton]
    omega

theorem path_single (h : name ∈ subRules) : Path subRules ([] ++ [name]) :=
  ⟨nodup_singleton name, fun _ ha => by rwa [mem_singleton.mp ha]⟩

theorem verifySubRule_ok_iff (fuel : Nat) (order : List Str) :
    verifySubRule subRules fuel order = some (.ok ()) ↔
      ∀ name ∈ order, verifySubRuleCircularReferences subRules fuel name [] = some (.ok ()) := by
  induction order with
  | nil => exact iff_of_true rfl fun _ h => nomatch h
  | cons name names ih =>
    rw [verifySubRule, forall_mem_cons, ← ih]
    split
    next hok =>
      exact (and_iff_right hok).symm
    next hne =>
      exact iff_of_false hne fun h => hne h.1

theorem verifySubRule_isSome (hfuel : subRules.keys.length ≤ fuel)
    (horder : ∀ name ∈ order, name ∈ subRules) : (verifySubRule subRules fuel order).isSome = true := by
  induction order with
  | nil => rfl
  | cons name names ih =>
    rw [forall_mem_cons] at horder
    have hsome := verify_isSome (path_single horder.1) (show _ ≤ fuel + [].length from hfuel)
    rw [verifySubRule]
    split
    · exact ih horder.2
    · exact hsome

theorem verifySubRule_mono
    (h : verifySubRule subRules fuel order = some r) :
    verifySubRule subRules (fuel + 1) order = some r := by
  induction order with
  | nil => exact h
  | cons name names ih =>
    rw [verifySubRule] at h ⊢
    cases hfirst : verifySubRuleCircularReferences subRules fuel name [] with
    | none =>
      rw [hfirst] at h
      cases h
    | some r' =>
      rw [hfirst] at h
      rw [verify_mono hfirst]
      cases r' with
      | error e => exact h
      | ok u => exact ih h

section Order

variable {order : List Str} (horder : ∀ name, name ∈ order ↔ name ∈ subRules)
include horder

theorem verifySubRule_returns :
    ∃ r, ∀ n, subRules.keys.length ≤ n → verifySubRule subRules n order = some r := by
  have hsome :=
    verifySubRule_isSome (Nat.le_refl subRules.keys.length) fun name hname => (horder name).mp hname
  obtain ⟨r, hr⟩ := Option.isSome_iff_exists.mp hsome
  refine ⟨r, fun n hn => ?_⟩
  induction hn with
  | refl => exact hr
  | step _ ih => exact verifySubRule_mono ih

theorem verifySubRule_accepts_iff :
    verifySubRule subRules subRules.keys.length order = some (.ok ()) ↔ Closed subRules ∧
      Acyclic subRules := by
  rw [verifySubRule_ok_iff]
  constructor
  · intro h
    refine ⟨fun name target href => ?_, fun name hgen => ?_⟩
    · have hok := verify_mono (h name ((horder name).mpr (mem_of_refers href)))
      exact ((verify_ok_iff _ name []).mp hok target href).1
    · obtain ⟨target, href, -⟩ := Relation.TransGen.head'_iff.mp hgen
      obtain ⟨m, path, hin, hnotin, -⟩ :=
        accepted_of_transGen (h name ((horder name).mpr (mem_of_refers href))) hgen
      exact hnotin hin
  · rintro ⟨hclosed, hacyclic⟩ name hname
    exact accepted_of_acyclic hclosed hacyclic (forall_mem_nil _)
      (path_single ((horder name).mp hname))
      (Nat.le_refl _)

end Order

/-! ### Parsing -/

theorem mem_parseLists {ε : Type} {parse : Str → List Str → Except ε (List (ListRule M))}
    {raw : List (Str × List Str)} {start : SubRules M}
    (h : parseLists parse raw start = .ok subRules) (name : Str) :
    name ∈ subRules ↔ name ∈ start ∨ name ∈ raw.map Prod.fst := by
  induction raw generalizing start with
  | nil =>
    cases h
    exact (or_iff_left not_mem_nil).symm
  | cons r raw ih =>
    obtain ⟨first, rawRules⟩ := r
    rw [parseLists] at h
    split_ifs at h with hempty
    cases hparse : parse first rawRules with
    | error e =>
      rw [hparse] at h
      cases h
    | ok rules =>
      rw [hparse] at h
      rw [ih h, AList.mem_insert, map_cons, mem_cons, or_assoc, or_left_comm]

theorem mem_empties (raw : List (Str × List Str)) (start : SubRules M) (name : Str) :
    name ∈ raw.foldl (fun subRules r => subRules.insert r.1 []) start ↔ name ∈ start ∨
      name ∈ raw.map Prod.fst := by
  induction raw generalizing start with
  | nil => exact (or_iff_left not_mem_nil).symm
  | cons r raw ih =>
    rw [foldl_cons, ih, AList.mem_insert, map_cons, mem_cons, or_assoc, or_left_comm]

section Parsed

variable {ε : Type} {parse : Str → List Str → Except ε (List (ListRule M))} {raw : List (Str × List Str)}
  {order : List Str} (horder : order.Perm (raw.map Prod.fst))
include horder

theorem mem_order_iff
    (h : parseLists parse raw (raw.foldl (fun subRules r => subRules.insert r.1 []) ∅) = .ok subRules)
    (name : Str) : name ∈ order ↔ name ∈ subRules := by
  rw [horder.mem_iff, mem_parseLists h, mem_empties, or_assoc, or_self,
    or_iff_right (AList.notMem_empty name)]

theorem parseSubRules_returns : parseSubRules parse raw order ≠ none := by
  rw [parseSubRules]
  cases hlists : parseLists parse raw (raw.foldl (fun subRules r => subRules.insert r.1 []) ∅) with
  | error e => nofun
  | ok parsed =>
    obtain ⟨r, hreturns⟩ := verifySubRule_returns (mem_order_iff horder hlists)
    have hr := hreturns _ (Nat.le_refl _)
    dsimp only
    rw [hr]
    cases r <;> nofun

theorem parseSubRules_ok (h : parseSubRules parse raw order = some (.ok subRules)) :
    (∀ name, name ∈ order ↔ name ∈ subRules) ∧
      verifySubRule subRules subRules.keys.length order = some (.ok ()) := by
  rw [parseSubRules] at h
  cases hlists : parseLists parse raw (raw.foldl (fun subRules r => subRules.insert r.1 []) ∅) with
  | error e =>
    rw [hlists] at h
    cases h
  | ok parsed =>
    rw [hlists] at h
    dsimp only at h
    split at h
    · cases h
    · cases h
    next hverify =>
      cases h
      exact ⟨mem_order_iff horder hlists, hverify⟩

end Parsed

end Mihomo.Config
